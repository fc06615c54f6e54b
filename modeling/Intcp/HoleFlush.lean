import Intcp.CallRules

/-!
# One flush of the data holes

A hole that has waited long enough is asked for again and removed, and one that
has waited too long is removed without that. The second test of the loop is not
in an `else` of the first, so what the first one erased is read, asked for and
erased again.
-/

namespace HoleFlush

open Words BlockCache TransControl DataPlane InterestPlane CallRules

universe u
variable {F : Type u} {nameLen : Nat} {P : Platform F}

/-- The time that a hole has waited. -/
def waited (current : UInt32) (hole : Hole) : Int := itimediff current hole.ts

def Young (current : UInt32) (hole : Hole) : Prop := waited current hole < intcpHoleWait.toNat

def Expired (current : UInt32) (hole : Hole) : Prop :=
  (intcpSnholeTimeout.toNat : Int) ≤ waited current hole

def Ripe (current : UInt32) (hole : Hole) : Prop := ¬ Young current hole ∧ ¬ Expired current hole

instance (current : UInt32) (hole : Hole) : Decidable (Young current hole) :=
  inferInstanceAs (Decidable ((_ : Int) < _))

instance (current : UInt32) (hole : Hole) : Decidable (Expired current hole) :=
  inferInstanceAs (Decidable ((_ : Int) ≤ _))

instance (current : UInt32) (hole : Hole) : Decidable (Ripe current hole) :=
  inferInstanceAs (Decidable (_ ∧ _))

/-- The young holes stay in order, the ripe ones are asked for once each, nothing else happens,
and no erased entry is used. -/
structure TreatsOnce (P : Platform F) (cb : IntcpTransCB F nameLen) : Prop where
  once : flushDataHoles P cb =
    { (cb.dataHoles.filter fun hole => decide (Ripe (getMillisec P cb) hole)).foldl
        (recoverHole P) (tick cb) with
      dataHoles := cb.dataHoles.filter fun hole => decide (Young (getMillisec P cb) hole) }
  erased : (flushDataHoles P cb).history.erasedUse = false

lemma parseInt_erasedUse (cb : IntcpTransCB F nameLen) (s e : UInt32) :
    (parseInt P cb s e).history.erasedUse = cb.history.erasedUse := by
  apply parseInt_rule (fun c => c.history.erasedUse = cb.history.erasedUse) _ _ s e _ _ _ _ rfl
  · exact fun _ _ _ h => h
  · exact fun _ _ _ _ h => h
  · exact fun _ _ h _ => h
  · exact fun _ h => h
  · intro c s h _
    rw [outputInt_eq]
    exact h
  · intro c s h _ _
    simp only [request]
    split
    · exact h
    · split <;> exact h

lemma recoverHole_erasedUse (cb : IntcpTransCB F nameLen) (hole : Hole) :
    (recoverHole P cb hole).history.erasedUse = cb.history.erasedUse := by
  have hparsed := parseInt_erasedUse (P := P) cb hole.startByte hole.endByte
  rw [recoverHole]
  split
  · obtain ⟨n, hn⟩ := splitInts_reads (P := P) hole.startByte hole.endByte
      (parseInt P cb hole.startByte hole.endByte) (parseInt P cb hole.startByte hole.endByte).intBuf
    rw [updateIntBuf, hn]
    exact hparsed
  · exact hparsed

/-- Every expired hole is used behind its erasure. -/
lemma flushHoles_erasedUse (current : UInt32) (cb : IntcpTransCB F nameLen) (holes : List Hole) :
    (flushHoles P current cb holes).1.history.erasedUse =
      (cb.history.erasedUse || holes.any fun hole => decide (Expired current hole)) := by
  induction holes generalizing cb with
  | nil => exact (Bool.or_false _).symm
  | cons hole rest ih =>
    rw [List.any_cons]
    by_cases hyoung : Young current hole
    · have hwait : ¬ itimediff current hole.ts ≥ (intcpHoleWait.toNat : Int) := Int.not_le.mpr hyoung
      have hfresh : ¬ Expired current hole := by
        have hle : intcpHoleWait.toNat ≤ intcpSnholeTimeout.toNat := by decide
        rw [Young] at hyoung
        rw [Expired]
        omega
      simp only [flushHoles, if_neg hwait, ih, decide_eq_false hfresh, Bool.false_or]
    · have hwait : itimediff current hole.ts ≥ (intcpHoleWait.toNat : Int) := Int.not_lt.mp hyoung
      simp only [flushHoles, if_pos hwait, ih, recoverHole_erasedUse, noteErased, Bool.or_assoc]
      rfl

/-- Without an expired hole the loop asks for the ripe ones in order. -/
lemma flushHoles_ripe (current : UInt32) (cb : IntcpTransCB F nameLen) {holes : List Hole}
    (fresh : ∀ hole ∈ holes, ¬ Expired current hole) :
    flushHoles P current cb holes =
      ((holes.filter fun hole => decide (Ripe current hole)).foldl (recoverHole P) cb,
        holes.filter fun hole => decide (Young current hole)) := by
  induction holes generalizing cb with
  | nil => rfl
  | cons hole rest ih =>
    obtain ⟨hhole, hrest⟩ := List.forall_mem_cons.mp fresh
    by_cases hyoung : Young current hole
    · have hwait : ¬ itimediff current hole.ts ≥ (intcpHoleWait.toNat : Int) := Int.not_le.mpr hyoung
      have hripe : ¬ Ripe current hole := fun h => h.1 hyoung
      simp only [flushHoles, if_neg hwait, ih cb hrest, List.filter_cons, hripe, hyoung,
        decide_false, decide_true, Bool.false_eq_true, if_false, if_true]
    · have hwait : itimediff current hole.ts ≥ (intcpHoleWait.toNat : Int) := Int.not_lt.mp hyoung
      have hripe : Ripe current hole := ⟨hyoung, hhole⟩
      have hnote : noteErased cb (decide (itimediff current hole.ts ≥
          (intcpSnholeTimeout.toNat : Int))) = cb := by
        have hlow : ¬ itimediff current hole.ts ≥ (intcpSnholeTimeout.toNat : Int) := hhole
        simp only [noteErased, decide_eq_false hlow, Bool.or_false]
      simp only [flushHoles, if_pos hwait, hnote, ih _ hrest, List.filter_cons, hripe, hyoung,
        decide_false, decide_true, Bool.false_eq_true, if_false, if_true, List.foldl_cons]

/-- A flush treats every hole once if and only if none has expired. -/
theorem treatsOnce_iff {cb : IntcpTransCB F nameLen} (clean : cb.history.erasedUse = false) :
    TreatsOnce P cb ↔ ∀ hole ∈ cb.dataHoles, ¬ Expired (getMillisec P cb) hole := by
  have herased : (flushDataHoles P cb).history.erasedUse =
      (cb.history.erasedUse || cb.dataHoles.any fun hole => decide (Expired (getMillisec P cb) hole)) :=
    flushHoles_erasedUse _ (tick cb) cb.dataHoles
  constructor
  · intro treats hole hhole hexpired
    have hfalse := herased.symm.trans treats.erased
    have hnone := (Bool.or_eq_false_iff.mp hfalse).2
    exact List.any_eq_false.mp hnone hole hhole (decide_eq_true hexpired)
  · intro fresh
    have hnone : (cb.dataHoles.any fun hole => decide (Expired (getMillisec P cb) hole)) = false := by
      rw [List.any_eq_false]
      intro hole hhole
      simpa using fresh hole hhole
    constructor
    · have hloop := flushHoles_ripe (P := P) (getMillisec P cb) (tick cb) fresh
      have hflush : flushDataHoles P cb =
          { (flushHoles P (getMillisec P cb) (tick cb) cb.dataHoles).1 with
            dataHoles := (flushHoles P (getMillisec P cb) (tick cb) cb.dataHoles).2 } := rfl
      rw [hflush, hloop]
    · rw [herased, clean, hnone]
      rfl

/-- A midnode with a hole since time 0. -/
def holed (current : UInt32) : IntcpTransCB Rat 1 × Platform Rat :=
  let P := Platform.exact fun _ => current
  ({ IntcpTransCB.create P .midnode #v[104] (Cache.fresh fun _ _ => 0) with
    dataHoles := [⟨0, 100, 0, 0⟩] }, P)

theorem ripe_hole_once : TreatsOnce (holed 199).2 (holed 199).1 :=
  (treatsOnce_iff rfl).mpr (by decide +kernel)

theorem expired_hole_twice : ¬ TreatsOnce (holed 200).2 (holed 200).1 := by
  intro treats
  have herased : (flushDataHoles (holed 200).2 (holed 200).1).history.erasedUse = true := by
    decide +kernel
  rw [treats.erased] at herased
  cases herased

end HoleFlush
