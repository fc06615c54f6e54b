import Intcp.CallRules

/-!
# The loop of `input` as a fold

`input` handles the segments that `decode` yields, one after the other, and stops
behind the first data segment whose length contradicts its range.
-/

namespace InputLoop

open Words BlockCache TransControl SegmentCodec NodeCore

universe u
variable {F : Type u} {nameLen : Nat} {P : Platform F}

/-- The check of a data segment with a payload. -/
def Consistent (s : IntcpSeg) : Prop :=
  s.cmd = intcpCmdInt ∨ s.len = 0 ∨ s.rangeEnd - s.rangeStart = s.len

instance (s : IntcpSeg) : Decidable (Consistent s) := inferInstanceAs (Decidable (_ ∨ _ ∨ _))

/-- One round of the loop; the flag is false where it breaks. -/
def handle (P : Platform F) (cb : IntcpTransCB F nameLen) (s : IntcpSeg) :
    Bool × IntcpTransCB F nameLen :=
  if s.cmd = intcpCmdInt then (true, inputInt P (tick cb) s)
  else inputPush P (tick cb) (getMillisec P cb) s

def handleAll (P : Platform F) : IntcpTransCB F nameLen → List IntcpSeg →
    Bool × IntcpTransCB F nameLen
  | cb, [] => (true, cb)
  | cb, s :: rest =>
    let handled := handle P cb s
    if handled.1 then handleAll P handled.2 rest else handled

/-- The segments that the loop passes on. -/
def accepted (P : Platform F) (data : List UInt8) : List IntcpSeg :=
  (decode P.raw data).2.takeWhile fun s => decide (Consistent s)

lemma handle_flag (cb : IntcpTransCB F nameLen) (s : IntcpSeg) :
    (handle P cb s).1 = true ↔ Consistent s := by
  rw [handle, Consistent]
  split
  · rename_i hint
    simp [hint]
  · rename_i hint
    simp only [inputPush]
    split
    · rename_i hlen
      simp [hlen]
    · rename_i hlen
      split
      · rename_i hrange
        simp [hint, hlen, hrange]
      · rename_i hrange
        simp [not_not.mp hrange]

/-- The loop is the fold over what it decodes; unless it breaks, it reads the clock once
more before it finds the datagram used up. -/
lemma inputLoop_eq (fuel : Nat) (data : List UInt8) (cb : IntcpTransCB F nameLen)
    (enough : data.length < fuel) :
    (inputLoop P fuel data cb).2 =
      let handled := handleAll P cb (walk P.raw fuel data).2
      if handled.1 then tick handled.2 else handled.2 := by
  induction fuel generalizing data cb with
  | zero => omega
  | succ fuel ih =>
    rw [inputLoop, walk]
    cases hnext : nextSeg P.raw data with
    | short => rfl
    | fault code => rfl
    | seg s rest =>
      have hrest := nextSeg_length hnext
      simp only [handleAll, handle]
      by_cases hcmd : s.cmd = intcpCmdInt
      · simp only [if_pos hcmd]
        exact ih rest _ (by omega)
      · simp only [if_neg hcmd]
        cases hgo : (inputPush P (tick cb) (getMillisec P cb) s).1 with
        | true => exact ih rest _ (by omega)
        | false => simp [hgo]

theorem input_eq (cb : IntcpTransCB F nameLen) {data : List UInt8}
    (long : intcpOverhead.toNat ≤ data.length) :
    (input P cb data).2 =
      let handled := handleAll P cb (decode P.raw data).2
      if handled.1 then tick handled.2 else handled.2 := by
  rw [input, if_neg (by omega)]
  exact inputLoop_eq _ data cb (Nat.lt_succ_self _)

/-- Whatever the datagram, `input` is the fold but for the clock readings taken. -/
lemma input_handleAll (cb : IntcpTransCB F nameLen) (data : List UInt8) :
    ∃ n, (input P cb data).2 = { (handleAll P cb (decode P.raw data).2).2 with reads := n } := by
  by_cases hlong : intcpOverhead.toNat ≤ data.length
  · have hfold := input_eq (P := P) cb hlong
    simp only at hfold
    split at hfold
    · exact ⟨_, hfold⟩
    · exact ⟨_, hfold⟩
  · have hshort : decode P.raw data = (0, []) := by
      rw [decode, walk, nextSeg, if_pos (by omega)]
    rw [input, if_pos (by omega), hshort]
    exact ⟨_, rfl⟩

/-- The loop goes on past the segments it was through with, and not past a break. -/
lemma handleAll_append (cb : IntcpTransCB F nameLen) (segs more : List IntcpSeg) :
    handleAll P cb (segs ++ more) =
      let handled := handleAll P cb segs
      if handled.1 then handleAll P handled.2 more else handled := by
  induction segs generalizing cb with
  | nil => rfl
  | cons s rest ih =>
    rw [List.cons_append, handleAll, handleAll]
    cases hflag : (handle P cb s).1 with
    | true => exact ih (handle P cb s).2
    | false => simp [hflag]

/-- Where the loop breaks, it returns 0 and reads no clock any more. -/
lemma inputLoop_break (fuel : Nat) (data : List UInt8) (cb : IntcpTransCB F nameLen)
    (enough : data.length < fuel) (breaks : (handleAll P cb (walk P.raw fuel data).2).1 = false) :
    inputLoop P fuel data cb = (0, (handleAll P cb (walk P.raw fuel data).2).2) := by
  induction fuel generalizing data cb with
  | zero => omega
  | succ fuel ih =>
    rw [walk] at breaks ⊢
    rw [inputLoop]
    cases hnext : nextSeg P.raw data with
    | short => simp [hnext, handleAll] at breaks
    | fault code => simp [hnext, handleAll] at breaks
    | seg s rest =>
      have hrest := nextSeg_length hnext
      simp only [hnext, handleAll, handle] at breaks ⊢
      by_cases hcmd : s.cmd = intcpCmdInt
      · simp only [if_pos hcmd] at breaks ⊢
        exact ih rest _ (by omega) breaks
      · simp only [if_neg hcmd] at breaks ⊢
        cases hgo : (inputPush P (tick cb) (getMillisec P cb) s).1 with
        | true =>
          simp only [hgo, if_true] at breaks ⊢
          exact ih rest _ (by omega) breaks
        | false => simp

lemma input_break (cb : IntcpTransCB F nameLen) {data : List UInt8}
    (long : intcpOverhead.toNat ≤ data.length)
    (breaks : (handleAll P cb (decode P.raw data).2).1 = false) :
    input P cb data = (0, (handleAll P cb (decode P.raw data).2).2) := by
  rw [input, if_neg (by omega)]
  exact inputLoop_break _ data cb (Nat.lt_succ_self _) breaks

/-- The loop breaks exactly where a segment is inconsistent. -/
lemma handleAll_flag (cb : IntcpTransCB F nameLen) (segs : List IntcpSeg) :
    (handleAll P cb segs).1 = true ↔ ∀ s ∈ segs, Consistent s := by
  induction segs generalizing cb with
  | nil => simp [handleAll]
  | cons s rest ih =>
    have hhandle := handle_flag (P := P) cb s
    rw [handleAll, List.forall_mem_cons, ← hhandle]
    cases hflag : (handle P cb s).1 with
    | true => simpa [hflag] using ih (handle P cb s).2
    | false => simp [hflag]

end InputLoop
