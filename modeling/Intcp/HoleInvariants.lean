import Mathlib.Data.Set.BooleanAlgebra
import Mathlib.Order.CompletePartialOrder
import Intcp.CallRules
import Intcp.Spans

/-!
# The hole list as a set of spans

`dataHoles` is an ordered list of spans below the cursor: `deleteDataHole` cuts
one span out of it, a new hole goes behind all others, and `flushDataHoles`
only removes entries. No hole holds a byte that has arrived, unless some segment
started behind the cursor and ended ahead of it: the cursor is then left behind
and a later hole can cover what that segment brought.
-/

namespace HoleInvariants

open StepRuns Words BlockCache TransControl DataPlane HoleTracking InterestPlane CallRules Spans

universe u
variable {F : Type u} {nameLen : Nat} {P : Platform F}

def span (hole : Hole) : Span Nat := ⟨hole.startByte.toNat, hole.endByte.toNat⟩

/-- The holes are non-empty ranges in order, short, and all behind the cursor. -/
structure WellCut (dataNextRangeStart : UInt32) (holes : List Hole) : Prop where
  ordered : Ordered (holes.map span)
  short : ∀ hole ∈ holes, hole.endByte.toNat - hole.startByte.toNat ≤ 100 * intcpMss.toNat
  below : ∀ hole ∈ holes, hole.endByte ≤ dataNextRangeStart

lemma wellCut_nil (cursor : UInt32) : WellCut cursor [] := by
  refine ⟨⟨?_, List.Pairwise.nil⟩, ?_, ?_⟩ <;> intro x hx <;> cases hx

/-- `deleteDataHole` refines cutting a span out of an ordered list. -/
theorem span_cutHoles {rangeStart rangeEnd : UInt32} (proper : rangeStart < rangeEnd)
    {holes : List Hole} (ordered : Ordered (holes.map span)) :
    (cutHoles rangeStart rangeEnd holes).map span =
      minusAll rangeStart.toNat rangeEnd.toNat (holes.map span) := by
  rw [UInt32.lt_iff_toNat_lt] at proper
  induction holes with
  | nil => rfl
  | cons hole rest ih =>
    have hbehind := (List.pairwise_cons.mp ordered.behind).1
    have hproper : hole.startByte.toNat < hole.endByte.toNat :=
      ordered.proper (span hole) List.mem_cons_self
    have hlo : (span hole).lo = hole.startByte.toNat := rfl
    have hhi : (span hole).hi = hole.endByte.toNat := rfl
    have hstep : ∀ pieces : List Hole,
        pieces.map span = (span hole).minus rangeStart.toNat rangeEnd.toNat →
        (pieces ++ cutHoles rangeStart rangeEnd rest).map span =
          minusAll rangeStart.toNat rangeEnd.toNat ((hole :: rest).map span) := by
      intro pieces hpieces
      rw [List.map_append, hpieces, ih ordered.tail]
      rfl
    rw [cutHoles]
    simp only [ge_iff_le, UInt32.le_iff_toNat_le]
    split
    · refine (minusAll_behind ordered ?_).symm
      intro i hi
      rcases List.mem_cons.mp hi with rfl | hi
      · simp only [span]
        omega
      · have := hbehind i hi
        simp only [span] at this
        omega
    · split
      · exact hstep [hole] (minus_before (i := span hole) hproper (by omega) (by omega)).symm
      · split
        · split
          · exact hstep [] (minus_inside (i := span hole) (by omega) (by omega)).symm
          · exact hstep [{ hole with endByte := rangeStart }]
              (minus_head (a := rangeStart.toNat) (i := span hole) (by omega) (by omega) (by omega)).symm
        · split
          · exact hstep [{ hole with startByte := rangeEnd }]
              (minus_tail (b := rangeEnd.toNat) (i := span hole) (by omega) (by omega) (by omega)).symm
          · exact hstep [{ hole with endByte := rangeStart }, { hole with startByte := rangeEnd }]
              (minus_split (a := rangeStart.toNat) (b := rangeEnd.toNat)
                (i := span hole) (by omega) (by omega) (by omega)).symm

lemma cover_cutHoles {rangeStart rangeEnd : UInt32} (proper : rangeStart < rangeEnd)
    {holes : List Hole} (ordered : Ordered (holes.map span)) :
    cover ((cutHoles rangeStart rangeEnd holes).map span) =
      cover (holes.map span) \ Set.Ico rangeStart.toNat rangeEnd.toNat := by
  rw [span_cutHoles proper ordered, cover_minusAll]

lemma WellCut.weaken {cursor cursor' : UInt32} {holes : List Hole} (wellCut : WellCut cursor holes)
    (h : cursor ≤ cursor') : WellCut cursor' holes :=
  ⟨wellCut.ordered, wellCut.short, fun hole hh => UInt32.le_trans (wellCut.below hole hh) h⟩

lemma WellCut.sublist {cursor : UInt32} {holes fewer : List Hole} (wellCut : WellCut cursor holes)
    (h : fewer.Sublist holes) : WellCut cursor fewer := by
  have hspans := h.map span
  exact ⟨⟨fun i hi => wellCut.ordered.proper i (hspans.subset hi),
    wellCut.ordered.behind.sublist hspans⟩, fun hole hh => wellCut.short hole (h.subset hh),
    fun hole hh => wellCut.below hole (h.subset hh)⟩

/-- A piece that is left by a cut lies in a hole that was there. -/
lemma within_of_mem_cutHoles {rangeStart rangeEnd : UInt32} (proper : rangeStart < rangeEnd)
    {holes : List Hole} (ordered : Ordered (holes.map span)) {piece : Hole}
    (h : piece ∈ cutHoles rangeStart rangeEnd holes) :
    ∃ hole ∈ holes, hole.startByte.toNat ≤ piece.startByte.toNat ∧
      piece.endByte.toNat ≤ hole.endByte.toNat := by
  have hspan : span piece ∈ minusAll rangeStart.toNat rangeEnd.toNat (holes.map span) := by
    rw [← span_cutHoles proper ordered]
    exact List.mem_map_of_mem h
  obtain ⟨_, i, hi, hlo, hhi⟩ := within_of_mem_minusAll hspan
  obtain ⟨hole, hhole, rfl⟩ := List.mem_map.mp hi
  exact ⟨hole, hhole, hlo, hhi⟩

lemma WellCut.cut {cursor rangeStart rangeEnd : UInt32} {holes : List Hole}
    (wellCut : WellCut cursor holes) (proper : rangeStart < rangeEnd) :
    WellCut cursor (cutHoles rangeStart rangeEnd holes) := by
  refine ⟨?_, ?_, ?_⟩
  · rw [span_cutHoles proper wellCut.ordered]
    exact ordered_minusAll (UInt32.le_iff_toNat_le.mp (UInt32.le_of_lt proper)) wellCut.ordered
  · intro piece hpiece
    obtain ⟨hole, hhole, hlo, hhi⟩ := within_of_mem_cutHoles proper wellCut.ordered hpiece
    have := wellCut.short hole hhole
    omega
  · intro piece hpiece
    obtain ⟨hole, hhole, hlo, hhi⟩ := within_of_mem_cutHoles proper wellCut.ordered hpiece
    have hbelow := wellCut.below hole hhole
    rw [UInt32.le_iff_toNat_le] at hbelow ⊢
    omega

/-- The bytes from the cursor up to a segment ahead of it. -/
lemma WellCut.append {cursor rangeStart : UInt32} {holes : List Hole}
    (wellCut : WellCut cursor holes) (ahead : cursor < rangeStart)
    (normal : ¬ AbnormalHole cursor rangeStart) (ts : UInt32) :
    WellCut rangeStart (holes ++ [⟨cursor, rangeStart, ts, 0⟩]) := by
  have hahead := UInt32.lt_iff_toNat_lt.mp ahead
  refine ⟨⟨?_, ?_⟩, ?_, ?_⟩
  · intro i hi
    rw [List.map_append, List.mem_append] at hi
    rcases hi with hi | hi
    · exact wellCut.ordered.proper i hi
    · obtain rfl := List.mem_singleton.mp hi
      exact hahead
  · rw [List.map_append, List.pairwise_append]
    refine ⟨wellCut.ordered.behind, List.pairwise_singleton _ _, ?_⟩
    intro i hi j hj
    obtain ⟨hole, hhole, rfl⟩ := List.mem_map.mp hi
    obtain rfl := List.mem_singleton.mp hj
    exact UInt32.le_iff_toNat_le.mp (wellCut.below hole hhole)
  · intro hole hh
    rcases List.mem_append.mp hh with hh | hh
    · exact wellCut.short hole hh
    · obtain rfl := List.mem_singleton.mp hh
      have hfar : ¬ rangeStart - cursor > 100 * intcpMss := fun h => normal (Or.inr h)
      rw [gt_iff_lt, UInt32.lt_iff_toNat_lt, Words.toNat_sub_of_le (UInt32.le_of_lt ahead)] at hfar
      have hlimit : (100 * intcpMss).toNat = 100 * intcpMss.toNat := rfl
      simp only
      omega
  · intro hole hh
    rcases List.mem_append.mp hh with hh | hh
    · exact UInt32.le_trans (wellCut.below hole hh) (UInt32.le_of_lt ahead)
    · obtain rfl := List.mem_singleton.mp hh
      exact UInt32.le_refl _

/-- What hole detection can do, by the position of the segment and the cursor. -/
lemma detectDataHole_cases (cb : IntcpTransCB F nameLen) (rangeStart rangeEnd : UInt32) :
    let cursor := cb.dataNextRangeStart
    let cb' := (detectDataHole P cb rangeStart rangeEnd).2
    (rangeStart = cursor ∧ cb'.dataHoles = cb.dataHoles ∧ cb'.dataNextRangeStart = rangeEnd) ∨
    (rangeStart < cursor ∧ cb'.dataHoles = cutHoles rangeStart rangeEnd cb.dataHoles ∧
      cb'.dataNextRangeStart = cursor) ∨
    (cursor < rangeStart ∧ AbnormalHole cursor rangeStart ∧ cb'.dataHoles = cb.dataHoles ∧
      cb'.dataNextRangeStart = rangeEnd) ∨
    (cursor < rangeStart ∧ ¬ AbnormalHole cursor rangeStart ∧
      cb'.dataHoles = cb.dataHoles ++ [⟨cursor, rangeStart, P.clock cb.reads, 0⟩] ∧
      cb'.dataNextRangeStart = rangeEnd) := by
  simp only [detectDataHole]
  by_cases heq : rangeStart = cb.dataNextRangeStart
  · exact Or.inl ⟨heq, by simp only [if_pos heq, and_self]⟩
  · by_cases hlt : rangeStart < cb.dataNextRangeStart
    · refine Or.inr (Or.inl ⟨hlt, ?_⟩)
      simp only [if_neg heq, if_pos hlt, deleteDataHole, and_self]
    · have hgt : cb.dataNextRangeStart < rangeStart := by grind
      by_cases habnormal : AbnormalHole cb.dataNextRangeStart rangeStart
      · refine Or.inr (Or.inr (Or.inl ⟨hgt, habnormal, ?_⟩))
        simp only [if_neg heq, if_neg hlt, if_pos habnormal, and_self]
      · refine Or.inr (Or.inr (Or.inr ⟨hgt, habnormal, ?_⟩))
        simp only [if_neg heq, if_neg hlt, if_neg habnormal, and_true]
        by_cases hrole : (insertDataHole P cb cb.dataNextRangeStart rangeStart).nodeRole = .midnode
        · simp only [if_pos hrole, sendDataHeader, enqueue]
          rfl
        · simp only [if_neg hrole]
          rfl

/-- The part of the state that hole handling is about. -/
def SameHoles (cb cb' : IntcpTransCB F nameLen) : Prop :=
  cb'.dataHoles = cb.dataHoles ∧ cb'.dataNextRangeStart = cb.dataNextRangeStart

lemma outputInt_sameHoles {cb₀ cb : IntcpTransCB F nameLen} (h : SameHoles cb₀ cb) (s e : UInt32) :
    SameHoles cb₀ (outputInt P cb s e) := by
  rw [outputInt_eq]
  exact h

lemma request_sameHoles {cb₀ cb : IntcpTransCB F nameLen} (h : SameHoles cb₀ cb) (s e : UInt32) :
    SameHoles cb₀ (request P cb s e).2 := by
  simp only [request]
  split
  · exact h
  · split <;> exact h

lemma updateIntBuf_sameHoles {cb₀ cb : IntcpTransCB F nameLen} (h : SameHoles cb₀ cb)
    (s e : UInt32) : SameHoles cb₀ (updateIntBuf P cb s e) := by
  obtain ⟨n, hn⟩ := splitInts_reads (P := P) s e cb cb.intBuf
  rw [updateIntBuf, hn]
  exact h

lemma parseInt_sameHoles {cb₀ cb : IntcpTransCB F nameLen} (h : SameHoles cb₀ cb) (s e : UInt32) :
    SameHoles cb₀ (parseInt P cb s e) :=
  parseInt_rule (SameHoles cb₀) (fun _ _ _ h => h) (fun _ _ _ _ h => h) s e (fun _ _ h _ => h)
    (fun _ h => h) (fun _ s h _ => outputInt_sameHoles h s e)
    (fun _ s h _ _ => request_sameHoles h s e) h

lemma flushDataHoles_holes (cb : IntcpTransCB F nameLen) :
    (flushDataHoles P cb).dataHoles.Sublist cb.dataHoles ∧
      (flushDataHoles P cb).dataNextRangeStart = cb.dataNextRangeStart := by
  have start : SameHoles cb (tick cb) := ⟨rfl, rfl⟩
  have hrest : SameHoles cb
      (flushHoles P (P.clock cb.reads) (tick cb) cb.dataHoles).1 :=
    flushHoles_rule (SameHoles cb) (P.clock cb.reads) cb.dataHoles (fun _ _ h => h)
      (fun _ hole _ h => parseInt_sameHoles h hole.startByte hole.endByte)
      (fun _ hole _ h _ => updateIntBuf_sameHoles h hole.startByte hole.endByte) start
  exact ⟨flushHoles_sublist _ _ _, hrest.2⟩

/-- The calls that touch the holes of a node. -/
inductive HoleCall where
  | detect (rangeStart rangeEnd : UInt32)
  | delete (rangeStart rangeEnd : UInt32)
  | flush

def HoleCall.step (P : Platform F) (call : HoleCall) (cb : IntcpTransCB F nameLen) :
    Option (IntcpTransCB F nameLen) :=
  match call with
  | .detect s e => some (detectDataHole P cb s e).2
  | .delete s e => some (deleteDataHole cb s e)
  | .flush => some (flushDataHoles P cb)

def HoleCall.Valid : HoleCall → Prop
  | .detect s e => s < e
  | .delete s e => s < e
  | .flush => True

instance : ∀ call : HoleCall, Decidable call.Valid
  | .detect s e => inferInstanceAs (Decidable (s < e))
  | .delete s e => inferInstanceAs (Decidable (s < e))
  | .flush => inferInstanceAs (Decidable True)

lemma step_returns (call : HoleCall) (cb : IntcpTransCB F nameLen) :
    ∃ cb', call.step P cb = some cb' := by
  cases call <;> exact ⟨_, rfl⟩

/-- A step keeps the list well cut and never moves the cursor back. -/
lemma step_wellCut {cb cb' : IntcpTransCB F nameLen} {call : HoleCall}
    (wellCut : WellCut cb.dataNextRangeStart cb.dataHoles) (valid : call.Valid)
    (h : call.step P cb = some cb') :
    WellCut cb'.dataNextRangeStart cb'.dataHoles ∧
      cb.dataNextRangeStart ≤ cb'.dataNextRangeStart := by
  cases call with
  | detect s e =>
    cases h
    have hse : s < e := valid
    rcases detectDataHole_cases (P := P) cb s e with ⟨rfl, hholes, hcursor⟩ | ⟨_, hholes, hcursor⟩ |
      ⟨hahead, _, hholes, hcursor⟩ | ⟨hahead, hnormal, hholes, hcursor⟩ <;> rw [hholes, hcursor]
    · exact ⟨wellCut.weaken (UInt32.le_of_lt hse), UInt32.le_of_lt hse⟩
    · exact ⟨wellCut.cut hse, UInt32.le_refl _⟩
    · have hle := UInt32.le_of_lt (UInt32.lt_trans hahead hse)
      exact ⟨wellCut.weaken hle, hle⟩
    · have hle := UInt32.le_of_lt (UInt32.lt_trans hahead hse)
      exact ⟨(wellCut.append hahead hnormal _).weaken (UInt32.le_of_lt hse), hle⟩
  | delete s e =>
    cases h
    exact ⟨wellCut.cut valid, UInt32.le_refl _⟩
  | flush =>
    cases h
    obtain ⟨hsub, hcursor⟩ := flushDataHoles_holes (P := P) cb
    rw [hcursor]
    exact ⟨wellCut.sublist hsub, UInt32.le_refl _⟩

/-- In every state of every run the hole list is an ordered list of short spans
behind a cursor that never decreases. -/
theorem run_wellCut (P : Platform F) (role : Role) (nameChars : Vector UInt8 nameLen)
    (cache : Cache nameLen) (calls : List HoleCall) (valid : ∀ call ∈ calls, call.Valid) :
    ∃ cb, run (HoleCall.step P) (IntcpTransCB.create P role nameChars cache) calls = some cb ∧
      WellCut cb.dataNextRangeStart cb.dataHoles ∧
      ∀ (call : HoleCall) cb', call.Valid → call.step P cb = some cb' →
        cb.dataNextRangeStart ≤ cb'.dataNextRangeStart := by
  have hrun : ∃ cb, run (HoleCall.step P) (IntcpTransCB.create P role nameChars cache) calls =
      some cb ∧ WellCut cb.dataNextRangeStart cb.dataHoles := by
    induction calls using List.reverseRecOn with
    | nil => exact ⟨_, rfl, wellCut_nil _⟩
    | append_singleton calls call ih =>
      obtain ⟨cb, hcalls, wellCut⟩ := ih fun call h => valid call (List.mem_append_left _ h)
      obtain ⟨cb', hstep⟩ := step_returns (P := P) call cb
      refine ⟨cb', ?_, (step_wellCut wellCut (valid call (by simp)) hstep).1⟩
      rw [run_snoc, hcalls]
      exact hstep
  obtain ⟨cb, hcalls, wellCut⟩ := hrun
  exact ⟨cb, hcalls, wellCut, fun call cb' hvalid hstep => (step_wellCut wellCut hvalid hstep).2⟩

/-- Two gaps, of which the first is cut in two. -/
theorem run_wellCut_two_gaps :
    ∃ cb, run (HoleCall.step (Platform.exact fun _ => 0))
        (IntcpTransCB.create (Platform.exact fun _ => 0) .midnode #v[110] (Cache.fresh fun _ _ => 0))
        [.detect 100 200, .detect 300 400, .delete 240 250, .detect 500 600, .flush] = some cb ∧
      WellCut cb.dataNextRangeStart cb.dataHoles ∧
      ∀ (call : HoleCall) cb', call.Valid → call.step (Platform.exact fun _ => 0) cb = some cb' →
        cb.dataNextRangeStart ≤ cb'.dataNextRangeStart :=
  run_wellCut _ _ _ _ _ (by decide)

/-- The segment starts behind the cursor and ends ahead of it. -/
def HoleCall.Straddles (cb : IntcpTransCB F nameLen) : HoleCall → Prop
  | .detect s e => s < cb.dataNextRangeStart ∧ cb.dataNextRangeStart < e
  | .delete _ _ => False
  | .flush => False

instance (cb : IntcpTransCB F nameLen) : ∀ call : HoleCall, Decidable (call.Straddles cb)
  | .detect _ _ => inferInstanceAs (Decidable (_ ∧ _))
  | .delete _ _ => inferInstanceAs (Decidable False)
  | .flush => inferInstanceAs (Decidable False)

/-- The bytes of the segments processed so far. -/
def arrived (calls : List HoleCall) : Set Nat :=
  {x | ∃ s e, HoleCall.detect s e ∈ calls ∧ x ∈ Set.Ico s.toNat e.toNat}

/-- No hole contains a byte that has arrived. -/
def HolesMissing (calls : List HoleCall) (cb : IntcpTransCB F nameLen) : Prop :=
  Disjoint (arrived calls) (cover (cb.dataHoles.map span))

lemma arrived_snoc (calls : List HoleCall) (call : HoleCall) :
    arrived (calls ++ [call]) = arrived calls ∪ arrived [call] := by
  ext x
  simp only [arrived, List.mem_append, Set.mem_union, Set.mem_ofPred_eq]
  constructor
  · rintro ⟨s, e, h | h, hx⟩
    · exact Or.inl ⟨s, e, h, hx⟩
    · exact Or.inr ⟨s, e, h, hx⟩
  · rintro (⟨s, e, h, hx⟩ | ⟨s, e, h, hx⟩)
    · exact ⟨s, e, Or.inl h, hx⟩
    · exact ⟨s, e, Or.inr h, hx⟩

lemma arrived_detect (s e : UInt32) : arrived [.detect s e] = Set.Ico s.toNat e.toNat := by
  ext x
  simp [arrived]

lemma arrived_other {call : HoleCall} (h : ∀ s e, call ≠ .detect s e) : arrived [call] = ∅ := by
  refine Set.eq_empty_iff_forall_notMem.mpr ?_
  rintro x ⟨s, e, hmem, _⟩
  exact h s e (List.mem_singleton.mp hmem).symm

/-- Everything that has arrived is behind the cursor and outside the holes. -/
structure Tracked (calls : List HoleCall) (cb : IntcpTransCB F nameLen) : Prop where
  wellCut : WellCut cb.dataNextRangeStart cb.dataHoles
  behind : arrived calls ⊆ Set.Iio cb.dataNextRangeStart.toNat
  missing : HolesMissing calls cb

lemma cover_sublist {l m : List (Span Nat)} (h : l.Sublist m) : cover l ⊆ cover m := by
  rintro x ⟨i, hi, hx⟩
  exact ⟨i, h.subset hi, hx⟩

/-- The cursor moves to the end of a segment that is not behind it; a new hole lies
between the two. -/
lemma Tracked.advance {calls : List HoleCall} {cb cb' : IntcpTransCB F nameLen} {s e : UInt32}
    (tracked : Tracked calls cb) (proper : s < e) (ahead : cb.dataNextRangeStart ≤ s)
    (wellCut : WellCut cb'.dataNextRangeStart cb'.dataHoles)
    (hcursor : cb'.dataNextRangeStart = e)
    (hcover : cover (cb'.dataHoles.map span) ⊆
      cover (cb.dataHoles.map span) ∪ Set.Ico cb.dataNextRangeStart.toNat s.toNat) :
    Tracked (calls ++ [.detect s e]) cb' := by
  rw [UInt32.lt_iff_toNat_lt] at proper
  rw [UInt32.le_iff_toNat_le] at ahead
  have hholes : ∀ x ∈ cover (cb.dataHoles.map span), x < cb.dataNextRangeStart.toNat := by
    rintro x ⟨i, hi, hx⟩
    obtain ⟨hole, hhole, rfl⟩ := List.mem_map.mp hi
    have hbelow := UInt32.le_iff_toNat_le.mp (tracked.wellCut.below hole hhole)
    have hxhi : x < hole.endByte.toNat := hx.2
    omega
  refine ⟨wellCut, ?_, ?_⟩
  · rw [arrived_snoc, arrived_detect, hcursor]
    rintro x (hx | hx)
    · have hbehind : x < cb.dataNextRangeStart.toNat := tracked.behind hx
      exact lt_of_lt_of_le hbehind (by omega)
    · exact hx.2
  · rw [HolesMissing, arrived_snoc, arrived_detect]
    refine Set.disjoint_left.mpr ?_
    rintro x (hx | hx) hc
    · rcases hcover hc with hc | hc
      · exact Set.disjoint_left.mp tracked.missing hx hc
      · have hbehind : x < cb.dataNextRangeStart.toNat := tracked.behind hx
        exact absurd hc.1 (by omega)
    · have hsx := hx.1
      rcases hcover hc with hc | hc
      · have := hholes x hc
        omega
      · exact absurd hc.2 (by omega)

lemma step_tracked {calls : List HoleCall} {cb cb' : IntcpTransCB F nameLen} {call : HoleCall}
    (tracked : Tracked calls cb) (valid : call.Valid) (within : ¬ call.Straddles cb)
    (h : call.step P cb = some cb') : Tracked (calls ++ [call]) cb' := by
  have wellCut := (step_wellCut tracked.wellCut valid h).1
  cases call with
  | detect s e =>
    cases h
    have hse : s < e := valid
    rcases detectDataHole_cases (P := P) cb s e with ⟨hs, hholes, hcursor⟩ |
      ⟨hback, hholes, hcursor⟩ | ⟨hahead, _, hholes, hcursor⟩ | ⟨hahead, _, hholes, hcursor⟩
    · refine tracked.advance hse (hs ▸ UInt32.le_refl _) wellCut hcursor ?_
      rw [hholes]
      exact Set.subset_union_left
    · have hbound : e ≤ cb.dataNextRangeStart := by
        refine UInt32.not_lt.mp fun hlt => within ⟨hback, hlt⟩
      have hcut := cover_cutHoles hse tracked.wellCut.ordered
      refine ⟨wellCut, ?_, ?_⟩
      · rw [arrived_snoc, arrived_detect, hcursor]
        rintro x (hx | hx)
        · exact tracked.behind hx
        · exact lt_of_lt_of_le hx.2 (UInt32.le_iff_toNat_le.mp hbound)
      · rw [HolesMissing, arrived_snoc, arrived_detect, hholes, hcut]
        refine Set.disjoint_left.mpr ?_
        rintro x (hx | hx) hc
        · exact Set.disjoint_left.mp tracked.missing hx hc.1
        · exact hc.2 hx
    · refine tracked.advance hse (UInt32.le_of_lt hahead) wellCut hcursor ?_
      rw [hholes]
      exact Set.subset_union_left
    · refine tracked.advance hse (UInt32.le_of_lt hahead) wellCut hcursor ?_
      rw [hholes, List.map_append, cover_append, List.map_singleton, cover_cons, cover_nil,
        Set.union_empty]
      rfl
  | delete s e =>
    cases h
    have hcut := cover_cutHoles valid tracked.wellCut.ordered
    have hnone : arrived (calls ++ [.delete s e]) = arrived calls := by
      rw [arrived_snoc, arrived_other (by simp), Set.union_empty]
    refine ⟨wellCut, hnone ▸ tracked.behind, ?_⟩
    rw [HolesMissing, hnone, deleteDataHole, hcut]
    exact tracked.missing.mono_right Set.sdiff_subset
  | flush =>
    cases h
    obtain ⟨hsub, hcursor⟩ := flushDataHoles_holes (P := P) cb
    have hnone : arrived (calls ++ [.flush]) = arrived calls := by
      rw [arrived_snoc, arrived_other (by simp), Set.union_empty]
    refine ⟨wellCut, ?_, ?_⟩
    · rw [hnone, hcursor]
      exact tracked.behind
    · rw [HolesMissing, hnone]
      exact tracked.missing.mono_right (cover_sublist (hsub.map span))

/-- While no segment straddles the cursor, no hole holds a byte that has arrived. -/
theorem run_holesMissing (P : Platform F) (role : Role) (nameChars : Vector UInt8 nameLen)
    (cache : Cache nameLen) (calls : List HoleCall) (valid : ∀ call ∈ calls, call.Valid)
    (within : Along (HoleCall.step P) (fun cb call => ¬ call.Straddles cb)
      (IntcpTransCB.create P role nameChars cache) calls) :
    ∃ cb, run (HoleCall.step P) (IntcpTransCB.create P role nameChars cache) calls = some cb ∧
      HolesMissing calls cb := by
  have hrun : ∃ cb, run (HoleCall.step P) (IntcpTransCB.create P role nameChars cache) calls =
      some cb ∧ Tracked calls cb := by
    induction calls using List.reverseRecOn with
    | nil =>
      refine ⟨_, rfl, wellCut_nil _, ?_, ?_⟩
      · rintro x ⟨s, e, hmem, _⟩
        cases hmem
      · refine Set.disjoint_left.mpr ?_
        rintro x ⟨s, e, hmem, _⟩
        cases hmem
    | append_singleton calls call ih =>
      obtain ⟨hbefore, hlast⟩ := along_append.mp within
      obtain ⟨cb, hcalls, tracked⟩ := ih (fun call h => valid call (List.mem_append_left _ h)) hbefore
      obtain ⟨cb', hstep⟩ := step_returns (P := P) call cb
      refine ⟨cb', ?_, step_tracked tracked (valid call (by simp)) (hlast cb hcalls).1 hstep⟩
      rw [run_snoc, hcalls]
      exact hstep
  obtain ⟨cb, hcalls, tracked⟩ := hrun
  exact ⟨cb, hcalls, tracked.missing⟩

/-- A gap that a late segment fills. -/
theorem run_holesMissing_filled :
    ∃ cb, run (HoleCall.step (Platform.exact fun _ => 0))
        (IntcpTransCB.create (Platform.exact fun _ => 0) .midnode #v[110] (Cache.fresh fun _ _ => 0))
        [.detect 100 200, .detect 300 400, .detect 200 300, .detect 400 500] = some cb ∧
      HolesMissing [.detect 100 200, .detect 300 400, .detect 200 300, .detect 400 500] cb :=
  run_holesMissing _ _ _ _ _ (by decide) (by decide +kernel)

def straddlingCalls : List HoleCall := [.detect 100 200, .detect 150 400, .detect 300 500]

lemma straddling_holes :
    (run (HoleCall.step (Platform.exact fun _ => 0))
      (IntcpTransCB.create (Platform.exact fun _ => 0) .midnode #v[110] (Cache.fresh fun _ _ => 0))
      straddlingCalls).map (fun cb => cb.dataHoles) = some [⟨200, 300, 0, 0⟩] := by
  decide +kernel

/-- The hole [200, 300) is opened although [150, 400) has arrived. -/
theorem straddling_hole_arrived :
    (∀ call ∈ straddlingCalls, call.Valid) ∧
      ∃ cb, run (HoleCall.step (Platform.exact fun _ => 0))
          (IntcpTransCB.create (Platform.exact fun _ => 0) .midnode #v[110]
            (Cache.fresh fun _ _ => 0)) straddlingCalls = some cb ∧
        ¬ HolesMissing straddlingCalls cb := by
  refine ⟨by decide, ?_⟩
  obtain ⟨cb, hrun, hholes⟩ := Option.map_eq_some_iff.mp straddling_holes
  refine ⟨cb, hrun, ?_⟩
  intro missing
  have harrived : 250 ∈ arrived straddlingCalls :=
    ⟨150, 400, by simp [straddlingCalls], by decide, by decide⟩
  refine Set.disjoint_left.mp missing harrived ?_
  rw [hholes]
  exact ⟨⟨200, 300⟩, List.mem_singleton.mpr rfl, by decide, by decide⟩

end HoleInvariants
