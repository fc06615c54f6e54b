import Intcp.BlockCache

/-!
# Slot tables are separated intervals

The merge loop of `Cache::insert` keeps the live slots of a block apart: no two
of them overlap or touch. The bytes a table claims after a range was merged in
are those it claimed before and the range itself, unless the table was full.
-/

namespace SlotTables

open FuelledLoop Words BlockCache

def Slot.Holds (r : Slot) (o : UInt32) : Prop := r.start ≤ o ∧ o < r.stop

/-- Some slot of the table claims the byte. -/
def Claims (ranges : List Slot) (o : UInt32) : Prop := ∃ r ∈ ranges, Slot.Holds r o

def Apart (r q : Slot) : Prop := r.stop < q.start ∨ q.stop < r.start

/-- Live slots are non-empty, lie in the block and never touch. -/
structure Separated (blockStart : Nat) (ranges : List Slot) : Prop where
  inside : ∀ r ∈ ranges, ¬ r.Empty →
    blockStart ≤ r.start.toNat ∧ r.start < r.stop ∧ r.stop.toNat ≤ blockStart + 4096
  apart : ∀ (i j : Nat) (r q : Slot), i ≠ j → ranges[i]? = some r → ranges[j]? = some q →
    ¬ r.Empty → ¬ q.Empty → Apart r q

lemma holds_not_empty {r : Slot} {o : UInt32} (h : Slot.Holds r o) : ¬ r.Empty := by
  rintro ⟨_, hstop⟩
  have := h.2
  rw [hstop] at this
  exact absurd this (by simp)

lemma zero_empty : Slot.zero.Empty := ⟨rfl, rfl⟩

lemma separated_cleared (blockStart n : Nat) :
    Separated blockStart (List.replicate n Slot.zero) := by
  constructor
  · intro r hr live
    exact absurd (List.eq_of_mem_replicate hr ▸ zero_empty) live
  · intro i j r q _ hi _ live
    have hr : r ∈ List.replicate n Slot.zero := List.mem_of_getElem? hi
    exact absurd (List.eq_of_mem_replicate hr ▸ zero_empty) live

/-- Writing a slot keeps the table separated if the new content is apart from
every other live slot. -/
lemma separated_set {blockStart : Nat} {ranges : List Slot} (sep : Separated blockStart ranges)
    (i : Nat) (slot : Slot)
    (inside : ¬ slot.Empty → blockStart ≤ slot.start.toNat ∧ slot.start < slot.stop ∧
      slot.stop.toNat ≤ blockStart + 4096)
    (apart : ∀ (j : Nat) (q : Slot), j ≠ i → ranges[j]? = some q → ¬ q.Empty → ¬ slot.Empty →
      Apart slot q) :
    Separated blockStart (ranges.set i slot) := by
  constructor
  · intro r hr live
    rcases List.mem_or_eq_of_mem_set hr with old | rfl
    · exact sep.inside r old live
    · exact inside live
  · intro j k r q hjk hj hk liver liveq
    rw [List.getElem?_set] at hj hk
    by_cases hij : i = j
    · subst i
      have hlt : j < ranges.length := by by_contra h; simp [h] at hj
      have hr : slot = r := by simpa [hlt] using hj
      have hq : ranges[k]? = some q := by simpa [hjk] using hk
      exact hr ▸ apart k q (Ne.symm hjk) hq liveq (hr ▸ liver)
    · have hr : ranges[j]? = some r := by simpa [hij] using hj
      by_cases hik : i = k
      · subst i
        have hlt : k < ranges.length := by by_contra h; simp [h] at hk
        have hq : slot = q := by simpa [hlt] using hk
        exact hq ▸ (apart j r hjk hr liver (hq ▸ liveq)).symm
      · exact sep.apart j k r q hjk hr (by simpa [hik] using hk) liver liveq

lemma separated_clear {blockStart : Nat} {ranges : List Slot} (sep : Separated blockStart ranges)
    (i : Nat) : Separated blockStart (ranges.set i Slot.zero) :=
  separated_set sep i Slot.zero (fun live => absurd zero_empty live)
    (fun _ _ _ _ _ live => absurd zero_empty live)

/-- Claimed bytes that follow one another lie in a single slot, since slots never touch. -/
lemma claims_run {blockStart : Nat} {ranges : List Slot} (sep : Separated blockStart ranges)
    {a b : UInt32} {r : Slot} (hr : r ∈ ranges) (ha : Slot.Holds r a)
    (all : ∀ o, a ≤ o → o < b → Claims ranges o) : b ≤ r.stop := by
  by_contra hlt
  have hstop : r.stop < b := by grind
  obtain ⟨q, hq, hqs⟩ := all r.stop (by have := ha.2; grind) hstop
  obtain ⟨i, hi⟩ := List.getElem?_of_mem hr
  obtain ⟨j, hj⟩ := List.getElem?_of_mem hq
  have hij : i ≠ j := by
    rintro rfl
    have hrq : r = q := Option.some.inj (hi.symm.trans hj)
    have := hqs.2
    rw [← hrq] at this
    grind
  have hra := ha.1
  have hra' := ha.2
  have hq1 := hqs.1
  have hq2 := hqs.2
  rcases sep.apart i j r q hij hi hj (holds_not_empty ha) (holds_not_empty hqs) with h | h <;> grind

lemma later_clear {found : Scan} (h : found.later = .clear) : found = .clear := by
  cases found <;> simp [Scan.later] at h ⊢

lemma scan_clear {s e : UInt32} {ranges : List Slot} (h : scan s e ranges = .clear) :
    ∀ r ∈ ranges, ¬ r.Empty → ¬ r.Touches s e ∧ ¬ r.Includes s e := by
  induction ranges with
  | nil => simp
  | cons r rest ih =>
    rw [scan] at h
    split at h
    · rename_i hempty
      intro q hq live
      rcases List.mem_cons.mp hq with rfl | hq
      · exact absurd hempty live
      · exact ih (later_clear h) q hq live
    · split at h
      · cases h
      · split at h
        · cases h
        · rename_i htouch hincl
          intro q hq live
          rcases List.mem_cons.mp hq with rfl | hq
          · exact ⟨htouch, hincl⟩
          · exact ih (later_clear h) q hq live

lemma scan_hasUnion {s e : UInt32} {ranges : List Slot} {i : Nat}
    (h : scan s e ranges = .hasUnion i) :
    ∃ r, ranges[i]? = some r ∧ ¬ r.Empty ∧ r.Touches s e := by
  induction ranges generalizing i with
  | nil => cases h
  | cons r rest ih =>
    have deeper : (scan s e rest).later = .hasUnion i →
        ∃ q, (r :: rest)[i]? = some q ∧ ¬ q.Empty ∧ q.Touches s e := by
      intro hl
      cases hs : scan s e rest with
      | clear => simp [hs, Scan.later] at hl
      | isSubset => simp [hs, Scan.later] at hl
      | hasUnion j =>
        have hij : j + 1 = i := by simpa [hs, Scan.later] using hl
        subst i
        simpa using ih hs
    rw [scan] at h
    split at h
    · exact deeper h
    · split at h
      · rename_i hempty htouch
        cases h
        exact ⟨r, rfl, hempty, htouch⟩
      · split at h
        · cases h
        · exact deeper h

lemma scan_isSubset {s e : UInt32} {ranges : List Slot} (h : scan s e ranges = .isSubset) :
    ∃ r ∈ ranges, ¬ r.Empty ∧ r.Includes s e := by
  induction ranges with
  | nil => cases h
  | cons r rest ih =>
    have deeper : (scan s e rest).later = .isSubset →
        ∃ q ∈ r :: rest, ¬ q.Empty ∧ q.Includes s e := by
      intro hl
      cases hs : scan s e rest with
      | clear => simp [hs, Scan.later] at hl
      | hasUnion j => simp [hs, Scan.later] at hl
      | isSubset =>
        obtain ⟨q, hq, rest⟩ := ih hs
        exact ⟨q, List.mem_cons_of_mem r hq, rest⟩
    rw [scan] at h
    split at h
    · exact deeper h
    · split at h
      · cases h
      · split at h
        · rename_i hempty _ hincl
          exact ⟨r, List.mem_cons_self, hempty, hincl⟩
        · exact deeper h

lemma claims_set_of_claims {ranges : List Slot} {i : Nat} {slot : Slot} {o : UInt32}
    (h : Claims (ranges.set i slot) o) : Slot.Holds slot o ∨ Claims ranges o := by
  obtain ⟨r, hr, ho⟩ := h
  rcases List.mem_or_eq_of_mem_set hr with old | rfl
  · exact Or.inr ⟨r, old, ho⟩
  · exact Or.inl ho

lemma claims_clear {ranges : List Slot} {i : Nat} {r : Slot} (hi : ranges[i]? = some r)
    (o : UInt32) : Claims ranges o ↔ Slot.Holds r o ∨ Claims (ranges.set i Slot.zero) o := by
  constructor
  · rintro ⟨q, hq, ho⟩
    obtain ⟨j, hj⟩ := List.getElem?_of_mem hq
    by_cases hij : i = j
    · subst j
      exact Or.inl (Option.some.inj (hj.symm.trans hi) ▸ ho)
    · have hset : (ranges.set i Slot.zero)[j]? = some q := by
        rw [List.getElem?_set_ne hij]
        exact hj
      exact Or.inr ⟨q, List.mem_of_getElem? hset, ho⟩
  · rintro (ho | h)
    · exact ⟨r, List.mem_of_getElem? hi, ho⟩
    · rcases claims_set_of_claims h with ho | h
      · exact absurd zero_empty (holds_not_empty ho)
      · exact h

lemma claims_fill {ranges : List Slot} {i : Nat} {r slot : Slot} (hi : ranges[i]? = some r)
    (hempty : r.Empty) (o : UInt32) :
    Claims (ranges.set i slot) o ↔ Slot.Holds slot o ∨ Claims ranges o := by
  constructor
  · exact claims_set_of_claims
  · have hlt : i < ranges.length := (List.getElem?_eq_some_iff.mp hi).1
    rintro (ho | ⟨q, hq, ho⟩)
    · exact ⟨slot, List.mem_iff_getElem?.mpr ⟨i, by simp [hlt]⟩, ho⟩
    · obtain ⟨j, hj⟩ := List.getElem?_of_mem hq
      have hij : i ≠ j := by
        rintro rfl
        have hrq : r = q := Option.some.inj (hi.symm.trans hj)
        exact holds_not_empty ho (hrq ▸ hempty)
      have hset : (ranges.set i slot)[j]? = some q := by
        rw [List.getElem?_set_ne hij]
        exact hj
      exact ⟨q, List.mem_of_getElem? hset, ho⟩

/-- The bytes claimed by the table together with the range being merged. -/
def Merging.Claims (m : Merging) (o : UInt32) : Prop :=
  (m.newRangeStart ≤ o ∧ o < m.newRangeEnd) ∨ SlotTables.Claims m.ranges o

structure Merging.Valid (blockStart : Nat) (m : Merging) : Prop where
  table : Separated blockStart m.ranges
  lower : blockStart ≤ m.newRangeStart.toNat
  proper : m.newRangeStart < m.newRangeEnd
  upper : m.newRangeEnd.toNat ≤ blockStart + 4096

/-- A slot that touches the range grows it by exactly its own bytes. -/
lemma union_holds {s e : UInt32} {r : Slot} (hr : r.start < r.stop)
    (touch : r.Touches s e) (o : UInt32) :
    (imin s r.start ≤ o ∧ o < imax e r.stop) ↔ (s ≤ o ∧ o < e) ∨ Slot.Holds r o := by
  unfold imin imax Slot.Holds
  rcases touch with ⟨h1, h2⟩ | ⟨h1, h2⟩ <;> split <;> split <;> grind

def live (ranges : List Slot) : Nat := ranges.countP fun r => decide ¬ r.Empty

lemma live_clear {ranges : List Slot} {i : Nat} {r : Slot} (hi : ranges[i]? = some r)
    (hlive : ¬ r.Empty) : live (ranges.set i Slot.zero) < live ranges := by
  obtain ⟨hlt, hget⟩ := List.getElem?_eq_some_iff.mp hi
  have hcount := List.countP_set (p := fun r : Slot => decide ¬ r.Empty) (a := Slot.zero) hlt
  have hzero : ¬ (decide ¬ Slot.zero.Empty) = true := by simp [zero_empty]
  have hmem : 0 < ranges.countP fun r => decide ¬ r.Empty :=
    List.countP_pos_iff.mpr ⟨r, List.mem_of_getElem? hi, by simpa using hlive⟩
  rw [hget] at hcount
  simp only [hlive, not_false_eq_true, decide_true, if_true, hzero, Bool.false_eq_true, if_false] at hcount
  unfold live
  omega

lemma mergePass_again {blockStart : Nat} {m t : Merging} (valid : Merging.Valid blockStart m)
    (h : mergePass m = .again t) :
    Merging.Valid blockStart t ∧ (∀ o, Merging.Claims t o ↔ Merging.Claims m o) ∧
      live t.ranges < live m.ranges := by
  rw [mergePass] at h
  split at h
  · cases h
  · cases h
  · rename_i i hscan
    obtain ⟨r, hi, hlive, touch⟩ := scan_hasUnion hscan
    have hget : m.ranges.getD i Slot.zero = r := by simp [List.getD, hi]
    have hin := valid.table.inside r (List.mem_of_getElem? hi) hlive
    simp only [hget] at h
    cases h
    refine ⟨⟨separated_clear valid.table i, ?_, ?_, ?_⟩, ?_, live_clear hi hlive⟩
    · have := valid.lower
      simp only [toNat_imin]
      omega
    · have := valid.proper
      have := hin.2.1
      simp only [UInt32.lt_iff_toNat_lt] at *
      simp only [toNat_imin, toNat_imax]
      omega
    · have := valid.upper
      simp only [toNat_imax]
      omega
    · intro o
      unfold Merging.Claims
      rw [union_holds hin.2.1 touch, claims_clear hi o]
      tauto

/-- The merge loop returns on every separated table. It leaves with a range that
is apart from all live slots, or with one that a slot already includes. -/
theorem mergeRanges_spec {blockStart : Nat} {m : Merging} (valid : Merging.Valid blockStart m) :
    ∃ subset t, mergeRanges m = some (subset, t) ∧ Merging.Valid blockStart t ∧
      (∀ o, Merging.Claims t o ↔ Merging.Claims m o) ∧
      scan t.newRangeStart t.newRangeEnd t.ranges = (if subset then .isSubset else .clear) := by
  have total : ∃ r, mergeRanges m = some r ∧ (Merging.Valid blockStart r.2 ∧
      (∀ o, Merging.Claims r.2 o ↔ Merging.Claims m o) ∧
      scan r.2.newRangeStart r.2.newRangeEnd r.2.ranges = (if r.1 then .isSubset else .clear)) := by
    refine loop_total
      (fun t => Merging.Valid blockStart t ∧ ∀ o, Merging.Claims t o ↔ Merging.Claims m o) _
      (fun t => live t.ranges) ?_ ?_ ⟨valid, fun _ => Iff.rfl⟩
      (Nat.lt_succ_of_le List.countP_le_length)
    · intro t u ht hu
      obtain ⟨hvalid, hclaims, hlive⟩ := mergePass_again ht.1 hu
      exact ⟨⟨hvalid, fun o => (hclaims o).trans (ht.2 o)⟩, hlive⟩
    · intro t r ht hr
      rw [mergePass] at hr
      split at hr
      · rename_i hscan
        cases hr
        exact ⟨ht.1, ht.2, hscan⟩
      · rename_i hscan
        cases hr
        exact ⟨ht.1, ht.2, hscan⟩
      · cases hr
  obtain ⟨r, hr, hpost⟩ := total
  exact ⟨r.1, r.2, hr, hpost⟩

/-- A range that neither touches nor lies in a slot is apart from it. -/
lemma apart_of_clear {s e : UInt32} {q : Slot}
    (clear : ¬ q.Touches s e ∧ ¬ q.Includes s e) : Apart ⟨s, e⟩ q := by
  obtain ⟨touch, incl⟩ := clear
  simp only [Slot.Touches, Slot.Includes, Apart] at *
  grind

lemma includes_holds {s e : UInt32} {r : Slot} (incl : r.Includes s e) {o : UInt32}
    (ho : s ≤ o ∧ o < e) : Slot.Holds r o := by
  have h1 := incl.1
  have h2 := incl.2
  have h3 := ho.1
  have h4 := ho.2
  constructor <;> grind

/-- Claiming a range keeps the table separated. Unless the table was full it then
claims the range and whatever it claimed before, and nothing else. -/
theorem claimRange_spec {blockStart : Nat} {ranges : List Slot} (lastPos : UInt32)
    {s e : UInt32} (sep : Separated blockStart ranges) (lower : blockStart ≤ s.toNat)
    (proper : s < e) (upper : e.toNat ≤ blockStart + 4096) :
    Separated blockStart (claimRange ranges lastPos s e).2.1 ∧
      ((claimRange ranges lastPos s e).1 = false →
        ∀ o, Claims (claimRange ranges lastPos s e).2.1 o ↔ (s ≤ o ∧ o < e) ∨ Claims ranges o) := by
  obtain ⟨subset, t, hmerge, valid, hclaims, hscan⟩ :=
    mergeRanges_spec (m := ⟨s, e, ranges⟩) ⟨sep, lower, proper, upper⟩
  cases subset with
  | true =>
    obtain ⟨r, hr, _, incl⟩ := scan_isSubset hscan
    simp only [claimRange, hmerge]
    refine ⟨valid.table, fun _ o => (Iff.trans ?_ (hclaims o))⟩
    constructor
    · exact Or.inr
    · rintro (ho | h)
      · exact ⟨r, hr, includes_holds incl ho⟩
      · exact h
  | false =>
    have clear := scan_clear hscan
    have hslot : ∀ (i : Nat), Separated blockStart (t.ranges.set i ⟨t.newRangeStart, t.newRangeEnd⟩) :=
      fun i => separated_set valid.table i _ (fun _ => ⟨valid.lower, valid.proper, valid.upper⟩)
        (fun j q _ hq hlive _ => apart_of_clear (clear q (List.mem_of_getElem? hq) hlive))
    simp only [claimRange, hmerge]
    split
    · rename_i i hfree
      obtain ⟨hlt, hempty, _⟩ := List.findIdx?_eq_some_iff_getElem.mp hfree
      have hget : t.ranges[i]? = some t.ranges[i] := List.getElem?_eq_getElem hlt
      refine ⟨hslot i, fun _ o => ?_⟩
      rw [claims_fill hget (of_decide_eq_true hempty) o]
      exact hclaims o
    · exact ⟨hslot _, fun h => by cases h⟩

/-- Every slot is live, and none touches or includes the range. -/
def Full (ranges : List Slot) (s e : UInt32) : Prop :=
  ∀ r ∈ ranges, ¬ r.Empty ∧ ¬ r.Touches s e ∧ ¬ r.Includes s e

instance (ranges : List Slot) (s e : UInt32) : Decidable (Full ranges s e) :=
  inferInstanceAs (Decidable (∀ r ∈ ranges, _))

lemma scan_full {ranges : List Slot} {s e : UInt32} (full : Full ranges s e) :
    scan s e ranges = .clear := by
  induction ranges with
  | nil => rfl
  | cons r rest ih =>
    obtain ⟨hlive, htouch, hincl⟩ := full r List.mem_cons_self
    have hrest := ih fun q hq => full q (List.mem_cons_of_mem r hq)
    simp only [scan, if_neg hlive, if_neg htouch, if_neg hincl, hrest, Scan.later]

/-- A merge leaves an emptied slot behind, so the table overflows without merging. -/
lemma mergeRanges_unmerged {m t : Merging} {subset : Bool} (h : mergeRanges m = some (subset, t)) :
    t = m ∨ ∃ r ∈ t.ranges, r.Empty := by
  refine loop_invariant (fun n : Merging => n = m ∨ ∃ r ∈ n.ranges, r.Empty)
    (fun r => r.2 = m ∨ ∃ q ∈ r.2.ranges, q.Empty) ?_ ?_ (Or.inl rfl) h
  · intro n u _ hb
    rw [mergePass] at hb
    split at hb
    · cases hb
    · cases hb
    · rename_i i hscan
      obtain ⟨r, hi, _⟩ := scan_hasUnion hscan
      have hlt := (List.getElem?_eq_some_iff.mp hi).1
      cases hb
      exact Or.inr ⟨Slot.zero, List.mem_iff_getElem?.mpr ⟨i, by simp [hlt]⟩, zero_empty⟩
  · intro n r hn hb
    rw [mergePass] at hb
    split at hb <;> cases hb <;> exact hn

/-- The exact condition for the early return of `Cache::insert`. -/
theorem claimRange_overflow_iff {blockStart : Nat} {ranges : List Slot} (lastPos : UInt32)
    {s e : UInt32} (sep : Separated blockStart ranges) (lower : blockStart ≤ s.toNat)
    (proper : s < e) (upper : e.toNat ≤ blockStart + 4096) :
    (claimRange ranges lastPos s e).1 = true ↔ Full ranges s e := by
  constructor
  · intro h
    obtain ⟨subset, t, hmerge, valid, _, hscan⟩ :=
      mergeRanges_spec (m := ⟨s, e, ranges⟩) ⟨sep, lower, proper, upper⟩
    cases subset with
    | true => simp [claimRange, hmerge] at h
    | false =>
      simp only [claimRange, hmerge] at h
      split at h
      · cases h
      · rename_i hfree
        have hlive : ∀ r ∈ t.ranges, ¬ r.Empty := by
          simpa using List.findIdx?_eq_none_iff.mp hfree
        rcases mergeRanges_unmerged hmerge with rfl | ⟨r, hr, hempty⟩
        · exact fun r hr => ⟨hlive r hr, scan_clear hscan r hr (hlive r hr)⟩
        · exact absurd hempty (hlive r hr)
  · intro full
    have hpass : mergePass ⟨s, e, ranges⟩ = .leave (false, ⟨s, e, ranges⟩) := by
      rw [mergePass, scan_full full]
    have hmerge : mergeRanges ⟨s, e, ranges⟩ = some (false, ⟨s, e, ranges⟩) :=
      loop_leave ranges.length hpass
    have hfree : (ranges.findIdx? fun r => decide r.Empty) = none :=
      List.findIdx?_eq_none_iff.mpr fun r hr => by simpa using (full r hr).1
    simp only [claimRange, hmerge, hfree]

end SlotTables
