import Intcp.HoleInvariants
import Intcp.LabelledSpans

/-!
# Bytes and their labels

A hole list gives each missing byte the time and the count of its hole, an interest
buffer each requested byte the time and the send count of its interest.
`deleteDataHole` takes a range out of the one, and `updateIntBuf` gives the bytes of a
range the current time in the other. Both go over the list once and stop at the first
range behind.
-/

namespace ByteLabels

open BlockCache TransControl HoleTracking InterestPlane Spans HoleInvariants LabelledSpans

universe u
variable {F : Type u} {nameLen : Nat} {P : Platform F}

def age (hole : Hole) : UInt32 × Int32 := (hole.ts, hole.count)

/-- What is left of a hole that meets the range. -/
def cutHole (rangeStart rangeEnd : UInt32) (hole : Hole) : List Hole :=
  if hole.endByte ≤ rangeEnd then
    if hole.startByte ≥ rangeStart then [] else [{ hole with endByte := rangeStart }]
  else if hole.startByte ≥ rangeStart then [{ hole with startByte := rangeEnd }]
  else [{ hole with endByte := rangeStart }, { hole with startByte := rangeEnd }]

lemma cutHoles_eq (rangeStart rangeEnd : UInt32) (n : Nat) (holes : List Hole) :
    cutHoles rangeStart rangeEnd holes =
      (revise span rangeStart.toNat rangeEnd.toNat (fun _ => cutHole rangeStart rangeEnd)
        n holes).2 := by
  induction holes generalizing n with
  | nil => rfl
  | cons hole rest ih =>
    rw [cutHoles]
    simp only [ge_iff_le, UInt32.le_iff_toNat_le]
    by_cases behind : rangeEnd.toNat ≤ hole.startByte.toNat
    · rw [if_pos behind, revise_behind behind]
    · by_cases ahead : hole.endByte.toNat ≤ rangeStart.toNat
      · rw [if_neg behind, if_pos ahead, revise_ahead behind ahead, ← ih n]
      · rw [if_neg behind, if_neg ahead, revise_meets behind ahead, ← ih (n + 1), cutHole]
        simp only [ge_iff_le, UInt32.le_iff_toNat_le]
        split
        · split <;> rfl
        · split <;> rfl

lemma cutHole_revises {rangeStart rangeEnd : UInt32} (proper : rangeStart < rangeEnd) :
    Revises span age rangeStart.toNat rangeEnd.toNat (fun _ _ => none)
      (fun _ => cutHole rangeStart rangeEnd) := by
  rw [UInt32.lt_iff_toNat_lt] at proper
  constructor
  · rintro - hole ⟨whole, before, after⟩
    simp only [Span.Proper, span] at whole before after
    simp only [cutHole, ge_iff_le, UInt32.le_iff_toNat_le]
    constructor
    · split <;> split <;> simp [Span.Proper, span] <;> omega
    · split <;> split <;> simp [span]
      omega
  · rintro - hole ⟨whole, before, after⟩ piece
    simp only [Span.Proper, span] at whole before after ⊢
    simp only [cutHole, ge_iff_le, UInt32.le_iff_toNat_le]
    split <;> split <;> simp <;> grind
  · rintro - hole ⟨whole, before, after⟩ x outside
    simp only [Span.Proper, span] at whole before after
    simp only [cutHole, ge_iff_le, UInt32.le_iff_toNat_le]
    split <;> split <;> simp only [labelAt, span, age] <;> grind
  · rintro - hole ⟨whole, before, after⟩ x inside
    simp only [Span.Proper, span] at whole before after
    rw [Option.bind_fun_none]
    simp only [cutHole, ge_iff_le, UInt32.le_iff_toNat_le]
    split <;> split <;> simp only [labelAt, span, age] <;> grind

/-- `deleteDataHole` takes the range out of the holes: what is left is arranged as before, and
every byte of it keeps the time and the count of the hole it was in. -/
theorem deleteDataHole_difference {cb : IntcpTransCB F nameLen} {rangeStart rangeEnd : UInt32}
    (proper : rangeStart < rangeEnd) (arranged : Arranged (cb.dataHoles.map span)) :
    ∃ holes, deleteDataHole cb rangeStart rangeEnd = { cb with dataHoles := holes } ∧
      Arranged (holes.map span) ∧
      cover (holes.map span) =
        cover (cb.dataHoles.map span) \ Set.Ico rangeStart.toNat rangeEnd.toNat ∧
      ∀ hole ∈ holes, ∀ x ∈ (span hole).points, ∃ old ∈ cb.dataHoles,
        x ∈ (span old).points ∧ hole.ts = old.ts ∧ hole.count = old.count := by
  have ordered := arranged_iff.mp arranged
  have revises := cutHole_revises proper
  refine ⟨cutHoles rangeStart rangeEnd cb.dataHoles, rfl, ?_⟩
  rw [cutHoles_eq rangeStart rangeEnd 0]
  refine ⟨arranged_iff.mpr (ordered_revise revises ordered),
    cover_revise_sdiff revises ordered fun _ _ => rfl, fun hole left x here => ?_⟩
  by_cases inside : rangeStart.toNat ≤ x ∧ x < rangeEnd.toNat
  · obtain ⟨_, _, _, _, _, _, gone⟩ := mem_revise_inside revises ordered left here inside
    cases gone
  · obtain ⟨old, listed, there, same⟩ := mem_revise_outside revises ordered left here inside
    rw [age, age, Prod.mk.injEq] at same
    exact ⟨old, listed, there, same⟩

def twoHoles : IntcpTransCB Rat 1 :=
  { IntcpTransCB.create freeClock .midnode #v[115] (Cache.fresh fun _ _ => 0) with
    dataHoles := [⟨0, 10, 3, 0⟩, ⟨20, 30, 4, 0⟩] }

/-- A range from the middle of one hole to the middle of the next. -/
theorem deleteDataHole_across :
    cover ((deleteDataHole twoHoles 5 25).dataHoles.map span) =
      cover (twoHoles.dataHoles.map span) \ Set.Ico 5 25 := by
  have arranged : Arranged (twoHoles.dataHoles.map span) :=
    arranged_iff.mpr ⟨by decide, by decide⟩
  obtain ⟨holes, deleted, -, difference, -⟩ :=
    @deleteDataHole_difference _ _ twoHoles 5 25 (by decide) arranged
  rw [deleted]
  exact difference

def intSpan (seg : IntcpSeg) : Span Nat := ⟨seg.rangeStart.toNat, seg.rangeEnd.toNat⟩

def stamps (seg : IntcpSeg) : UInt32 × UInt32 := (seg.ts, seg.xmit)

/-- The pass reads the clock once for every interest that meets the range. -/
lemma splitInts_eq (rangeStart rangeEnd : UInt32) (cb : IntcpTransCB F nameLen)
    (segs : List IntcpSeg) :
    splitInts P rangeStart rangeEnd cb segs =
      let revised := revise intSpan rangeStart.toNat rangeEnd.toNat
        (fun n seg => splitInt seg rangeStart rangeEnd (P.clock n)) cb.reads segs
      ({ cb with reads := revised.1 }, revised.2) := by
  induction segs generalizing cb with
  | nil => rfl
  | cons seg rest ih =>
    rw [splitInts]
    simp only [ge_iff_le, UInt32.le_iff_toNat_le]
    by_cases behind : rangeEnd.toNat ≤ seg.rangeStart.toNat
    · rw [if_pos behind, revise_behind behind]
    · by_cases ahead : seg.rangeEnd.toNat ≤ rangeStart.toNat
      · rw [if_neg behind, if_pos ahead, revise_ahead behind ahead, ih cb]
      · rw [if_neg behind, if_neg ahead, revise_meets behind ahead, ih (tick cb)]
        rfl

lemma updateIntBuf_eq (rangeStart rangeEnd : UInt32) (cb : IntcpTransCB F nameLen) :
    updateIntBuf P cb rangeStart rangeEnd =
      let revised := revise intSpan rangeStart.toNat rangeEnd.toNat
        (fun n seg => splitInt seg rangeStart rangeEnd (P.clock n)) cb.reads cb.intBuf
      { cb with reads := revised.1, intBuf := revised.2 } := by
  rw [updateIntBuf, splitInts_eq]

lemma splitInt_revises {rangeStart rangeEnd : UInt32} (proper : rangeStart < rangeEnd) :
    Revises intSpan stamps rangeStart.toNat rangeEnd.toNat
      (fun n stamp => some (P.clock n, stamp.2))
      (fun n seg => splitInt seg rangeStart rangeEnd (P.clock n)) := by
  rw [UInt32.lt_iff_toNat_lt] at proper
  constructor
  · rintro n seg ⟨whole, before, after⟩
    simp only [Span.Proper, intSpan] at whole before after
    simp only [splitInt, ge_iff_le, UInt32.le_iff_toNat_le]
    constructor
    · split <;> split <;> simp [Span.Proper, intSpan] <;> omega
    · split <;> split <;> simp [intSpan]
      omega
  · rintro n seg ⟨whole, before, after⟩ piece
    simp only [Span.Proper, intSpan] at whole before after ⊢
    simp only [splitInt, ge_iff_le, UInt32.le_iff_toNat_le]
    split <;> split <;> simp <;> grind
  · rintro n seg ⟨whole, before, after⟩ x outside
    simp only [Span.Proper, intSpan] at whole before after
    simp only [splitInt, ge_iff_le, UInt32.le_iff_toNat_le]
    split <;> split <;> simp only [labelAt, intSpan, stamps] <;> grind
  · rintro n seg ⟨whole, before, after⟩ x inside
    simp only [Span.Proper, intSpan] at whole before after
    simp only [splitInt, ge_iff_le, UInt32.le_iff_toNat_le]
    split <;> split <;> simp only [labelAt, intSpan, stamps] <;> grind

/-- `updateIntBuf` gives exactly the bytes of the range a time which it reads, and changes
neither what is covered nor how often it was sent. -/
theorem updateIntBuf_refreshes {cb : IntcpTransCB F nameLen} {rangeStart rangeEnd : UInt32}
    (proper : rangeStart < rangeEnd) (arranged : Arranged (cb.intBuf.map intSpan)) :
    ∃ reads segs, updateIntBuf P cb rangeStart rangeEnd =
        { cb with reads := reads, intBuf := segs } ∧
      Arranged (segs.map intSpan) ∧
      cover (segs.map intSpan) = cover (cb.intBuf.map intSpan) ∧
      ∀ seg ∈ segs, ∀ x ∈ (intSpan seg).points, ∃ old ∈ cb.intBuf,
        x ∈ (intSpan old).points ∧ seg.xmit = old.xmit ∧
        (x ∈ Set.Ico rangeStart.toNat rangeEnd.toNat →
          ∃ k, cb.reads ≤ k ∧ k < reads ∧ seg.ts = P.clock k) ∧
        (x ∉ Set.Ico rangeStart.toNat rangeEnd.toNat → seg.ts = old.ts) := by
  have ordered := arranged_iff.mp arranged
  have revises := splitInt_revises (P := P) proper
  refine ⟨_, _, updateIntBuf_eq rangeStart rangeEnd cb,
    arranged_iff.mpr (ordered_revise revises ordered),
    cover_revise revises ordered fun _ _ => rfl, fun seg made x here => ?_⟩
  by_cases inside : rangeStart.toNat ≤ x ∧ x < rangeEnd.toNat
  · obtain ⟨old, listed, there, k, first, last, became⟩ :=
      mem_revise_inside revises ordered made here inside
    rw [stamps, stamps, Option.some.injEq, Prod.mk.injEq] at became
    exact ⟨old, listed, there, became.2.symm, fun _ => ⟨k, first, last, became.1.symm⟩,
      absurd inside⟩
  · obtain ⟨old, listed, there, same⟩ := mem_revise_outside revises ordered made here inside
    rw [stamps, stamps, Prod.mk.injEq] at same
    exact ⟨old, listed, there, same.2, fun within => absurd within inside, fun _ => same.1⟩

def threeInterests : IntcpTransCB Rat 1 :=
  { IntcpTransCB.create freeClock .requester #v[115] (Cache.fresh fun _ _ => 0) with
    intBuf := [intSeg 0 10 3 0 2 0, intSeg 15 30 4 0 1 0, intSeg 40 50 5 0 3 0] }

/-- A range that leaves the first interest alone, cuts the other two and covers what is between. -/
theorem updateIntBuf_middle :
    cover ((updateIntBuf freeClock threeInterests 20 45).intBuf.map intSpan) =
        cover [⟨0, 10⟩, ⟨15, 30⟩, ⟨40, 50⟩] ∧
      ∀ seg ∈ (updateIntBuf freeClock threeInterests 20 45).intBuf,
        ∀ x ∈ (intSpan seg).points,
          (x < 10 → seg.xmit = 2 ∧ seg.ts = 3) ∧
          (10 ≤ x → x < 40 → seg.xmit = 1 ∧ (x < 20 → seg.ts = 4)) ∧
          (40 ≤ x → seg.xmit = 3 ∧ (45 ≤ x → seg.ts = 5)) := by
  have arranged : Arranged (threeInterests.intBuf.map intSpan) :=
    arranged_iff.mpr ⟨by decide, by decide⟩
  obtain ⟨reads, segs, updated, -, same, each⟩ :=
    @updateIntBuf_refreshes _ _ freeClock threeInterests 20 45 (by decide) arranged
  rw [updated]
  refine ⟨same, fun seg made x here => ?_⟩
  obtain ⟨old, listed, there, count, -, outside⟩ := each seg made x here
  have untouched : x < 20 ∨ 45 ≤ x → seg.ts = old.ts := by
    intro apart
    refine outside fun within => ?_
    have lower : 20 ≤ x := within.1
    have upper : x < 45 := within.2
    omega
  simp only [threeInterests, List.mem_cons, List.not_mem_nil, or_false] at listed
  rcases listed with rfl | rfl | rfl
  · obtain ⟨-, below⟩ : 0 ≤ x ∧ x < 10 := there
    exact ⟨fun _ => ⟨count, untouched (by omega)⟩, by omega, by omega⟩
  · obtain ⟨above, below⟩ : 15 ≤ x ∧ x < 30 := there
    exact ⟨by omega, fun _ _ => ⟨count, fun low => untouched (.inl low)⟩, by omega⟩
  · obtain ⟨above, below⟩ : 40 ≤ x ∧ x < 50 := there
    exact ⟨by omega, by omega, fun _ => ⟨count, fun high => untouched (.inr high)⟩⟩

end ByteLabels
