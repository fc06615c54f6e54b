import Intcp.Spans

/-!
# Labelled spans

A list of items over spans, each with a label, gives the points that it covers their
labels. A pass over the list rewrites in place the items which meet `[a, b)` and stops
at the first one behind it; what it does to the labels follows from what it makes of a
single item.
-/

namespace LabelledSpans

open Spans

universe u v w

variable {α : Type u} [LinearOrder α] {ι : Type v} {β : Type w}
  (span : ι → Span α) (label : ι → β)

/-- The label of a point. -/
def labelAt : List ι → α → Option β
  | [], _ => none
  | i :: l, x => if (span i).lo ≤ x ∧ x < (span i).hi then some (label i) else labelAt l x

variable {span label}

lemma labelAt_append (l m : List ι) (x : α) :
    labelAt span label (l ++ m) x = (labelAt span label l x).or (labelAt span label m x) := by
  induction l with
  | nil => rfl
  | cons i l ih =>
    rw [List.cons_append, labelAt, labelAt, ih]
    split <;> rfl

lemma labelAt_cons (i : ι) (l : List ι) (x : α) :
    labelAt span label (i :: l) x =
      (labelAt span label [i] x).or (labelAt span label l x) :=
  labelAt_append [i] l x

lemma labelAt_outside {i : ι} {x : α} (outside : x < (span i).lo ∨ (span i).hi ≤ x) :
    labelAt span label [i] x = none := by
  have apart : ¬ ((span i).lo ≤ x ∧ x < (span i).hi) := fun here =>
    outside.elim (not_lt.mpr here.1) (not_le.mpr here.2)
  rw [labelAt, if_neg apart, labelAt]

lemma labelAt_eq_none {l : List ι} {x : α}
    (outside : ∀ i ∈ l, x < (span i).lo ∨ (span i).hi ≤ x) : labelAt span label l x = none := by
  induction l with
  | nil => rfl
  | cons i l ih =>
    rw [labelAt_cons, labelAt_outside (outside i List.mem_cons_self), Option.none_or]
    exact ih fun j h => outside j (List.mem_cons_of_mem i h)

variable (label) in
lemma isSome_labelAt {l : List ι} {x : α} :
    (labelAt span label l x).isSome ↔ x ∈ cover (l.map span) := by
  induction l with
  | nil => simp [labelAt]
  | cons i l ih =>
    rw [List.map_cons, cover_cons, Set.mem_union, ← ih, labelAt, Span.points, Set.mem_Ico]
    split
    · rename_i here
      simp [here]
    · rename_i apart
      simp [apart]

/-- A covered point has the label of the one item that it lies in. -/
lemma labelAt_eq_some {l : List ι} (ordered : Ordered (l.map span)) {x : α} {t : β} :
    labelAt span label l x = some t ↔ ∃ i ∈ l, x ∈ (span i).points ∧ label i = t := by
  induction l with
  | nil => simp [labelAt]
  | cons i l ih =>
    have behind := (List.pairwise_cons.mp ordered.behind).1
    rw [labelAt]
    split
    · rename_i here
      constructor
      · intro same
        exact ⟨i, List.mem_cons_self, here, Option.some.inj same⟩
      · rintro ⟨j, listed, there, rfl⟩
        obtain rfl | later := List.mem_cons.mp listed
        · rfl
        · have after := behind _ (List.mem_map_of_mem later)
          exact absurd (here.2.trans_le after) (not_lt.mpr there.1)
    · rename_i apart
      rw [ih ordered.tail]
      simp only [List.mem_cons, exists_eq_or_imp]
      exact (or_iff_right fun here => apart here.1).symm

variable (span) in
/-- A pass over the items that meet `[a, b)`, the `n`-th of which becomes `pieces n`. -/
def revise (a b : α) (pieces : Nat → ι → List ι) : Nat → List ι → Nat × List ι
  | n, [] => (n, [])
  | n, i :: rest =>
    if b ≤ (span i).lo then (n, i :: rest)
    else if (span i).hi ≤ a then
      let later := revise a b pieces n rest
      (later.1, i :: later.2)
    else
      let later := revise a b pieces (n + 1) rest
      (later.1, pieces n i ++ later.2)

variable (span) in
/-- A non-empty item with a point of `[a, b)` in it. -/
def Meets (a b : α) (i : ι) : Prop := (span i).Proper ∧ (span i).lo < b ∧ a < (span i).hi

variable (span label) in
/-- What may stand for an item that meets `[a, b)`: pieces of it which have its label outside
`[a, b)`, and inside what the label becomes, or which leave the point out. -/
structure Revises (a b : α) (becomes : Nat → β → Option β) (pieces : Nat → ι → List ι) :
    Prop where
  ordered : ∀ n i, Meets span a b i → Ordered ((pieces n i).map span)
  within : ∀ n i, Meets span a b i → ∀ j ∈ pieces n i,
    (span i).lo ≤ (span j).lo ∧ (span j).hi ≤ (span i).hi
  outside : ∀ n i, Meets span a b i → ∀ x, ¬ (a ≤ x ∧ x < b) →
    labelAt span label (pieces n i) x = labelAt span label [i] x
  inside : ∀ n i, Meets span a b i → ∀ x, a ≤ x ∧ x < b →
    labelAt span label (pieces n i) x = (labelAt span label [i] x).bind (becomes n)

section Rules

variable {a b : α} {becomes : Nat → β → Option β} {pieces : Nat → ι → List ι}

lemma revise_behind {i : ι} (behind : b ≤ (span i).lo) (n : Nat) (rest : List ι) :
    revise span a b pieces n (i :: rest) = (n, i :: rest) := by
  rw [revise, if_pos behind]

lemma revise_ahead {i : ι} (before : ¬ b ≤ (span i).lo) (ahead : (span i).hi ≤ a) (n : Nat)
    (rest : List ι) : revise span a b pieces n (i :: rest) =
      ((revise span a b pieces n rest).1, i :: (revise span a b pieces n rest).2) := by
  rw [revise, if_neg before, if_pos ahead]

lemma revise_meets {i : ι} (before : ¬ b ≤ (span i).lo) (after : ¬ (span i).hi ≤ a) (n : Nat)
    (rest : List ι) : revise span a b pieces n (i :: rest) =
      ((revise span a b pieces (n + 1) rest).1,
        pieces n i ++ (revise span a b pieces (n + 1) rest).2) := by
  rw [revise, if_neg before, if_neg after]

lemma le_revise (n : Nat) (l : List ι) : n ≤ (revise span a b pieces n l).1 := by
  induction l generalizing n with
  | nil => exact le_rfl
  | cons i l ih =>
    rw [revise]
    split
    · exact le_rfl
    · split
      · exact ih n
      · exact (Nat.le_succ n).trans (ih (n + 1))

variable (revises : Revises span label a b becomes pieces)

include revises

/-- What comes out of a pass lies in an item that went in. -/
lemma within_of_mem_revise {n : Nat} {l : List ι} (proper : ∀ i ∈ l, (span i).Proper) {j : ι}
    (listed : j ∈ (revise span a b pieces n l).2) :
    ∃ i ∈ l, (span i).lo ≤ (span j).lo ∧ (span j).hi ≤ (span i).hi := by
  induction l generalizing n with
  | nil => cases listed
  | cons i l ih =>
    have rest {n : Nat} (later : j ∈ (revise span a b pieces n l).2) :
        ∃ k ∈ i :: l, (span k).lo ≤ (span j).lo ∧ (span j).hi ≤ (span k).hi := by
      obtain ⟨k, old, within⟩ := ih (fun k h => proper k (List.mem_cons_of_mem i h)) later
      exact ⟨k, List.mem_cons_of_mem i old, within⟩
    rw [revise] at listed
    split at listed
    · exact ⟨j, listed, le_rfl, le_rfl⟩
    · rename_i before
      split at listed
      · obtain rfl | later := List.mem_cons.mp listed
        · exact ⟨j, List.mem_cons_self, le_rfl, le_rfl⟩
        · exact rest later
      · rename_i after
        have meets : Meets span a b i :=
          ⟨proper i List.mem_cons_self, not_le.mp before, not_le.mp after⟩
        obtain piece | later := List.mem_append.mp listed
        · exact ⟨i, List.mem_cons_self, revises.within n i meets j piece⟩
        · exact rest later

theorem ordered_revise {n : Nat} {l : List ι} (ordered : Ordered (l.map span)) :
    Ordered ((revise span a b pieces n l).2.map span) := by
  induction l generalizing n with
  | nil => exact ordered
  | cons i l ih =>
    have proper : ∀ k ∈ l, (span k).Proper := fun k h =>
      ordered.tail.proper _ (List.mem_map_of_mem h)
    have behind : ∀ {n : Nat}, ∀ j ∈ (revise span a b pieces n l).2.map span,
        (span i).hi ≤ j.lo := by
      intro n _ listed
      obtain ⟨j, revised, rfl⟩ := List.mem_map.mp listed
      obtain ⟨k, old, within, -⟩ := within_of_mem_revise revises proper revised
      exact ((List.pairwise_cons.mp ordered.behind).1 _ (List.mem_map_of_mem old)).trans within
    rw [revise]
    split
    · exact ordered
    · rename_i before
      split
      · refine ⟨List.forall_mem_cons.mpr ⟨ordered.proper _ List.mem_cons_self, ?_⟩, ?_⟩
        · exact (ih ordered.tail).proper
        · exact List.pairwise_cons.mpr ⟨behind, (ih ordered.tail).behind⟩
      · rename_i after
        have meets : Meets span a b i :=
          ⟨ordered.proper _ List.mem_cons_self, not_le.mp before, not_le.mp after⟩
        have made := revises.ordered n i meets
        rw [List.map_append]
        refine ⟨List.forall_mem_append.mpr ⟨made.proper, (ih ordered.tail).proper⟩, ?_⟩
        refine List.pairwise_append.mpr ⟨made.behind, (ih ordered.tail).behind, ?_⟩
        intro _ made k later
        obtain ⟨j, piece, rfl⟩ := List.mem_map.mp made
        exact (revises.within n i meets j piece).2.trans (behind k later)

/-- A pass leaves the points outside `[a, b)` as they are. -/
theorem labelAt_revise_outside {n : Nat} {l : List ι} (proper : ∀ i ∈ l, (span i).Proper) {x : α}
    (outside : ¬ (a ≤ x ∧ x < b)) :
    labelAt span label (revise span a b pieces n l).2 x = labelAt span label l x := by
  induction l generalizing n with
  | nil => rfl
  | cons i l ih =>
    have rest {n : Nat} := @ih n fun k h => proper k (List.mem_cons_of_mem i h)
    rw [revise]
    split
    · rfl
    · rename_i before
      split
      · rw [labelAt_cons, rest, ← labelAt_cons]
      · rename_i after
        have meets : Meets span a b i :=
          ⟨proper i List.mem_cons_self, not_le.mp before, not_le.mp after⟩
        rw [labelAt_append, revises.outside n i meets x outside, rest, ← labelAt_cons]

/-- A pass changes the label of a point in `[a, b)` as the round of its item says. -/
theorem labelAt_revise_inside {n : Nat} {l : List ι} (ordered : Ordered (l.map span)) {x : α}
    (inside : a ≤ x ∧ x < b) :
    ∃ k, labelAt span label (revise span a b pieces n l).2 x =
        (labelAt span label l x).bind (becomes k) ∧
      ((labelAt span label l x).isSome → n ≤ k ∧ k < (revise span a b pieces n l).1) := by
  induction l generalizing n with
  | nil => exact ⟨n, rfl, nofun⟩
  | cons i l ih =>
    have behind := (List.pairwise_cons.mp ordered.behind).1
    rw [revise]
    split
    · rename_i before
      have outside : labelAt span label (i :: l) x = none := by
        refine labelAt_eq_none (List.forall_mem_cons.mpr ⟨?_, fun k listed => ?_⟩)
        · exact .inl (inside.2.trans_le before)
        · have started := (le_of_lt (ordered.proper _ List.mem_cons_self)).trans
            (behind _ (List.mem_map_of_mem listed))
          exact .inl (inside.2.trans_le (before.trans started))
      rw [outside]
      exact ⟨n, rfl, nofun⟩
    · rename_i before
      split
      · rename_i after
        obtain ⟨k, rest, range⟩ := @ih n ordered.tail
        refine ⟨k, ?_⟩
        rw [labelAt_cons, labelAt_cons i l, labelAt_outside (.inr (after.trans inside.1)),
          Option.none_or, Option.none_or]
        exact ⟨rest, range⟩
      · rename_i after
        have meets : Meets span a b i :=
          ⟨ordered.proper _ List.mem_cons_self, not_le.mp before, not_le.mp after⟩
        obtain ⟨k, rest, range⟩ := @ih (n + 1) ordered.tail
        rw [labelAt_append, revises.inside n i meets x inside, rest, labelAt_cons i l]
        by_cases here : (span i).lo ≤ x ∧ x < (span i).hi
        · -- what follows starts behind the item
          have outside : labelAt span label l x = none := labelAt_eq_none fun k listed =>
            .inl (here.2.trans_le (behind _ (List.mem_map_of_mem listed)))
          refine ⟨n, ?_, fun _ => ⟨le_rfl, le_revise (n + 1) l⟩⟩
          rw [outside, Option.bind_none, Option.or_none, Option.or_none]
        · have outside : labelAt span label [i] x = none := labelAt_outside
            ((not_and_or.mp here).imp not_le.mp not_lt.mp)
          refine ⟨k, ?_, fun found => ?_⟩
          · rw [outside, Option.bind_none, Option.none_or, Option.none_or]
          · rw [outside, Option.none_or] at found
            exact ⟨(Nat.le_succ n).trans (range found).1, (range found).2⟩

/-- Outside `[a, b)` a point lies in an item with the label that it had. -/
theorem mem_revise_outside {n : Nat} {l : List ι} (ordered : Ordered (l.map span)) {j : ι}
    (listed : j ∈ (revise span a b pieces n l).2) {x : α} (here : x ∈ (span j).points)
    (outside : ¬ (a ≤ x ∧ x < b)) : ∃ i ∈ l, x ∈ (span i).points ∧ label j = label i := by
  have proper : ∀ i ∈ l, (span i).Proper := fun i h => ordered.proper _ (List.mem_map_of_mem h)
  have labelled : labelAt span label (revise span a b pieces n l).2 x = some (label j) :=
    (labelAt_eq_some (ordered_revise revises ordered)).mpr ⟨j, listed, here, rfl⟩
  rw [labelAt_revise_outside revises proper outside, labelAt_eq_some ordered] at labelled
  obtain ⟨i, old, there, same⟩ := labelled
  exact ⟨i, old, there, same.symm⟩

/-- Inside `[a, b)` it lies in one with what its label became in a round of the pass. -/
theorem mem_revise_inside {n : Nat} {l : List ι} (ordered : Ordered (l.map span)) {j : ι}
    (listed : j ∈ (revise span a b pieces n l).2) {x : α} (here : x ∈ (span j).points)
    (inside : a ≤ x ∧ x < b) : ∃ i ∈ l, x ∈ (span i).points ∧
      ∃ k, n ≤ k ∧ k < (revise span a b pieces n l).1 ∧ becomes k (label i) = some (label j) := by
  have labelled : labelAt span label (revise span a b pieces n l).2 x = some (label j) :=
    (labelAt_eq_some (ordered_revise revises ordered)).mpr ⟨j, listed, here, rfl⟩
  obtain ⟨k, made, range⟩ := labelAt_revise_inside revises (n := n) ordered inside
  rw [made, Option.bind_eq_some_iff] at labelled
  obtain ⟨t, before, after⟩ := labelled
  obtain ⟨i, old, there, rfl⟩ := (labelAt_eq_some ordered).mp before
  obtain ⟨first, last⟩ := range (by rw [before]; rfl)
  exact ⟨i, old, there, k, first, last, after⟩

/-- A pass which drops every label in `[a, b)` takes the range out. -/
theorem cover_revise_sdiff {n : Nat} {l : List ι} (ordered : Ordered (l.map span))
    (gone : ∀ k t, becomes k t = none) :
    cover ((revise span a b pieces n l).2.map span) = cover (l.map span) \ Set.Ico a b := by
  have proper : ∀ i ∈ l, (span i).Proper := fun i h => ordered.proper _ (List.mem_map_of_mem h)
  ext x
  rw [← isSome_labelAt label, Set.mem_sdiff, ← isSome_labelAt label,
    Set.mem_Ico]
  by_cases inside : a ≤ x ∧ x < b
  · obtain ⟨k, made, -⟩ := labelAt_revise_inside revises (n := n) ordered inside
    have dropped : (labelAt span label l x).bind (becomes k) = none := by
      rw [Option.bind_eq_none_iff]
      exact fun t _ => gone k t
    simp [made, dropped, inside]
  · rw [labelAt_revise_outside revises proper inside]
    simp [inside]

/-- A pass which keeps a label on every point covers what was covered. -/
theorem cover_revise {n : Nat} {l : List ι} (ordered : Ordered (l.map span))
    (kept : ∀ k t, (becomes k t).isSome) :
    cover ((revise span a b pieces n l).2.map span) = cover (l.map span) := by
  have proper : ∀ i ∈ l, (span i).Proper := fun i h => ordered.proper _ (List.mem_map_of_mem h)
  ext x
  rw [← isSome_labelAt label, ← isSome_labelAt label]
  by_cases inside : a ≤ x ∧ x < b
  · obtain ⟨k, made, -⟩ := labelAt_revise_inside revises (n := n) ordered inside
    rw [made]
    cases labelAt span label l x with
    | none => rfl
    | some t => exact iff_of_true (kept k t) rfl
  · rw [labelAt_revise_outside revises proper inside]

end Rules

end LabelledSpans
