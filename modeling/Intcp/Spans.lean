import Mathlib.Order.Interval.Set.Basic
import Mathlib.Order.MinMax
import Mathlib.Data.List.Pairwise

/-!
# Lists of half-open intervals

Spans over a linear order, read as the sets `[lo, hi)`. Cutting `[a, b)` out of
a span leaves at most two pieces; out of a list it removes exactly the points
of `[a, b)` and keeps the list in order.
-/

namespace Spans

universe u
variable {α : Type u} [LinearOrder α]

structure Span (α : Type u) where
  lo : α
  hi : α
  deriving DecidableEq

namespace Span

def points (i : Span α) : Set α := Set.Ico i.lo i.hi

def Proper (i : Span α) : Prop := i.lo < i.hi

instance (i : Span α) : Decidable i.Proper := inferInstanceAs (Decidable (_ < _))

/-- What is left of the span without `[a, b)`. -/
def minus (a b : α) (i : Span α) : List (Span α) :=
  [⟨i.lo, min i.hi a⟩, ⟨max i.lo b, i.hi⟩].filter fun j => decide j.Proper

end Span

/-- The union of the spans. -/
def cover (l : List (Span α)) : Set α := {x | ∃ i ∈ l, x ∈ i.points}

def minusAll (a b : α) (l : List (Span α)) : List (Span α) := l.flatMap (Span.minus a b)

/-- Non-empty spans, each behind the ones before it. -/
structure Ordered (l : List (Span α)) : Prop where
  proper : ∀ i ∈ l, i.Proper
  behind : l.Pairwise fun i j => i.hi ≤ j.lo

/-- Sorted by their starts, pairwise disjoint and non-empty. -/
structure Arranged (l : List (Span α)) : Prop where
  proper : ∀ i ∈ l, i.Proper
  sorted : l.Pairwise fun i j => i.lo ≤ j.lo
  disjoint : l.Pairwise fun i j => ∀ x ∈ i.points, x ∉ j.points

lemma behind_iff {i j : Span α} (proper : i.Proper) (proper' : j.Proper) :
    i.hi ≤ j.lo ↔ i.lo ≤ j.lo ∧ ∀ x ∈ i.points, x ∉ j.points := by
  constructor
  · intro behind
    refine ⟨(le_of_lt proper).trans behind, fun x here there => ?_⟩
    exact absurd (here.2.trans_le behind) (not_lt.mpr there.1)
  · rintro ⟨sorted, disjoint⟩
    by_contra overlap
    exact disjoint j.lo ⟨sorted, not_le.mp overlap⟩ ⟨le_rfl, proper'⟩

lemma arranged_iff {l : List (Span α)} : Arranged l ↔ Ordered l := by
  constructor
  · rintro ⟨proper, sorted, disjoint⟩
    refine ⟨proper, (sorted.and disjoint).imp_of_mem fun hi hj both => ?_⟩
    exact (behind_iff (proper _ hi) (proper _ hj)).mpr both
  · rintro ⟨proper, behind⟩
    have both := behind.imp_of_mem fun {i j} hi hj h =>
      (behind_iff (proper i hi) (proper j hj)).mp h
    exact ⟨proper, both.imp And.left, both.imp And.right⟩

lemma Ordered.tail {i : Span α} {l : List (Span α)} (ordered : Ordered (i :: l)) : Ordered l :=
  ⟨fun j h => ordered.proper j (List.mem_cons_of_mem i h), ordered.behind.of_cons⟩

@[simp] lemma cover_nil : cover ([] : List (Span α)) = ∅ := by
  ext x
  simp [cover]

@[simp] lemma cover_cons (i : Span α) (l : List (Span α)) : cover (i :: l) = i.points ∪ cover l := by
  ext x
  simp [cover]

@[simp] lemma cover_append (l m : List (Span α)) : cover (l ++ m) = cover l ∪ cover m := by
  induction l with
  | nil => simp
  | cons i l ih => simp [ih, Set.union_assoc]

lemma mem_minus {a b : α} {i j : Span α} :
    j ∈ i.minus a b ↔ j.Proper ∧ (j = ⟨i.lo, min i.hi a⟩ ∨ j = ⟨max i.lo b, i.hi⟩) := by
  simp [Span.minus, and_comm]

section Cases
variable {a b : α} {i : Span α}

lemma minus_eq_first (hfirst : i.lo < min i.hi a) (hsecond : i.hi ≤ max i.lo b) :
    i.minus a b = [⟨i.lo, min i.hi a⟩] := by
  simp [Span.minus, Span.Proper, hfirst, not_lt.mpr hsecond]

lemma minus_eq_second (hfirst : min i.hi a ≤ i.lo) (hsecond : max i.lo b < i.hi) :
    i.minus a b = [⟨max i.lo b, i.hi⟩] := by
  simp [Span.minus, Span.Proper, not_lt.mpr hfirst, hsecond]

lemma minus_before (proper : i.Proper) (ha : i.hi ≤ a) (hb : i.hi ≤ b) : i.minus a b = [i] := by
  rw [minus_eq_first, min_eq_left ha]
  · rwa [min_eq_left ha]
  · exact hb.trans (le_max_right _ _)

lemma minus_after (proper : i.Proper) (ha : a ≤ i.lo) (hb : b ≤ i.lo) : i.minus a b = [i] := by
  rw [minus_eq_second, max_eq_left hb]
  · exact (min_le_right _ _).trans ha
  · rwa [max_eq_left hb]

lemma minus_inside (ha : a ≤ i.lo) (hb : i.hi ≤ b) : i.minus a b = [] := by
  have hfirst : ¬ i.lo < min i.hi a := not_lt.mpr ((min_le_right _ _).trans ha)
  have hsecond : ¬ max i.lo b < i.hi := not_lt.mpr (hb.trans (le_max_right _ _))
  simp only [Span.minus, Span.Proper, List.filter_cons, hfirst, hsecond, decide_false,
    List.filter_nil]
  rfl

lemma minus_head (hlo : i.lo < a) (hhi : a ≤ i.hi) (hb : i.hi ≤ b) :
    i.minus a b = [⟨i.lo, a⟩] := by
  rw [minus_eq_first, min_eq_right hhi]
  · rwa [min_eq_right hhi]
  · exact hb.trans (le_max_right _ _)

lemma minus_tail (ha : a ≤ i.lo) (hlo : i.lo ≤ b) (hhi : b < i.hi) :
    i.minus a b = [⟨b, i.hi⟩] := by
  rw [minus_eq_second, max_eq_right hlo]
  · exact (min_le_right _ _).trans ha
  · rwa [max_eq_right hlo]

lemma minus_split (hlo : i.lo < a) (hab : a ≤ b) (hhi : b < i.hi) :
    i.minus a b = [⟨i.lo, a⟩, ⟨b, i.hi⟩] := by
  have ha : min i.hi a = a := min_eq_right (hab.trans hhi.le)
  have hb : max i.lo b = b := max_eq_right (hlo.le.trans hab)
  simp [Span.minus, Span.Proper, ha, hb, hlo, hhi]

end Cases

/-- Cutting removes the points of the cut and no others. -/
theorem cover_minus (a b : α) (i : Span α) :
    cover (i.minus a b) = i.points \ Set.Ico a b := by
  ext x
  simp only [cover, Set.mem_ofPred_eq, mem_minus, Set.mem_sdiff, Span.points, Set.mem_Ico, not_and,
    not_lt]
  constructor
  · rintro ⟨j, ⟨_, rfl | rfl⟩, hlo, hhi⟩
    · have hcut := lt_min_iff.mp hhi
      exact ⟨⟨hlo, hcut.1⟩, fun h => absurd hcut.2 (not_lt.mpr h)⟩
    · have hcut := max_le_iff.mp hlo
      exact ⟨⟨hcut.1, hhi⟩, fun _ => hcut.2⟩
  · rintro ⟨⟨hlo, hhi⟩, hout⟩
    rcases lt_or_ge x a with hxa | hax
    · exact ⟨⟨i.lo, min i.hi a⟩, ⟨lt_of_le_of_lt hlo (lt_min hhi hxa), Or.inl rfl⟩, hlo,
        lt_min hhi hxa⟩
    · have hbx := hout hax
      exact ⟨⟨max i.lo b, i.hi⟩, ⟨lt_of_le_of_lt (max_le hlo hbx) hhi, Or.inr rfl⟩,
        max_le hlo hbx, hhi⟩

theorem cover_minusAll (a b : α) (l : List (Span α)) :
    cover (minusAll a b l) = cover l \ Set.Ico a b := by
  induction l with
  | nil => simp [minusAll]
  | cons i l ih =>
    rw [minusAll, List.flatMap_cons, cover_append, cover_minus, cover_cons,
      Set.union_sdiff_distrib]
    exact congrArg _ ih

/-- Every piece lies in a span of the list. -/
lemma within_of_mem_minusAll {a b : α} {l : List (Span α)} {j : Span α}
    (h : j ∈ minusAll a b l) : j.Proper ∧ ∃ i ∈ l, i.lo ≤ j.lo ∧ j.hi ≤ i.hi := by
  obtain ⟨i, hi, hj⟩ := List.mem_flatMap.mp h
  obtain ⟨hproper, rfl | rfl⟩ := mem_minus.mp hj
  · exact ⟨hproper, i, hi, le_refl _, min_le_left _ _⟩
  · exact ⟨hproper, i, hi, le_max_left _ _, le_refl _⟩

lemma minus_behind {a b : α} (hab : a ≤ b) (i : Span α) :
    (i.minus a b).Pairwise fun j k => j.hi ≤ k.lo := by
  refine List.Pairwise.filter _ (List.pairwise_pair.mpr ?_)
  exact (min_le_right _ _).trans (hab.trans (le_max_right _ _))

theorem ordered_minusAll {a b : α} (hab : a ≤ b) {l : List (Span α)} (ordered : Ordered l) :
    Ordered (minusAll a b l) := by
  refine ⟨fun j hj => (within_of_mem_minusAll hj).1, ?_⟩
  rw [minusAll, List.pairwise_flatMap]
  refine ⟨fun i _ => minus_behind hab i, ordered.behind.imp ?_⟩
  intro i k hik x hx y hy
  obtain ⟨_, rfl | rfl⟩ := mem_minus.mp hx <;> obtain ⟨_, rfl | rfl⟩ := mem_minus.mp hy
  · exact (min_le_left _ _).trans hik
  · exact (min_le_left _ _).trans (hik.trans (le_max_left _ _))
  · exact hik
  · exact hik.trans (le_max_left _ _)

/-- Spans behind the cut stay as they are. -/
theorem minusAll_behind {a b : α} {l : List (Span α)} (ordered : Ordered l)
    (behind : ∀ i ∈ l, a ≤ i.lo ∧ b ≤ i.lo) : minusAll a b l = l := by
  induction l with
  | nil => rfl
  | cons i l ih =>
    obtain ⟨ha, hb⟩ := behind i List.mem_cons_self
    rw [minusAll, List.flatMap_cons, minus_after (ordered.proper i List.mem_cons_self) ha hb]
    exact congrArg _ (ih ordered.tail fun j hj => behind j (List.mem_cons_of_mem i hj))

end Spans
