import Mathlib.Tactic.Lemma

/-!
# Relaying ranges past a receive cursor

A receiver keeps a cursor: a range that starts behind it leaves it, any other one
moves it to the end of the range. A range ahead of the cursor opens a gap, unless
the jump counts as `far`. A relay that announces each gap ahead of the range that
revealed it keeps the cursor of whoever follows it equal to its own, and no gap
opens there.
-/

namespace GapRelay

universe u
variable {α : Type u} [LT α] [DecidableLT α] (far : α → α → Prop) [DecidableRel far]

/-- The cursor behind a range. -/
def moved (c : α) (r : α × α) : α := if r.1 < c then c else r.2

/-- The range opens a gap. -/
def Opens (c : α) (r : α × α) : Prop := c < r.1 ∧ ¬ far c r.1

instance (c : α) (r : α × α) : Decidable (Opens far c r) := inferInstanceAs (Decidable (_ ∧ _))

/-- What is relayed of a range, with the cursor that each part stands for. -/
def relay (c : α) (r : α × α) : List ((α × α) × α) :=
  if Opens far c r then [((c, r.1), r.1), (r, moved c r)] else [(r, moved c r)]

def relayAll : α → List (α × α) → List ((α × α) × α)
  | _, [] => []
  | c, r :: rs => relay far c r ++ relayAll (moved c r) rs

/-- The cursors behind each of a list of ranges. -/
def trail : α → List (α × α) → List α
  | _, [] => []
  | c, r :: rs => moved c r :: trail (moved c r) rs

/-- None of the ranges opens a gap. -/
def Smooth : α → List (α × α) → Prop
  | _, [] => True
  | c, r :: rs => ¬ Opens far c r ∧ Smooth (moved c r) rs

/-- The cursor behind a list of ranges. -/
def movedAll (c : α) (rs : List (α × α)) : α := rs.foldl moved c

lemma relayAll_append (c : α) (rs more : List (α × α)) :
    relayAll far c (rs ++ more) = relayAll far c rs ++ relayAll far (movedAll c rs) more := by
  induction rs generalizing c with
  | nil => rfl
  | cons r rs ih =>
    have hrest := ih (moved c r)
    simp only [List.cons_append, relayAll, hrest, List.append_assoc]
    rfl

lemma trail_append (c : α) (rs more : List (α × α)) :
    trail c (rs ++ more) = trail c rs ++ trail (movedAll c rs) more := by
  induction rs generalizing c with
  | nil => rfl
  | cons r rs ih =>
    have hrest := ih (moved c r)
    simp only [List.cons_append, trail, hrest]
    rfl

omit [DecidableRel far] in
lemma smooth_append {c : α} {rs more : List (α × α)} :
    Smooth far c (rs ++ more) ↔ Smooth far c rs ∧ Smooth far (movedAll c rs) more := by
  induction rs generalizing c with
  | nil => simp [Smooth, movedAll]
  | cons r rs ih =>
    simp only [List.cons_append, Smooth, ih, and_assoc]
    rfl

section Follower

variable [Std.Asymm (fun a b : α => a < b)]

omit [DecidableLT α] in
lemma not_lt_self (c : α) : ¬ c < c :=
  fun h => Std.Asymm.asymm (r := fun a b : α => a < b) c c h h

/-- A range that starts at the cursor moves it. -/
lemma moved_self (c e : α) : moved c (c, e) = e := if_neg (not_lt_self c)

/-- A range that opens a gap moves the cursor as it would from its own start. -/
lemma moved_opens {far : α → α → Prop} {c : α} {r : α × α} (opens : Opens far c r) :
    moved c r = moved r.1 r := by
  have hback : ¬ r.1 < c := Std.Asymm.asymm (r := fun a b : α => a < b) _ _ opens.1
  rw [moved, moved, if_neg hback, if_neg (not_lt_self r.1)]

/-- A follower of a relay goes from cursor to cursor as the relay does. -/
theorem relayAll_trail (c : α) (rs : List (α × α)) :
    trail c ((relayAll far c rs).map Prod.fst) = (relayAll far c rs).map Prod.snd := by
  induction rs generalizing c with
  | nil => rfl
  | cons r rs ih =>
    have hrest := ih (moved c r)
    rw [relayAll, relay]
    by_cases hopens : Opens far c r
    · rw [moved_opens hopens] at hrest ⊢
      rw [if_pos hopens]
      simp only [List.cons_append, List.nil_append, List.map_cons, trail, moved_self, hrest]
    · rw [if_neg hopens]
      simp only [List.cons_append, List.nil_append, List.map_cons, trail, hrest]

/-- No gap opens at a follower of a relay. -/
theorem relayAll_smooth (c : α) (rs : List (α × α)) :
    Smooth far c ((relayAll far c rs).map Prod.fst) := by
  induction rs generalizing c with
  | nil => trivial
  | cons r rs ih =>
    have hrest := ih (moved c r)
    rw [relayAll, relay]
    by_cases hopens : Opens far c r
    · rw [moved_opens hopens] at hrest
      rw [moved_opens hopens, if_pos hopens]
      refine ⟨fun h => not_lt_self c h.1, ?_⟩
      rw [moved_self]
      exact ⟨fun h => not_lt_self r.1 h.1, hrest⟩
    · rw [if_neg hopens]
      exact ⟨hopens, hrest⟩

end Follower

end GapRelay
