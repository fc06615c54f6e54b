import Mathlib.Order.Basic

/-!
# Loops with an explicit number of passes

A loop body either leaves with a result or goes round again with a new state.
`none` means that the budget ran out, so a loop whose result is `none` for
every budget is one that never returns. The rules below are the usual ones:
an invariant, a variant, and independence of a sufficient budget.
-/

namespace FuelledLoop

universe u v
variable {S : Type u} {R : Type v}

/-- What one pass through a loop body does. -/
inductive Pass (S : Type u) (R : Type v) where
  | leave (result : R)
  | again (next : S)

def loop (body : S → Pass S R) : Nat → S → Option R
  | 0, _ => none
  | fuel + 1, s => match body s with
    | .leave r => some r
    | .again t => loop body fuel t

/-- `t` is a state in which some pass of the loop started from `s` begins. -/
inductive Passes (body : S → Pass S R) (s : S) : S → Prop where
  | start : Passes body s s
  | next {t u : S} (earlier : Passes body s t) (h : body t = .again u) : Passes body s u

theorem loop_leave {body : S → Pass S R} {s : S} {r : R} (fuel : Nat)
    (h : body s = .leave r) : loop body (fuel + 1) s = some r := by
  simp only [loop, h]

theorem loop_again {body : S → Pass S R} {s t : S} (fuel : Nat)
    (h : body s = .again t) : loop body (fuel + 1) s = loop body fuel t := by
  simp only [loop, h]

/-- What a loop returns, it returns from any of its passes on. -/
theorem returns_iff_of_passes {body : S → Pass S R} {s t : S} (passes : Passes body s t)
    (Q : R → Prop) : (∃ fuel r, loop body fuel s = some r ∧ Q r) ↔
      ∃ fuel r, loop body fuel t = some r ∧ Q r := by
  induction passes with
  | start => exact Iff.rfl
  | next earlier h ih =>
    refine ih.trans ⟨?_, ?_⟩
    · rintro ⟨fuel, r, hr, hq⟩
      cases fuel with
      | zero => cases hr
      | succ fuel =>
        rw [loop_again fuel h] at hr
        exact ⟨fuel, r, hr, hq⟩
    · rintro ⟨fuel, r, hr, hq⟩
      exact ⟨fuel + 1, r, (loop_again fuel h).trans hr, hq⟩

section Map

variable {T : Type u} {Q : Type v}

/-- The same pass seen through a projection of states and results. -/
def Pass.map (f : S → T) (g : R → Q) : Pass S R → Pass T Q
  | .leave r => .leave (g r)
  | .again s => .again (f s)

/-- A loop that projects to another one pass by pass projects to it as a whole. -/
theorem loop_map {body : S → Pass S R} {coarse : T → Pass T Q} (f : S → T) (g : R → Q)
    (pass : ∀ s, (body s).map f g = coarse (f s)) (fuel : Nat) (s : S) :
    (loop body fuel s).map g = loop coarse fuel (f s) := by
  induction fuel generalizing s with
  | zero => rfl
  | succ fuel ih =>
    have hpass := pass s
    cases hb : body s with
    | leave r =>
      rw [hb] at hpass
      rw [loop_leave fuel hb, loop_leave fuel hpass.symm, Option.map_some]
    | again t =>
      rw [hb] at hpass
      rw [loop_again fuel hb, loop_again fuel hpass.symm]
      exact ih t

end Map

/-- A larger budget gives the same result. -/
theorem loop_mono {body : S → Pass S R} {n m : Nat} {s : S} {r : R}
    (hnm : n ≤ m) (h : loop body n s = some r) : loop body m s = some r := by
  induction n generalizing s m with
  | zero => cases h
  | succ n ih =>
    obtain ⟨k, rfl⟩ : ∃ k, m = k + 1 := ⟨m - 1, by omega⟩
    cases hb : body s with
    | leave q =>
      rw [loop_leave n hb] at h
      rw [loop_leave k hb, h]
    | again t =>
      rw [loop_again n hb] at h
      rw [loop_again k hb]
      exact ih (by omega) h

/-- Invariant rule: what holds on entry and survives a pass holds on leaving. -/
theorem loop_invariant {body : S → Pass S R} (Inv : S → Prop) (Post : R → Prop)
    (pass : ∀ s t, Inv s → body s = .again t → Inv t)
    (exit : ∀ s r, Inv s → body s = .leave r → Post r)
    {fuel : Nat} {s : S} {r : R} (start : Inv s) (h : loop body fuel s = some r) :
    Post r := by
  induction fuel generalizing s with
  | zero => cases h
  | succ fuel ih =>
    cases hb : body s with
    | leave q =>
      rw [loop_leave fuel hb] at h
      exact Option.some.inj h ▸ exit s q start hb
    | again t =>
      rw [loop_again fuel hb] at h
      exact ih (pass s t start hb) h

/-- The invariant rule where running out of budget gives a default. -/
theorem loop_getD_invariant {body : S → Pass S R} (Inv : S → Prop) (Post : R → Prop)
    (pass : ∀ s t, Inv s → body s = .again t → Inv t)
    (exit : ∀ s r, Inv s → body s = .leave r → Post r)
    {fuel : Nat} {s : S} {d : R} (start : Inv s) (default : Post d) :
    Post ((loop body fuel s).getD d) := by
  cases h : loop body fuel s with
  | none => exact default
  | some r => exact loop_invariant Inv Post pass exit start h

/-- Variant rule: a measure that falls with every pass bounds the passes. -/
theorem loop_returns {body : S → Pass S R} (Inv : S → Prop) (variant : S → Nat)
    (pass : ∀ s t, Inv s → body s = .again t → Inv t ∧ variant t < variant s)
    {fuel : Nat} {s : S} (start : Inv s) (enough : variant s < fuel) :
    ∃ r, loop body fuel s = some r := by
  induction fuel generalizing s with
  | zero => omega
  | succ fuel ih =>
    cases hb : body s with
    | leave q => exact ⟨q, loop_leave fuel hb⟩
    | again t =>
      obtain ⟨ht, hlt⟩ := pass s t start hb
      rw [loop_again fuel hb]
      exact ih ht (by omega)

/-- Both rules at once. -/
theorem loop_total {body : S → Pass S R} (Inv : S → Prop) (Post : R → Prop)
    (variant : S → Nat)
    (pass : ∀ s t, Inv s → body s = .again t → Inv t ∧ variant t < variant s)
    (exit : ∀ s r, Inv s → body s = .leave r → Post r)
    {fuel : Nat} {s : S} (start : Inv s) (enough : variant s < fuel) :
    ∃ r, loop body fuel s = some r ∧ Post r := by
  obtain ⟨r, hr⟩ := loop_returns Inv variant pass start enough
  exact ⟨r, hr, loop_invariant Inv Post (fun s t hs hb => (pass s t hs hb).1) exit start hr⟩

end FuelledLoop
