import Intcp.FuelledLoop
import Mathlib.Data.List.Chain
import Mathlib.Data.List.Nodup
import Mathlib.Data.List.Perm.Subperm

/-!
# Following pointers

Each place points to at most one other. Going from pointer to pointer until a goal is met
gives one path or none, and a path meets no place twice, since the walk would go round from
there for ever. So the places that point anywhere bound the passes of the loop.
-/

namespace PointerWalks

open FuelledLoop

universe u
variable {V : Type u}

/-- The pointers lead along the path, which ends where it first meets the goal. -/
inductive Leads (next : V → Option V) (goal : V) : List V → Prop where
  | arrived : Leads next goal [goal]
  | on {a b : V} {rest : List V} (short : a ≠ goal) (points : next a = some b)
      (further : Leads next goal (b :: rest)) : Leads next goal (a :: b :: rest)

section Paths

variable {next : V → Option V} {goal : V} {path : List V}

theorem Leads.unique {a : V} {p q : List V} (hp : Leads next goal (a :: p))
    (hq : Leads next goal (a :: q)) : p = q := by
  induction p generalizing a q with
  | nil =>
    cases hp
    cases hq with
    | arrived => rfl
    | on short => exact absurd rfl short
  | cons b p ih =>
    cases hp with
    | on short points further =>
      cases hq with
      | arrived => exact absurd rfl short
      | on _ points' further' =>
        obtain rfl := Option.some.inj (points.symm.trans points')
        rw [ih further further']

/-- From each of its places the rest of a path is the path from there. -/
lemma Leads.onward (h : Leads next goal path) {a : V} (ha : a ∈ path) :
    ∃ before rest, path = before ++ a :: rest ∧ Leads next goal (a :: rest) := by
  induction h with
  | arrived =>
    obtain rfl := List.mem_singleton.mp ha
    exact ⟨[], [], rfl, .arrived⟩
  | @on b c rest short points further ih =>
    obtain rfl | later := List.mem_cons.mp ha
    · exact ⟨[], c :: rest, rfl, .on short points further⟩
    · obtain ⟨before, rest', split, leads⟩ := ih later
      exact ⟨b :: before, rest', by simp [split], leads⟩

theorem Leads.nodup (h : Leads next goal path) : path.Nodup := by
  induction h with
  | arrived => exact List.nodup_singleton goal
  | @on a b rest short points further ih =>
    refine List.nodup_cons.mpr ⟨fun again => ?_, ih⟩
    obtain ⟨before, rest', split, leads⟩ := further.onward again
    -- the path from `a` would be a proper part of itself
    obtain rfl := leads.unique (.on short points further)
    have long := congrArg List.length split
    simp only [List.length_cons, List.length_append] at long
    omega

lemma Leads.getLast? (h : Leads next goal path) : path.getLast? = some goal := by
  induction h with
  | arrived => rfl
  | on _ _ _ ih => rwa [List.getLast?_cons_cons]

lemma Leads.ne_nil (h : Leads next goal path) : path ≠ [] := by
  cases h with
  | arrived => exact List.cons_ne_nil goal []
  | on => exact List.cons_ne_nil _ _

/-- All the places of a path but its last point somewhere. -/
lemma Leads.points (h : Leads next goal path) : ∀ a ∈ path.dropLast, (next a).isSome := by
  induction h with
  | arrived => simp
  | on _ points _ ih =>
    rw [List.dropLast_cons_cons]
    exact List.forall_mem_cons.mpr ⟨by simp [points], ih⟩

/-- No path is longer than there are places that point anywhere, and the goal. -/
theorem Leads.length_le (h : Leads next goal path) {places : List V}
    (known : ∀ a, (next a).isSome → a ∈ places) : path.length ≤ places.length + 1 := by
  have distinct : path.dropLast.Nodup := h.nodup.sublist (List.dropLast_sublist path)
  have inside : path.dropLast ⊆ places := fun a ha => known a (h.points a ha)
  have short := (List.subperm_of_subset distinct inside).length_le
  rw [List.length_dropLast] at short
  omega

end Paths

section Pursuit

variable [DecidableEq V]

/-- One pass of `while curr != goal`, which ends in an error where a place points nowhere. -/
def pursuePass (next : V → Option V) (goal : V) (walk : V × List V) :
    Pass (V × List V) (Option (List V)) :=
  if walk.1 = goal then .leave (some walk.2)
  else match next walk.1 with
    | none => .leave none
    | some b => .again (b, walk.2 ++ [b])

def pursue (next : V → Option V) (goal : V) (fuel : Nat) (start : V) : Option (List V) :=
  (loop (pursuePass next goal) fuel (start, [start])).join

variable {next : V → Option V} {goal : V}

lemma loop_pursuePass {fuel : Nat} {a : V} {done path : List V} :
    loop (pursuePass next goal) fuel (a, done ++ [a]) = some (some path) ↔
      ∃ rest, path = done ++ a :: rest ∧ Leads next goal (a :: rest) ∧ rest.length < fuel := by
  induction fuel generalizing a done with
  | zero => simp [loop]
  | succ fuel ih =>
    by_cases there : a = goal
    · subst there
      have left : pursuePass next a (a, done ++ [a]) = .leave (some (done ++ [a])) := by
        simp [pursuePass]
      rw [loop_leave fuel left]
      constructor
      · intro h
        exact ⟨[], (Option.some.inj (Option.some.inj h)).symm, .arrived, Nat.succ_pos fuel⟩
      · rintro ⟨rest, rfl, leads, -⟩
        rw [leads.unique .arrived]
    · cases points : next a with
      | none =>
        have left : pursuePass next goal (a, done ++ [a]) = .leave none := by
          simp [pursuePass, there, points]
        rw [loop_leave fuel left]
        constructor
        · intro h
          cases Option.some.inj h
        · rintro ⟨rest, -, leads, -⟩
          cases leads with
          | arrived => exact absurd rfl there
          | on _ points' => cases points.symm.trans points'
      | some b =>
        have again : pursuePass next goal (a, done ++ [a]) = .again (b, (done ++ [a]) ++ [b]) := by
          simp [pursuePass, there, points]
        rw [loop_again fuel again, ih]
        constructor
        · rintro ⟨rest, rfl, leads, short⟩
          exact ⟨b :: rest, by simp, .on there points leads, Nat.succ_lt_succ short⟩
        · rintro ⟨rest, rfl, leads, short⟩
          cases leads with
          | arrived => exact absurd rfl there
          | on _ points' further =>
            obtain rfl := Option.some.inj (points.symm.trans points')
            exact ⟨_, by simp, further, Nat.lt_of_succ_lt_succ short⟩

/-- What the loop returns is the path the pointers lead along, given a pass for each place. -/
theorem pursue_iff {fuel : Nat} {a : V} {path : List V} :
    pursue next goal fuel a = some path ↔
      Leads next goal path ∧ path.head? = some a ∧ path.length ≤ fuel := by
  have looped : loop (pursuePass next goal) fuel (a, [] ++ [a]) = some (some path) ↔
      ∃ rest, path = [] ++ a :: rest ∧ Leads next goal (a :: rest) ∧ rest.length < fuel :=
    loop_pursuePass
  rw [pursue, Option.join_eq_some_iff]
  refine looped.trans ?_
  constructor
  · rintro ⟨rest, rfl, leads, short⟩
    exact ⟨leads, rfl, short⟩
  · rintro ⟨leads, head, short⟩
    obtain ⟨b, rest, rfl⟩ := List.exists_cons_of_ne_nil leads.ne_nil
    obtain rfl := Option.some.inj head
    exact ⟨rest, rfl, leads, short⟩

/-- A pass for each place that points anywhere is enough. -/
theorem pursue_enough {fuel : Nat} {a : V} {path places : List V}
    (known : ∀ a, (next a).isSome → a ∈ places) (h : pursue next goal fuel a = some path) :
    pursue next goal (places.length + 1) a = some path := by
  obtain ⟨leads, head, -⟩ := pursue_iff.mp h
  exact pursue_iff.mpr ⟨leads, head, leads.length_le known⟩

end Pursuit

end PointerWalks
