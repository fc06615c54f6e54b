import Mathlib.Algebra.BigOperators.Group.List.Basic
import Mathlib.Data.List.Lex
import Mathlib.Data.List.Range
import Mathlib.Tactic.Ring

/-!
# Odometers

Positions over a list of sizes, one digit a size. A position is advanced at its last
digit, and a digit that reaches its size goes back to 0 and advances the one before.
From zeros on this runs through all positions in lexicographic order.
-/

namespace Odometer

/-- All positions, the last digit varying fastest. -/
def cells : List Nat → List (List Nat)
  | [] => [[]]
  | b :: bs => (List.range b).flatMap fun d => (cells bs).map (d :: ·)

lemma length_cells (sizes : List Nat) : (cells sizes).length = sizes.prod := by
  induction sizes with
  | nil => rfl
  | cons b bs ih => simp [cells, List.length_flatMap, ih]

lemma mem_cells {sizes pos : List Nat} :
    pos ∈ cells sizes ↔ List.Forall₂ (· < ·) pos sizes := by
  induction sizes generalizing pos with
  | nil => simp [cells]
  | cons b bs ih =>
    simp only [cells, List.mem_flatMap, List.mem_range, List.mem_map, ih]
    constructor
    · rintro ⟨d, hd, ds, hds, rfl⟩
      exact .cons hd hds
    · rintro (_ | ⟨hd, hds⟩)
      exact ⟨_, hd, _, hds, rfl⟩

/-- The order is lexicographic. -/
theorem cells_sorted (sizes : List Nat) : (cells sizes).Pairwise (List.Lex (· < ·)) := by
  induction sizes with
  | nil => exact List.pairwise_singleton _ _
  | cons b bs ih =>
    rw [cells, List.pairwise_flatMap]
    constructor
    · intro d _
      rw [List.pairwise_map]
      exact ih.imp fun h => .cons h
    · refine List.pairwise_lt_range.imp fun {d d'} hlt => ?_
      intro x hx y hy
      obtain ⟨ds, _, rfl⟩ := List.mem_map.mp hx
      obtain ⟨ds', _, rfl⟩ := List.mem_map.mp hy
      exact .rel hlt

/-- Carry from the digit `ptr` on; the flag tells that the first digit ran over. -/
def carry (sizes : List Nat) : Nat → List Nat → List Nat × Bool
  | ptr, pos =>
    if pos[ptr]? ≠ sizes[ptr]? then (pos, false)
    else
      match ptr with
      | 0 => (pos.set 0 0, true)
      | ptr + 1 => carry sizes ptr ((pos.set (ptr + 1) 0).modify ptr (· + 1))

def advance (sizes pos : List Nat) : List Nat × Bool :=
  carry sizes (sizes.length - 1) (pos.modify (sizes.length - 1) (· + 1))

/-- The same with the last digit in front. -/
def bump : List Nat → List Nat → List Nat × Bool
  | b :: bs, d :: ds =>
    if d + 1 ≠ b then ((d + 1) :: ds, false) else (0 :: (bump bs ds).1, (bump bs ds).2)
  | _, ds => (ds, true)

lemma modify_middle (ds zs : List Nat) (d : Nat) (f : Nat → Nat) :
    (ds ++ d :: zs).modify ds.length f = ds ++ f d :: zs := by
  induction ds with
  | nil => rfl
  | cons e ds ih => simpa using ih

/-- What was carried over stays behind. -/
lemma carry_bump (bs ds : List Nat) (same : ds.length = bs.length) (b d : Nat) (cs zs : List Nat) :
    carry (bs ++ b :: cs) bs.length (ds ++ (d + 1) :: zs) =
      ((bump (b :: bs.reverse) (d :: ds.reverse)).1.reverse ++ zs,
        (bump (b :: bs.reverse) (d :: ds.reverse)).2) := by
  induction bs using List.reverseRecOn generalizing b d cs zs ds with
  | nil =>
    obtain rfl := List.length_eq_zero_iff.mp same
    by_cases full : d + 1 = b
    · simp [carry, bump, full]
    · simp [carry, bump, full]
  | append_singleton bs b' ih =>
    obtain ⟨ds, d', rfl⟩ : ∃ front last, ds = front ++ [last] :=
      ⟨ds.dropLast, ds.getLast (by rintro rfl; simp at same), (List.dropLast_append_getLast _).symm⟩
    have same' : ds.length = bs.length := by simpa using same
    have shape : ds ++ [d'] ++ (d + 1) :: zs = ds ++ d' :: (d + 1) :: zs := by simp
    have sizes : bs ++ [b'] ++ b :: cs = bs ++ b' :: b :: cs := by simp
    have digit : (ds ++ d' :: (d + 1) :: zs)[bs.length + 1]? = some (d + 1) := by
      simp [← same']
    have size : (bs ++ b' :: b :: cs)[bs.length + 1]? = some b := by simp
    rw [shape, sizes, List.length_append, List.length_singleton, carry, digit, size]
    by_cases full : d + 1 = b
    · have zeroed : (ds ++ d' :: (d + 1) :: zs).set (bs.length + 1) 0 = ds ++ d' :: 0 :: zs := by
        simp [← same']
      have moved : (ds ++ d' :: 0 :: zs).modify bs.length (· + 1) =
          ds ++ (d' + 1) :: 0 :: zs := by
        rw [← same']
        exact modify_middle ds (0 :: zs) d' _
      have next := ih ds same' b' d' (b :: cs) (0 :: zs)
      rw [zeroed, moved, next]
      simp [bump, full]
    · simp [bump, full]

/-- The digits of a number, the last digit in front. -/
def digits : List Nat → Nat → List Nat
  | [], _ => []
  | b :: bs, k => k % b :: digits bs (k / b)

def position (sizes : List Nat) (k : Nat) : List Nat :=
  (digits sizes.reverse k).reverse

lemma length_digits (bs : List Nat) (k : Nat) : (digits bs k).length = bs.length := by
  induction bs generalizing k with
  | nil => rfl
  | cons b bs ih => simp [digits, ih]

lemma bump_digits {bs : List Nat} {k : Nat} (below : k < bs.prod) :
    bump bs (digits bs k) = (digits bs (k + 1), decide (k + 1 = bs.prod)) := by
  induction bs generalizing k with
  | nil =>
    obtain rfl : k = 0 := by simpa using below
    rfl
  | cons b bs ih =>
    have wide : 0 < b := Nat.pos_of_ne_zero (by rintro rfl; simp at below)
    have split := Nat.div_add_mod k b
    have small := Nat.mod_lt k wide
    have below' : k / b < bs.prod :=
      Nat.div_lt_of_lt_mul (by simpa using below)
    by_cases full : k % b + 1 = b
    · have next : k + 1 = b * (k / b + 1) := by
        rw [Nat.mul_add]
        omega
      have last : (k + 1 = b * bs.prod) ↔ (k / b + 1 = bs.prod) := by
        rw [next]
        exact Nat.mul_right_inj wide.ne'
      simp [bump, digits, full, ih below', last]
      simp [next, Nat.mul_div_cancel_left _ wide]
    · have next : k + 1 = b * (k / b) + (k % b + 1) := by omega
      have head : (k + 1) % b = k % b + 1 := by
        have small' : k % b + 1 < b := by omega
        simp only [next, Nat.mul_add_mod, Nat.mod_eq_of_lt small']
      have tail : (k + 1) / b = k / b := by
        have small' : k % b + 1 < b := by omega
        simp only [next, Nat.mul_add_div wide, Nat.div_eq_of_lt small', Nat.add_zero]
      have early : k + 1 ≠ b * bs.prod := by
        intro h
        have : (k + 1) % b = 0 := by simp [h]
        rw [head] at this
        omega
      simp [bump, digits, full, head, tail, early]

lemma digits_zero (bs : List Nat) : digits bs 0 = List.replicate bs.length 0 := by
  induction bs with
  | nil => rfl
  | cons b bs ih => simp [digits, ih, List.replicate_succ]

lemma position_zero (sizes : List Nat) : position sizes 0 = List.replicate sizes.length 0 := by
  simp [position, digits_zero]

/-- One step of the odometer counts one up, and runs over at the number of positions. -/
theorem advance_position {sizes : List Nat} (nonempty : sizes ≠ []) {k : Nat}
    (below : k < sizes.prod) :
    advance sizes (position sizes k) = (position sizes (k + 1), decide (k + 1 = sizes.prod)) := by
  obtain ⟨bs, b, rfl⟩ : ∃ bs b, sizes = bs ++ [b] :=
    ⟨_, _, (List.dropLast_append_getLast nonempty).symm⟩
  have counted := @bump_digits (b :: bs.reverse) k (by simpa [mul_comm] using below)
  have shape : position (bs ++ [b]) k = (digits bs.reverse (k / b)).reverse ++ [k % b] := by
    simp [position, digits]
  have same : (digits bs.reverse (k / b)).reverse.length = bs.length := by
    simp [length_digits]
  have moved : (position (bs ++ [b]) k).modify bs.length (· + 1) =
      (digits bs.reverse (k / b)).reverse ++ (k % b + 1) :: [] := by
    rw [shape, ← same]
    exact modify_middle _ [] _ _
  have carried := carry_bump bs _ same b (k % b) [] []
  have unfolded : digits (b :: bs.reverse) k = k % b :: digits bs.reverse (k / b) := rfl
  rw [List.reverse_reverse, ← unfolded, counted] at carried
  have ends : (bs ++ [b]).length - 1 = bs.length := by simp
  rw [advance, ends, moved, carried]
  simp [position, mul_comm]

lemma cells_snoc (bs : List Nat) (b : Nat) :
    cells (bs ++ [b]) = (cells bs).flatMap fun ds => (List.range b).map fun d => ds ++ [d] := by
  induction bs with
  | nil => simp [cells, List.map_eq_flatMap]
  | cons c cs ih =>
    simp [cells, ih, List.flatMap_assoc, List.map_flatMap, List.flatMap_map, Function.comp_def]

lemma range_mul (p b : Nat) :
    List.range (p * b) = (List.range p).flatMap fun q => (List.range b).map fun r => q * b + r := by
  induction p with
  | zero => simp
  | succ p ih =>
    rw [Nat.succ_mul, List.range_add, ih, List.range_succ]
    simp

/-- Counting from 0 visits the positions in their order. -/
theorem map_position (sizes : List Nat) :
    (List.range sizes.prod).map (position sizes) = cells sizes := by
  induction sizes using List.reverseRecOn with
  | nil => rfl
  | append_singleton bs b ih =>
    have unit (q r : Nat) (small : r < b) :
        position (bs ++ [b]) (q * b + r) = position bs q ++ [r] := by
      have wide : 0 < b := by omega
      have front : (q * b + r) / b = q := by
        rw [mul_comm, Nat.mul_add_div wide, Nat.div_eq_of_lt small, Nat.add_zero]
      simp [position, digits, front, Nat.mod_eq_of_lt small]
    rw [cells_snoc, ← ih, List.prod_append, List.prod_singleton, range_mul, List.map_flatMap,
      List.flatMap_map]
    refine List.flatMap_congr fun q _ => ?_
    rw [List.map_map]
    refine List.map_congr_left fun r hr => ?_
    exact unit q r (List.mem_range.mp hr)

end Odometer
