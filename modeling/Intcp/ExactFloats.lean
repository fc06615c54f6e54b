import Intcp.RateControl
import Mathlib.Algebra.Order.Floor.Ring
import Mathlib.Tactic.NormNum

/-!
# Rate control in exact arithmetic

The platform whose `float` and `double` are the numbers of an ordered field, with
powers as a parameter: nothing is rounded, and a conversion to an integer cuts off
the fraction.
-/

namespace ExactFloats

open Words TransControl RateControl

universe u
variable {K : Type u} [Field K] [LinearOrder K] [FloorRing K]

/-- The integer part, toward zero. -/
def truncate (a : K) : Int := if 0 ≤ a then ⌊a⌋ else ⌈a⌉

/-- What a machine has besides its arithmetic: a clock, fresh memory, what the read of an
empty `hrttQueue` yields, and `pow`. -/
structure Machine (K : Type u) where
  clock : Nat → UInt32
  raw : UInt32
  emptyBack : UInt32
  pow : K → K → K

def exactly (machine : Machine K) : Platform K where
  clock := machine.clock
  raw := machine.raw
  emptyBack := machine.emptyBack
  ofInt := fun n => n
  decimal := fun n k => n / 10 ^ k
  add := fun a b => a + b
  sub := fun a b => a - b
  mul := fun a b => a * b
  div := fun a b => a / b
  pow := machine.pow
  lt := fun a b => decide (a < b)
  le := fun a b => decide (a ≤ b)
  eq := fun a b => decide (a = b)
  single := fun a => a
  toInt := fun a => Int32.ofInt (truncate a)
  toUInt := fun a => UInt32.ofInt (truncate a)
  toInt16 := fun a => Int16.ofInt (truncate a)

variable (machine : Machine K)

lemma fmax_exactly (a b : K) : fmax (exactly machine) a b = max a b := by
  simp only [fmax, exactly, decide_eq_true_eq, max_def_lt]

lemma fmin_exactly (a b : K) : fmin (exactly machine) a b = min a b := by
  rw [min_comm]
  simp only [fmin, exactly, decide_eq_true_eq, min_def_lt]

@[simp] lemma fofInt_exactly (n : Int) : fofInt (exactly machine) n = n := rfl

@[simp] lemma sendrateMin_exactly : sendrateMin (exactly machine) = 1 / 10 := by
  simp [sendrateMin, exactly]

@[simp] lemma sendrateMax_exactly : sendrateMax (exactly machine) = 300 := by
  simp [sendrateMax, exactly]

@[simp] lemma cwndMin_exactly : cwndMin (exactly machine) = 1 / 5 := by
  simp only [cwndMin, exactly]
  norm_num

end ExactFloats
