import Mathlib.Data.UInt
import Mathlib.Data.List.Basic

/-!
# Little-endian words in byte strings

A word of `w` bytes is written least significant byte first. Reading takes the
first `w` bytes of a string, so reading what was written gives the word back
whatever follows it. The `Int16`, `UInt16` and `UInt32` forms are the fixed
widths that a packed C structure uses on a little-endian host.
-/

namespace LittleEndian

def put : Nat → Nat → List UInt8
  | 0, _ => []
  | w + 1, n => UInt8.ofNat n :: put w (n / 256)

def get : Nat → List UInt8 → Nat
  | 0, _ => 0
  | _ + 1, [] => 0
  | w + 1, b :: bs => b.toNat + 256 * get w bs

@[simp] lemma length_put (w n : Nat) : (put w n).length = w := by
  induction w generalizing n with
  | zero => rfl
  | succ w ih => simp [put, ih]

/-- Reading back a written number, with anything after it. -/
theorem get_put (w n : Nat) (rest : List UInt8) (small : n < 256 ^ w) :
    get w (put w n ++ rest) = n := by
  induction w generalizing n with
  | zero =>
    have hzero : n = 0 := by simpa using small
    simp [get, hzero]
  | succ w ih =>
    have hdiv : n / 256 < 256 ^ w := Nat.div_lt_of_lt_mul (by rwa [pow_succ, mul_comm] at small)
    have hmod : (UInt8.ofNat n).toNat = n % 256 := by simp
    simp only [put, List.cons_append, get, ih _ hdiv, hmod]
    exact Nat.mod_add_div n 256

/-- Writing is injective on the numbers that fit. -/
theorem put_injective {w n m : Nat} (hn : n < 256 ^ w) (hm : m < 256 ^ w)
    (same : put w n = put w m) : n = m := by
  have hread := get_put w m [] hm
  rw [← same, get_put w n [] hn] at hread
  exact hread

lemma get_lt (w : Nat) (bs : List UInt8) : get w bs < 256 ^ w := by
  induction w generalizing bs with
  | zero => simp [get]
  | succ w ih =>
    cases bs with
    | nil => exact Nat.pow_pos (by decide)
    | cons b bs =>
      have hb : b.toNat < 256 := b.toNat_lt
      have hrest := ih bs
      rw [get, Nat.pow_succ]
      omega

/-- Writing back a number that was read. -/
theorem put_get (w : Nat) (bs : List UInt8) (long : w ≤ bs.length) :
    put w (get w bs) = bs.take w := by
  induction w generalizing bs with
  | zero => rfl
  | succ w ih =>
    obtain ⟨b, rest, rfl⟩ := List.exists_cons_of_length_pos (Nat.zero_lt_of_lt long)
    have hb : b.toNat < 256 := b.toNat_lt
    have hdiv : (b.toNat + 256 * get w rest) / 256 = get w rest := by omega
    have hfirst : UInt8.ofNat (b.toNat + 256 * get w rest) = b := by
      apply UInt8.toNat_inj.mp
      rw [UInt8.toNat_ofNat']
      omega
    rw [get, put, hdiv, hfirst, ih rest (Nat.le_of_succ_le_succ long), List.take_succ_cons]

def bytes32 (x : UInt32) : List UInt8 := put 4 x.toNat
def word32 (bs : List UInt8) : UInt32 := UInt32.ofNat (get 4 bs)
def bytes16 (x : UInt16) : List UInt8 := put 2 x.toNat
def word16 (bs : List UInt8) : UInt16 := UInt16.ofNat (get 2 bs)

@[simp] lemma length_bytes32 (x : UInt32) : (bytes32 x).length = 4 := length_put 4 _
@[simp] lemma length_bytes16 (x : UInt16) : (bytes16 x).length = 2 := length_put 2 _

@[simp] theorem word32_bytes32 (x : UInt32) (rest : List UInt8) :
    word32 (bytes32 x ++ rest) = x := by
  have hx : x.toNat < 256 ^ 4 := x.toNat_lt
  rw [word32, bytes32, get_put 4 _ rest hx, UInt32.ofNat_toNat]

@[simp] theorem word16_bytes16 (x : UInt16) (rest : List UInt8) :
    word16 (bytes16 x ++ rest) = x := by
  have hx : x.toNat < 256 ^ 2 := x.toNat_lt
  rw [word16, bytes16, get_put 2 _ rest hx, UInt16.ofNat_toNat]

theorem bytes32_word32 {bs : List UInt8} (long : 4 ≤ bs.length) :
    bytes32 (word32 bs) = bs.take 4 := by
  have hsmall : (UInt32.ofNat (get 4 bs)).toNat = get 4 bs :=
    UInt32.toNat_ofNat_of_lt' (get_lt 4 bs)
  rw [bytes32, word32, hsmall, put_get 4 bs long]

theorem bytes16_word16 {bs : List UInt8} (long : 2 ≤ bs.length) :
    bytes16 (word16 bs) = bs.take 2 := by
  have hsmall : (UInt16.ofNat (get 2 bs)).toNat = get 2 bs :=
    UInt16.toNat_ofNat_of_lt' (get_lt 2 bs)
  rw [bytes16, word16, hsmall, put_get 2 bs long]

theorem bytes32_injective {x y : UInt32} (same : bytes32 x = bytes32 y) : x = y :=
  UInt32.toNat_inj.mp (put_injective (w := 4) x.toNat_lt y.toNat_lt same)

end LittleEndian
