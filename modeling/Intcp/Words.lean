import Intcp.LittleEndian

/-!
# Machine words and buffers of generality.h

`IUINT32`, `IINT16` and `int` keep their widths as `UInt32`, `Int16` and
`Int32`; a `long` difference of two clock readings is an integer. A `char *` is
the buffer seen from the pointer, so pointer arithmetic shifts the index.
-/

namespace Words

open LittleEndian

/-- `_imin_`, also the `min` macro of cache.cpp. -/
def imin (a b : UInt32) : UInt32 := if a ≤ b then a else b

/-- `_imax_`, also the `max` macro of cache.cpp. -/
def imax (a b : UInt32) : UInt32 := if a ≥ b then a else b

/-- `_itimediff`: the signed reading of a wrapped difference. -/
def itimediff (later earlier : UInt32) : Int := (later - earlier).toInt32.toInt

@[simp] lemma toNat_imin (a b : UInt32) : (imin a b).toNat = min a.toNat b.toNat := by
  unfold imin
  split <;> rename_i h <;> simp only [UInt32.le_iff_toNat_le] at h <;> omega

@[simp] lemma toNat_imax (a b : UInt32) : (imax a b).toNat = max a.toNat b.toNat := by
  unfold imax
  split <;> rename_i h <;> simp only [ge_iff_le, UInt32.le_iff_toNat_le] at h <;> omega

/-- A sum that stays below 2^32. -/
lemma toNat_add_small {a b : UInt32} (h : a.toNat + b.toNat < 2 ^ 32) :
    (a + b).toNat = a.toNat + b.toNat := by
  rw [UInt32.toNat_add]
  exact Nat.mod_eq_of_lt h

lemma toNat_sub_of_le {a b : UInt32} (h : b ≤ a) : (a - b).toNat = a.toNat - b.toNat :=
  UInt32.toNat_sub_of_le a b h

lemma toNat_imax_sub_left (a b : UInt32) :
    (imax a b - a).toNat = max a.toNat b.toNat - a.toNat := by
  rw [toNat_sub_of_le (UInt32.le_iff_toNat_le.mpr (by simp)), toNat_imax]

lemma toNat_imax_sub_right (a b : UInt32) :
    (imax a b - b).toNat = max a.toNat b.toNat - b.toNat := by
  rw [toNat_sub_of_le (UInt32.le_iff_toNat_le.mpr (by simp)), toNat_imax]

/-- A word with the sign bit clear reads the same signed. -/
lemma toInt_toInt32 {w : UInt32} (small : w.toNat < 2 ^ 31) : w.toInt32.toInt = w.toNat := by
  have hbits : w.toInt32.toInt = w.toBitVec.toInt := rfl
  rw [hbits, BitVec.toInt_eq_toNat_of_lt]
  · rfl
  · simp only [UInt32.toNat_toBitVec]
    omega

/-- A signed number read as an unsigned one. -/
lemma toNat_toUInt32 (x : Int32) :
    (x.toUInt32.toNat : Int) = if 0 ≤ x.toInt then x.toInt else x.toInt + 2 ^ 32 := by
  have hlt := x.toUInt32.toNat_lt
  have hbits : x.toInt = x.toUInt32.toBitVec.toInt := rfl
  rw [BitVec.toInt_eq_toNat_cond, UInt32.toNat_toBitVec] at hbits
  split at hbits <;> split <;> omega

lemma toInt_sub_exact {a b : Int32} (low : -2 ^ 31 ≤ a.toInt - b.toInt)
    (high : a.toInt - b.toInt < 2 ^ 31) : (a - b).toInt = a.toInt - b.toInt := by
  rw [Int32.toInt_sub]
  apply Int.bmod_eq_of_le <;> omega

/-- A clock or offset difference is read modulo 2^32. -/
lemma itimediff_eq (later earlier : UInt32) : itimediff later earlier =
    if (later - earlier).toNat < 2 ^ 31 then ((later - earlier).toNat : Int)
    else (later - earlier).toNat - 2 ^ 32 := by
  have hbits : itimediff later earlier = (later - earlier).toBitVec.toInt := rfl
  rw [hbits, BitVec.toInt_eq_toNat_cond, UInt32.toNat_toBitVec]
  split <;> split <;> first | rfl | omega

/-- A wrapping sum of words is exact while the sum stays below 2^31. -/
theorem toInt_sum_words (ws : List UInt32) (small : (ws.map UInt32.toNat).sum < 2 ^ 31) :
    (ws.map UInt32.toInt32).sum.toInt = (ws.map UInt32.toNat).sum := by
  induction ws with
  | nil => rfl
  | cons w ws ih =>
    simp only [List.map_cons, List.sum_cons] at small ⊢
    have hbound : ((w.toNat : Int) + (ws.map UInt32.toNat).sum).bmod (2 ^ 32) =
        w.toNat + (ws.map UInt32.toNat).sum := by
      apply Int.bmod_eq_of_le <;> omega
    rw [Int32.toInt_add, toInt_toInt32 (by omega), ih (by omega), hbound]
    omega

abbrev Buffer := Nat → UInt8

/-- The pointer `p + k`. -/
def Buffer.advance (p : Buffer) (k : Nat) : Buffer := fun i => p (k + i)

/-- `memcpy(p + offset, src, len)` -/
def Buffer.write (p : Buffer) (offset : Nat) (src : Buffer) (len : Nat) : Buffer :=
  fun i => if offset ≤ i ∧ i < offset + len then src (i - offset) else p i

/-- The first `len` bytes at the pointer. -/
def Buffer.bytes (p : Buffer) (len : Nat) : List UInt8 := (List.range len).map p

/-- The buffer a byte string lies in; what follows it is never read. -/
def Buffer.ofList (bs : List UInt8) : Buffer := fun i => bs.getD i 0

@[simp] lemma Buffer.length_bytes (p : Buffer) (len : Nat) : (p.bytes len).length = len := by
  simp [Buffer.bytes]

@[simp] lemma Buffer.getElem_bytes (p : Buffer) (len i : Nat) (h : i < (p.bytes len).length) :
    (p.bytes len)[i] = p i := by
  simp [Buffer.bytes]

lemma Buffer.bytes_add (p : Buffer) (k m : Nat) :
    p.bytes (k + m) = p.bytes k ++ (p.advance k).bytes m := by
  rw [Buffer.bytes, List.range_add, List.map_append, List.map_map]
  rfl

lemma Buffer.bytes_ofList (bs : List UInt8) : (Buffer.ofList bs).bytes bs.length = bs := by
  refine List.ext_getElem (Buffer.length_bytes _ _) ?_
  intro i hi hi'
  rw [Buffer.getElem_bytes, Buffer.ofList, List.getD_eq_getElem?_getD, List.getElem?_eq_getElem hi',
    Option.getD_some]

lemma Buffer.write_inside {p src : Buffer} {offset len i : Nat} (lo : offset ≤ i)
    (hi : i < offset + len) : p.write offset src len i = src (i - offset) := by
  simp [Buffer.write, lo, hi]

lemma Buffer.write_outside {p src : Buffer} {offset len i : Nat}
    (out : i < offset ∨ offset + len ≤ i) : p.write offset src len i = p i := by
  rw [Buffer.write, if_neg (by omega)]

def encode8u (c : UInt8) : List UInt8 := [c]
def encode16 (w : Int16) : List UInt8 := bytes16 w.toUInt16
def encode32u (l : UInt32) : List UInt8 := bytes32 l

def decode8u (p : List UInt8) : UInt8 × List UInt8 := (p.headD 0, p.drop 1)
def decode16 (p : List UInt8) : Int16 × List UInt8 := ((word16 p).toInt16, p.drop 2)
def decode32u (p : List UInt8) : UInt32 × List UInt8 := (word32 p, p.drop 4)

@[simp] lemma decode8u_encode8u (c : UInt8) (rest : List UInt8) :
    decode8u (encode8u c ++ rest) = (c, rest) := rfl

@[simp] lemma decode16_encode16 (w : Int16) (rest : List UInt8) :
    decode16 (encode16 w ++ rest) = (w, rest) := by
  simp [decode16, encode16]

@[simp] lemma decode32u_encode32u (l : UInt32) (rest : List UInt8) :
    decode32u (encode32u l ++ rest) = (l, rest) := by
  simp [decode32u, encode32u]

lemma encode8u_decode8u {p : List UInt8} (long : 1 ≤ p.length) :
    encode8u (decode8u p).1 ++ (decode8u p).2 = p := by
  obtain ⟨b, rest, rfl⟩ := List.exists_cons_of_length_pos long
  rfl

lemma encode16_decode16 {p : List UInt8} (long : 2 ≤ p.length) :
    encode16 (decode16 p).1 ++ (decode16 p).2 = p := by
  simp only [encode16, decode16, UInt16.toUInt16_toInt16, bytes16_word16 long, List.take_append_drop]

lemma encode32u_decode32u {p : List UInt8} (long : 4 ≤ p.length) :
    encode32u (decode32u p).1 ++ (decode32u p).2 = p := by
  simp only [encode32u, decode32u, bytes32_word32 long, List.take_append_drop]

end Words
