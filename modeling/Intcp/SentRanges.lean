import Intcp.CallRules

/-!
# What a list of data segments covers

`sendData` cuts a range and its buffer into consecutive segments. `Covers` says
this of any list of segments, for bytes of any kind: those of a buffer, or those
that a cache holds.
-/

namespace SentRanges

open Words TransControl DataPlane CallRules

universe u
variable {F : Type u} {P : Platform F} {Holds Holds' : UInt32 → UInt8 → Prop}

/-- A data segment from offset `a` on, of 1 to `INTCP_MSS` bytes that `Holds` knows. -/
structure Chunk (Holds : UInt32 → UInt8 → Prop) (a : UInt32) (seg : IntcpSeg) : Prop where
  command : seg.cmd = intcpCmdPush
  start : seg.rangeStart = a
  nonempty : 0 < seg.len.toNat
  size : seg.len ≤ intcpMss
  stop : seg.rangeEnd.toNat = a.toNat + seg.len.toNat
  payload : ∀ i (h : i < seg.data.length), Holds (a + UInt32.ofNat i) seg.data[i]

/-- Consecutive segments from `a` to `b`. -/
def Covers (Holds : UInt32 → UInt8 → Prop) : UInt32 → List IntcpSeg → UInt32 → Prop
  | a, [], b => a = b
  | a, seg :: rest, b => Chunk Holds a seg ∧ Covers Holds seg.rangeEnd rest b

lemma Covers.le {a b : UInt32} {segs : List IntcpSeg} (h : Covers Holds a segs b) : a ≤ b := by
  induction segs generalizing a with
  | nil => exact UInt32.le_of_eq h
  | cons seg rest ih =>
    refine UInt32.le_trans ?_ (ih h.2)
    rw [UInt32.le_iff_toNat_le, h.1.stop]
    omega

lemma Covers.append {a m b : UInt32} {segs more : List IntcpSeg} (h : Covers Holds a segs m)
    (later : Covers Holds m more b) : Covers Holds a (segs ++ more) b := by
  induction segs generalizing a with
  | nil =>
    have hsame : a = m := h
    exact hsame ▸ later
  | cons seg rest ih => exact ⟨h.1, ih h.2⟩

/-- The byte `i` of a chunk is the one at its offset. -/
lemma Chunk.offset {a : UInt32} {seg : IntcpSeg} (chunk : Chunk Holds a seg) {i : Nat}
    (h : i < seg.data.length) : (a + UInt32.ofNat i).toNat = a.toNat + i := by
  have hlt := seg.rangeEnd.toNat_lt
  have hstop := chunk.stop
  rw [seg.dataLen] at h
  have hsmall : i < 2 ^ 32 := by omega
  have hi : (UInt32.ofNat i).toNat = i := UInt32.toNat_ofNat_of_lt' hsmall
  rw [toNat_add_small] <;> rw [hi]
  omega

/-- Only the bytes of the range matter. -/
lemma Covers.mono {a b : UInt32} {segs : List IntcpSeg} (h : Covers Holds a segs b)
    (weaken : ∀ o v, a ≤ o → o < b → Holds o v → Holds' o v) : Covers Holds' a segs b := by
  induction segs generalizing a with
  | nil => exact h
  | cons seg rest ih =>
    obtain ⟨chunk, hrest⟩ := h
    have hstop := chunk.stop
    have hlast := hrest.le
    rw [UInt32.le_iff_toNat_le] at hlast
    refine ⟨⟨chunk.command, chunk.start, chunk.nonempty, chunk.size, chunk.stop, ?_⟩, ?_⟩
    · intro i hi
      have hoffset := chunk.offset hi
      rw [seg.dataLen] at hi
      apply weaken
      · rw [UInt32.le_iff_toNat_le, hoffset]
        omega
      · rw [UInt32.lt_iff_toNat_lt, hoffset]
        omega
      · exact chunk.payload i _
    · apply ih hrest
      intro o v ho
      apply weaken
      refine UInt32.le_trans ?_ ho
      rw [UInt32.le_iff_toNat_le, hstop]
      omega

/-- Every offset of the range has its byte in one of the segments. -/
lemma Covers.byte {a b : UInt32} {segs : List IntcpSeg} (h : Covers Holds a segs b) {o : UInt32}
    (lo : a ≤ o) (hi : o < b) : ∃ v, Holds o v := by
  induction segs generalizing a with
  | nil =>
    have hsame : a = b := h
    exact absurd (UInt32.lt_of_le_of_lt lo (hsame ▸ hi)) (UInt32.lt_irrefl a)
  | cons seg rest ih =>
    obtain ⟨chunk, hrest⟩ := h
    by_cases hlater : seg.rangeEnd ≤ o
    · exact ih hrest hlater
    · have hstop := chunk.stop
      rw [UInt32.le_iff_toNat_le] at lo hlater
      have hindex : o.toNat - a.toNat < seg.data.length := by
        rw [seg.dataLen]
        omega
      have hoffset : a + UInt32.ofNat (o.toNat - a.toNat) = o := by
        rw [← UInt32.toNat_inj, chunk.offset hindex]
        omega
      exact ⟨_, hoffset ▸ chunk.payload _ hindex⟩

lemma chunks_covers (fuel : Nat) (buffer : Buffer) {a len : UInt32} (enough : len.toNat ≤ fuel)
    (nowrap : a.toNat + len.toNat < 2 ^ 32) :
    Covers (fun o v => v = buffer (o - a).toNat) a (chunks P fuel buffer a len) (a + len) := by
  induction fuel generalizing buffer a len with
  | zero =>
    have hnone : len = 0 := UInt32.toNat_inj.mp (Nat.le_zero.mp enough)
    exact hnone ▸ (UInt32.add_zero a).symm
  | succ fuel ih =>
    rw [chunks]
    by_cases hzero : len = 0
    · rw [if_pos hzero, hzero]
      exact (UInt32.add_zero a).symm
    · rw [if_neg hzero]
      generalize hsize : (if len > intcpMss then intcpMss else len) = size
      have hmss := toNat_intcpMss
      have hnonzero : len.toNat ≠ 0 := fun h => hzero (UInt32.toNat_inj.mp h)
      have hbounds : 0 < size.toNat ∧ size.toNat ≤ len.toNat ∧ size.toNat ≤ 1449 := by
        rw [← hsize]
        split <;> rename_i hlong <;> rw [gt_iff_lt, UInt32.lt_iff_toNat_lt, hmss] at hlong <;> omega
      obtain ⟨hpos, hle, hshort⟩ := hbounds
      have hleft := toNat_sub_of_le (UInt32.le_iff_toNat_le.mpr hle)
      have hnext : (a + size).toNat = a.toNat + size.toNat := toNat_add_small (by omega)
      constructor
      · refine ⟨rfl, rfl, hpos, ?_, hnext, ?_⟩
        · rw [UInt32.le_iff_toNat_le, hmss]
          exact hshort
        · intro i hi
          simp only [pushSeg, Buffer.getElem_bytes, Buffer.length_bytes] at hi ⊢
          have hsmall : i < 2 ^ 32 := by omega
          have hi' : (UInt32.ofNat i).toNat = i := UInt32.toNat_ofNat_of_lt' hsmall
          have hoffset : a + UInt32.ofNat i - a = UInt32.ofNat i := by grind
          rw [hoffset, hi']
      · have henough : (len - size).toNat ≤ fuel := by omega
        have hroom : (a + size).toNat + (len - size).toNat < 2 ^ 32 := by omega
        have hlater := ih (buffer.advance size.toNat) henough hroom
        have hend : a + size + (len - size) = a + len := by grind
        rw [hend] at hlater
        apply hlater.mono
        intro o v ho _ hv
        have hsplit : size.toNat + (o - (a + size)).toNat = (o - a).toNat := by
          have hfar : a ≤ o := by
            rw [UInt32.le_iff_toNat_le] at ho ⊢
            omega
          rw [toNat_sub_of_le ho, toNat_sub_of_le hfar]
          rw [UInt32.le_iff_toNat_le] at ho
          omega
        rw [hv, Buffer.advance, hsplit]

/-- `sendData` cuts a range whose length is a positive `int` into chunks of its buffer. -/
theorem sentSegs_covers (buffer : Buffer) {a b : UInt32} (before : a < b)
    (small : b.toNat - a.toNat < 2 ^ 31) :
    Covers (fun o v => v = buffer (o - a).toNat) a (sentSegs P buffer a b) b := by
  have hlen := toNat_sub_of_le (UInt32.le_of_lt before)
  have hlt := UInt32.lt_iff_toNat_lt.mp before
  have hb := b.toNat_lt
  have hpositive : ¬ (b - a).toInt32 ≤ 0 := by
    rw [Int32.le_iff_toInt_le, toInt_toInt32 (by omega), Int32.toInt_zero]
    omega
  have hroom : a.toNat + (b - a).toNat < 2 ^ 32 := by omega
  have hcovers := chunks_covers (P := P) (b - a).toNat buffer (Nat.le_refl _) hroom
  have hend : a + (b - a) = b := by grind
  rw [hend] at hcovers
  rw [sentSegs, if_neg hpositive]
  exact hcovers

end SentRanges
