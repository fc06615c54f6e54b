import Intcp.InterestFifo

/-!
# The interest queue cut anew

`flushIntQueue` turns the ranges of the queue into interests of 1 to 1449 bytes: byte for
byte, in order, and joined wherever two ranges meet. Only the counter of the buffer can fall
behind, since it is an `int`.
-/

namespace InterestChunks

open Words BlockCache TransControl InterestPlane ByteAccounts InterestFifo

universe u
variable {F : Type u} {nameLen : Nat} {P : Platform F}

/-- `flushIntQueue` leads from `cb` to `st` and appends `segs`. -/
structure Rechunked (cb st : IntcpTransCB F nameLen) (segs : List IntcpSeg) : Prop where
  emptied : st.intQueue = []
  appended : st.intBuf = cb.intBuf ++ segs
  unsent : ∀ seg ∈ segs, seg.xmit = 0
  sized : ∀ seg ∈ segs, seg.rangeStart.toNat + 1 ≤ seg.rangeEnd.toNat ∧
    seg.rangeEnd.toNat ≤ seg.rangeStart.toNat + 1449
  same : intOffsets segs = queueOffsets cb.intQueue
  breaks : segs.IsChain Breaks
  grown : st.intBufBytes.toInt = cb.intBufBytes.toInt + intTotal segs

def Rechunks (P : Platform F) (cb : IntcpTransCB F nameLen) : Prop :=
  ∃ st segs, flushIntQueue P cb = some st ∧ Rechunked cb st segs

/-- The counter can hold what is in the queue on top of what it counts now. -/
def Countable (cb : IntcpTransCB F nameLen) : Prop :=
  cb.intBufBytes.toInt + queueSize cb.intQueue < 2 ^ 31

instance (cb : IntcpTransCB F nameLen) : Decidable (Countable cb) :=
  inferInstanceAs (Decidable (_ < _))

lemma length_intOffsets (segs : List IntcpSeg) : (intOffsets segs).length = intTotal segs := by
  simp only [intOffsets, intTotal, List.length_flatMap, length_offsets]

/-- The counter of a series of packets is their size as `int` holds it. -/
lemma rangeBytes_toInt {segs : List IntcpSeg} (packets : ∀ seg ∈ segs, Packet seg) :
    (rangeBytes segs).toInt = (intTotal segs : Int).bmod (2 ^ 32) := by
  have hword := rangeBytes_toNat packets
  have hbits : (rangeBytes segs).toInt = (rangeBytes segs).toUInt32.toBitVec.toInt := rfl
  rw [length_intOffsets] at hword
  rw [hbits, BitVec.toInt_eq_toNat_bmod, UInt32.toNat_toBitVec, hword, Int.natCast_mod]
  exact Int.emod_bmod _ _

/-- All but the counter is right in any case. -/
lemma rechunked_of_countable {cb st : IntcpTransCB F nameLen} {segs : List IntcpSeg}
    (chunking : Chunking cb st segs) (done : st.intQueue = []) (fits : Countable cb) :
    Rechunked cb st segs := by
  have hsame := chunking.offsets
  rw [done, queueOffsets, List.flatMap_nil, List.append_nil] at hsame
  have htotal : intTotal segs = queueSize cb.intQueue := by
    rw [← length_intOffsets, hsame, length_queueOffsets]
  constructor
  · exact done
  · rw [chunking.frame]
  · exact fun seg hseg => (chunking.packets seg hseg).unsent
  · intro seg hseg
    have hpacket := chunking.packets seg hseg
    exact ⟨UInt32.lt_iff_toNat_lt.mp hpacket.proper, hpacket.short⟩
  · exact hsame
  · exact chunking.breaks
  · have hlow := cb.intBufBytes.le_toInt
    rw [Countable, ← htotal] at fits
    rw [chunking.frame]
    simp only [Int32.toInt_add, rangeBytes_toInt chunking.packets]
    rw [Int.add_bmod_bmod]
    exact Int.bmod_eq_of_le (by omega) (by omega)

lemma Rechunked.countable {cb st : IntcpTransCB F nameLen} {segs : List IntcpSeg}
    (rechunked : Rechunked cb st segs) : Countable cb := by
  have htotal : intTotal segs = queueSize cb.intQueue := by
    rw [← length_intOffsets, rechunked.same, length_queueOffsets]
  have hhigh := st.intBufBytes.toInt_lt
  rw [rechunked.grown, htotal] at hhigh
  exact hhigh

/-- The queue is cut anew as it should be if and only if the counter can hold the sum. -/
theorem rechunks_iff (P : Platform F) (cb : IntcpTransCB F nameLen)
    (asked : ∀ r ∈ cb.intQueue, Asked r.startByte r.endByte) :
    Rechunks P cb ↔ Countable cb := by
  constructor
  · rintro ⟨st, segs, _, rechunked⟩
    exact rechunked.countable
  · intro hfits
    obtain ⟨st, segs, hreturns, hchunks, hdone⟩ := flushIntQueue_chunks (P := P) asked
    exact ⟨st, segs, hreturns, rechunked_of_countable hchunks hdone hfits⟩

/-- Two ranges that meet, and an earlier one queued behind them. -/
def threeRanges : IntcpTransCB Rat 1 :=
  { IntcpTransCB.create freeClock .requester #v[105] (Cache.fresh fun _ _ => 0) with
    intQueue := [⟨0, 100, 0⟩, ⟨100, 3000, 0⟩, ⟨50, 60, 0⟩] }

theorem rechunks_threeRanges : Rechunks freeClock threeRanges :=
  (rechunks_iff freeClock threeRanges (by decide +kernel)).mpr (by decide +kernel)

/-- A range of 2^31 bytes turns the counter negative. -/
theorem wide_range_miscounted :
    ¬ Rechunks freeClock { threeRanges with intQueue := [⟨0, 2147483648, 0⟩] } := by
  rintro ⟨st, segs, _, rechunked⟩
  exact absurd rechunked.countable (by decide +kernel)

end InterestChunks
