import Intcp.PendingInterests
import Intcp.SentRanges
import Intcp.Spans

/-!
# What `notifyNewData` does with the pending ranges

New data is cut out of every pending range, and what is cut out is sent. The
comparison is signed, so this is said of ranges and data shorter than 2^30.
-/

namespace InterestRelease

open Spans Words BlockCache TransControl InterestPlane CallRules PendingInterests SentRanges

universe u
variable {F : Type u} {nameLen : Nat} {P : Platform F}

def span (p : ByteRange) : Span Nat := ⟨p.startByte.toNat, p.endByte.toNat⟩

/-- A non-empty range shorter than 2^30. -/
structure Short (s e : UInt32) : Prop where
  nonempty : s < e
  short : e.toNat - s.toNat < 2 ^ 30

instance (s e : UInt32) : Decidable (Short s e) :=
  decidable_of_iff (s < e ∧ e.toNat - s.toNat < 2 ^ 30) ⟨fun h => ⟨h.1, h.2⟩, fun h => ⟨h.1, h.2⟩⟩

/-- The range and the data have a common byte. -/
def Intersects (s e : UInt32) (p : ByteRange) : Prop := p.startByte < e ∧ s < p.endByte

instance (s e : UInt32) (p : ByteRange) : Decidable (Intersects s e p) :=
  inferInstanceAs (Decidable (_ ∧ _))

/-- The pieces that replace a range: it without the data, with its time stamp. -/
structure Pieces (s e : UInt32) (p : ByteRange) (pieces : List ByteRange) : Prop where
  outside : pieces.map span = (span p).minus s.toNat e.toNat
  stamped : ∀ q ∈ pieces, q.ts = p.ts

/-- The segments of a range: chunks of the buffer over the intersection with the data. -/
def Overlap (buffer : Buffer) (s e : UInt32) (p : ByteRange) (segs : List IntcpSeg) : Prop :=
  Covers (fun o v => v = buffer (o - s).toNat) (imax p.startByte s) segs (imin p.endByte e)

/-- Every pending range is replaced in place by its pieces, and what intersects the data is
sent, range by range in order; nothing else changes. -/
def Releases (P : Platform F) (cb : IntcpTransCB F nameLen) (buffer : Buffer) (s e : UInt32) :
    Prop :=
  ∃ (pieces : List (List ByteRange)) (sent : List (List IntcpSeg)),
    List.Forall₂ (Pieces s e) cb.pendingInts pieces ∧
    List.Forall₂ (Overlap buffer s e) (cb.pendingInts.filter fun p => decide (Intersects s e p))
      sent ∧
    notifyNewData P cb buffer s e =
      { enqueueAll cb sent.flatten with pendingInts := pieces.flatten }

section OneRange

variable {p : ByteRange} {s e : UInt32} (range : Short p.startByte p.endByte) (data : Short s e)
include range data

/-- Within 2^30 the signed comparison sees every common byte. -/
lemma meetsNew_iff_intersects : MeetsNew p s e ↔ Intersects s e p := by
  have hrange := range.short
  have hdata := data.short
  have hp := UInt32.lt_iff_toNat_lt.mp range.nonempty
  have hd := UInt32.lt_iff_toNat_lt.mp data.nonempty
  rw [meetsNew_iff range.nonempty data.nonempty]
  constructor
  · exact And.left
  · rintro ⟨hstart, hend⟩
    refine ⟨⟨hstart, hend⟩, ?_, ?_⟩
    · rw [UInt32.lt_iff_toNat_lt] at hend
      omega
    · rw [UInt32.lt_iff_toNat_lt] at hstart
      omega

lemma remainder_pieces (meets : Intersects s e p) :
    Pieces s e p (remainder p (imax p.startByte s) (imin p.endByte e)) := by
  have hp := UInt32.lt_iff_toNat_lt.mp range.nonempty
  have hd := UInt32.lt_iff_toNat_lt.mp data.nonempty
  have hstart := UInt32.lt_iff_toNat_lt.mp meets.1
  have hend := UInt32.lt_iff_toNat_lt.mp meets.2
  have hmax := toNat_imax p.startByte s
  have hmin := toNat_imin p.endByte e
  have hlo : (span p).lo = p.startByte.toNat := rfl
  have hhi : (span p).hi = p.endByte.toNat := rfl
  rw [remainder]
  simp only [← UInt32.toNat_inj, ne_eq]
  constructor
  · split
    · exact (minus_inside (by omega) (by omega)).symm
    · split
      · have hcut : (imax p.startByte s).toNat = s.toNat := by omega
        simp only [List.map_cons, List.map_nil, span, hcut]
        exact (minus_head (i := span p) (by omega) (by omega) (by omega)).symm
      · have hcut : (imin p.endByte e).toNat = e.toNat := by omega
        split
        · have hfront : (imax p.startByte s).toNat = s.toNat := by omega
          simp only [List.map_cons, List.map_nil, span, hcut, hfront]
          exact (minus_split (i := span p) (by omega) (by omega) (by omega)).symm
        · simp only [List.map_cons, List.map_nil, span, hcut]
          exact (minus_tail (i := span p) (by omega) (by omega) (by omega)).symm
  · intro q hq
    split at hq
    · cases hq
    · split at hq
      · cases List.mem_singleton.mp hq
        rfl
      · split at hq
        · rcases List.mem_cons.mp hq with rfl | hlast
          · rfl
          · cases List.mem_singleton.mp hlast
            rfl
        · cases List.mem_singleton.mp hq
          rfl

lemma whole_pieces (apart : ¬ Intersects s e p) : Pieces s e p [p] := by
  have hp := UInt32.lt_iff_toNat_lt.mp range.nonempty
  have hd := UInt32.lt_iff_toNat_lt.mp data.nonempty
  have hlo : (span p).lo = p.startByte.toNat := rfl
  have hhi : (span p).hi = p.endByte.toNat := rfl
  refine ⟨?_, fun q hq => congrArg ByteRange.ts (List.mem_singleton.mp hq)⟩
  rw [Intersects, UInt32.lt_iff_toNat_lt, UInt32.lt_iff_toNat_lt, not_and_or] at apart
  rcases apart with hbehind | hahead
  · exact (minus_after (i := span p) hp (by omega) (by omega)).symm
  · exact (minus_before (i := span p) hp (by omega) (by omega)).symm

lemma left_pieces : Pieces s e p (left s e p) := by
  rw [left]
  split
  · rename_i hmeets
    exact remainder_pieces range data ((meetsNew_iff_intersects range data).mp hmeets)
  · rename_i hmeets
    exact whole_pieces range data (mt (meetsNew_iff_intersects range data).mpr hmeets)

/-- The segments that are sent for a range, from the buffer at the offset of the overlap. -/
lemma sent_overlap (buffer : Buffer) (meets : Intersects s e p) :
    Overlap buffer s e p (sentSegs P (buffer.advance (imax p.startByte s - s).toNat)
      (imax p.startByte s) (imin p.endByte e)) := by
  have hp := UInt32.lt_iff_toNat_lt.mp range.nonempty
  have hd := UInt32.lt_iff_toNat_lt.mp data.nonempty
  have hstart := UInt32.lt_iff_toNat_lt.mp meets.1
  have hend := UInt32.lt_iff_toNat_lt.mp meets.2
  have hshort := data.short
  have hmax := toNat_imax p.startByte s
  have hmin := toNat_imin p.endByte e
  have hbefore : imax p.startByte s < imin p.endByte e := by
    rw [UInt32.lt_iff_toNat_lt]
    omega
  have hfrom : s ≤ imax p.startByte s := by
    rw [UInt32.le_iff_toNat_le]
    omega
  apply (sentSegs_covers _ hbefore (by omega)).mono
  intro o v ho _ hv
  have hoffset : (imax p.startByte s - s).toNat + (o - imax p.startByte s).toNat =
      (o - s).toNat := by
    rw [toNat_sub_of_le hfrom, toNat_sub_of_le ho, toNat_sub_of_le (UInt32.le_trans hfrom ho)]
    rw [UInt32.le_iff_toNat_le] at ho hfrom
    omega
  rw [hv, Buffer.advance, hoffset]

end OneRange

/-- The loop, range by range. -/
lemma releaseInts_releases {s e : UInt32} (data : Short s e) (buffer : Buffer)
    (cb : IntcpTransCB F nameLen) {pending : List ByteRange}
    (ranges : ∀ p ∈ pending, Short p.startByte p.endByte) :
    ∃ sent : List (List IntcpSeg),
      List.Forall₂ (Overlap buffer s e) (pending.filter fun p => decide (Intersects s e p)) sent ∧
      releaseInts P buffer s e cb pending =
        (enqueueAll cb sent.flatten, pending.flatMap (left s e)) := by
  induction pending generalizing cb with
  | nil => exact ⟨[], .nil, by rw [List.flatten_nil, enqueueAll_nil]; rfl⟩
  | cons p rest ih =>
    obtain ⟨hp, hrest⟩ := List.forall_mem_cons.mp ranges
    have hmeets := meetsNew_iff_intersects hp data
    rw [releaseInts, List.flatMap_cons, left]
    by_cases meets : Intersects s e p
    · have hfirst := sent_overlap (P := P) hp data buffer meets
      rw [if_pos (hmeets.mpr meets), if_pos (hmeets.mpr meets)]
      simp only [sendData_eq]
      generalize sentSegs P (buffer.advance (imax p.startByte s - s).toNat) (imax p.startByte s)
        (imin p.endByte e) = segs at hfirst ⊢
      obtain ⟨sent, hsent, hloop⟩ := ih (enqueueAll cb segs) hrest
      refine ⟨segs :: sent, ?_, ?_⟩
      · rw [List.filter_cons_of_pos (by simpa using meets)]
        exact .cons hfirst hsent
      · rw [hloop, List.flatten_cons]
        simp only [enqueueAll, queueBytes_append, List.append_assoc, Int32.add_assoc]
    · obtain ⟨sent, hsent, hloop⟩ := ih cb hrest
      rw [if_neg (mt hmeets.mp meets), if_neg (mt hmeets.mp meets)]
      simp only [hloop]
      refine ⟨sent, ?_, rfl⟩
      rwa [List.filter_cons_of_neg (by simpa using meets)]

/-- New data releases exactly its overlaps, for pending ranges shorter than 2^30. -/
theorem notifyNewData_releases (cb : IntcpTransCB F nameLen)
    (ranges : ∀ p ∈ cb.pendingInts, Short p.startByte p.endByte) {s e : UInt32} (data : Short s e)
    (buffer : Buffer) : Releases P cb buffer s e := by
  obtain ⟨sent, hsent, hloop⟩ := releaseInts_releases (P := P) data buffer cb ranges
  refine ⟨cb.pendingInts.map (left s e), sent, ?_, hsent, ?_⟩
  · rw [List.forall₂_map_right_iff, List.forall₂_same]
    exact fun p hp => left_pieces (ranges p hp) data
  · rw [notifyNewData, hloop, List.flatMap_def]

/-- The middle of one range and the front of another. -/
theorem two_ranges_released :
    Releases freeClock { IntcpTransCB.create freeClock .responder #v[110]
      (Cache.fresh fun _ _ => 0) with pendingInts := [⟨0, 9000, 1⟩, ⟨4000, 8000, 2⟩] }
      (fun i => UInt8.ofNat i) 3000 6000 :=
  notifyNewData_releases _ (by decide) (by decide) _

end InterestRelease
