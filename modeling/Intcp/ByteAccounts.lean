import Intcp.CallRules
import Mathlib.Algebra.Order.BigOperators.Group.List
import Mathlib.Algebra.Order.Group.Nat

/-!
# Byte accounting

`sndQueueBytes` and `intBufBytes` follow their queues in every reachable state of
a node of any role. As 32-bit counters they follow without any assumption; where
the queues hold less than 2^31 bytes, and offsets stay clear of the end of the
offset space, they are the exact sums.
-/

namespace ByteAccounts

open FuelledLoop StepRuns Words BlockCache TransControl SegmentCodec DataPlane HoleTracking
  InterestPlane NodeCore CallRules

universe u
variable {F : Type u} {nameLen : Nat} {P : Platform F}

/-- The bytes of interests, as the 32-bit counter computes them. -/
def rangeBytes (segs : List IntcpSeg) : Int32 :=
  (segs.map fun seg => (seg.rangeEnd - seg.rangeStart).toInt32).sum

def sndTotal (segs : List IntcpSeg) : Nat := (segs.map fun seg => 23 + seg.len.toNat).sum

def intTotal (segs : List IntcpSeg) : Nat :=
  (segs.map fun seg => seg.rangeEnd.toNat - seg.rangeStart.toNat).sum

/-- Offsets below 2^32 - 1449. -/
def InRange (o : UInt32) : Prop := o.toNat + 1449 < 2 ^ 32

instance (o : UInt32) : Decidable (InRange o) := inferInstanceAs (Decidable (_ < _))

/-- A non-empty range with its end in range. -/
def Asked (s e : UInt32) : Prop := s < e ∧ InRange e

instance (s e : UInt32) : Decidable (Asked s e) := inferInstanceAs (Decidable (_ ∧ _))

structure Accounts (cb : IntcpTransCB F nameLen) : Prop where
  snd : cb.sndQueueBytes = queueBytes cb.sndQueue
  ints : cb.intBufBytes = rangeBytes cb.intBuf
  queue : ∀ r ∈ cb.intQueue, Asked r.startByte r.endByte
  buf : ∀ seg ∈ cb.intBuf, seg.rangeStart < seg.rangeEnd
  holes : ∀ hole ∈ cb.dataHoles, Asked hole.startByte hole.endByte

lemma rangeBytes_cons (seg : IntcpSeg) (segs : List IntcpSeg) :
    rangeBytes (seg :: segs) = (seg.rangeEnd - seg.rangeStart).toInt32 + rangeBytes segs := by
  rw [rangeBytes, List.map_cons, List.sum_cons]
  rfl

lemma rangeBytes_append (a b : List IntcpSeg) :
    rangeBytes (a ++ b) = rangeBytes a + rangeBytes b := by
  induction a with
  | nil => simp [rangeBytes]
  | cons seg a ih =>
    rw [List.cons_append, rangeBytes_cons, rangeBytes_cons, ih]
    grind

lemma rangeBytes_single (seg : IntcpSeg) :
    rangeBytes [seg] = (seg.rangeEnd - seg.rangeStart).toInt32 := by
  rw [rangeBytes_cons]
  simp [rangeBytes]

/-- The send counter is exact while the queue holds less than 2^31 bytes. -/
lemma queueBytes_exact (segs : List IntcpSeg) (small : sndTotal segs < 2 ^ 31) :
    (queueBytes segs).toInt = sndTotal segs := by
  have hlen : ∀ seg ∈ segs, (wireLen seg).toNat = 23 + seg.len.toNat := by
    intro seg hseg
    have hle : 23 + seg.len.toNat ≤ sndTotal segs :=
      List.single_le_sum (by simp) _ (List.mem_map_of_mem hseg)
    exact toNat_add_small (by simp only [intcpOverhead, UInt32.reduceToNat]; omega)
  have hwords : (segs.map wireLen).map UInt32.toNat = segs.map fun seg => 23 + seg.len.toNat := by
    rw [List.map_map]
    exact List.map_congr_left hlen
  have hsum := toInt_sum_words (segs.map wireLen) (by rw [hwords]; exact small)
  rw [hwords, List.map_map] at hsum
  exact hsum

/-- The interest counter is exact while the buffer holds less than 2^31 bytes. -/
lemma rangeBytes_exact (segs : List IntcpSeg)
    (proper : ∀ seg ∈ segs, seg.rangeStart < seg.rangeEnd) (small : intTotal segs < 2 ^ 31) :
    (rangeBytes segs).toInt = intTotal segs := by
  have hwords : (segs.map fun seg => seg.rangeEnd - seg.rangeStart).map UInt32.toNat =
      segs.map fun seg => seg.rangeEnd.toNat - seg.rangeStart.toNat := by
    rw [List.map_map]
    exact List.map_congr_left fun seg hseg =>
      Words.toNat_sub_of_le (UInt32.le_of_lt (proper seg hseg))
  have hsum := toInt_sum_words (segs.map fun seg => seg.rangeEnd - seg.rangeStart)
    (by rw [hwords]; exact small)
  rw [hwords, List.map_map] at hsum
  exact hsum

lemma accounts_enqueueAll {cb : IntcpTransCB F nameLen} (acc : Accounts cb)
    (segs : List IntcpSeg) : Accounts (enqueueAll cb segs) := by
  refine ⟨?_, acc.ints, acc.queue, acc.buf, acc.holes⟩
  simp only [enqueueAll]
  rw [acc.snd, queueBytes_append]

lemma accounts_outputInt {cb : IntcpTransCB F nameLen} (acc : Accounts cb) (s e : UInt32) :
    Accounts (outputInt P cb s e) := by
  rw [outputInt_eq]
  exact ⟨acc.snd, acc.ints, acc.queue, acc.buf, acc.holes⟩

lemma accounts_request {cb : IntcpTransCB F nameLen} (acc : Accounts cb) (s : UInt32) {e : UInt32}
    (bound : InRange e) : Accounts (request P cb s e).2 := by
  simp only [request]
  split
  · exact acc
  · rename_i hproper
    split
    · exact ⟨acc.snd, acc.ints, acc.queue, acc.buf, acc.holes⟩
    · refine ⟨acc.snd, acc.ints, ?_, acc.buf, acc.holes⟩
      intro r hr
      rcases List.mem_append.mp hr with hr | hr
      · exact acc.queue r hr
      · obtain rfl := List.mem_singleton.mp hr
        exact ⟨UInt32.not_le.mp hproper, bound⟩

lemma accounts_tick {cb : IntcpTransCB F nameLen} (acc : Accounts cb) : Accounts (tick cb) :=
  ⟨acc.snd, acc.ints, acc.queue, acc.buf, acc.holes⟩

lemma accounts_parseInt {cb : IntcpTransCB F nameLen} (acc : Accounts cb) (s : UInt32) {e : UInt32}
    (bound : InRange e) : Accounts (parseInt P cb s e) := by
  apply parseInt_rule Accounts _ _ s e _ _ _ _ acc
  · intro cb s e h
    exact ⟨h.snd, h.ints, h.queue, h.buf, h.holes⟩
  · intro cb buffer start stop h
    exact accounts_enqueueAll h _
  · intro cb ir h _
    exact ⟨h.snd, h.ints, h.queue, h.buf, h.holes⟩
  · intro cb h
    exact accounts_tick h
  · intro cb s h _
    exact accounts_outputInt h s e
  · intro cb s h _ _
    exact accounts_request h s bound

lemma asked_cutHoles {rangeStart rangeEnd : UInt32} {holes : List Hole}
    (asked : ∀ hole ∈ holes, Asked hole.startByte hole.endByte) :
    ∀ hole ∈ cutHoles rangeStart rangeEnd holes, Asked hole.startByte hole.endByte := by
  induction holes with
  | nil => simp [cutHoles]
  | cons hole rest ih =>
    obtain ⟨hproper, hrange⟩ := asked hole List.mem_cons_self
    have hrest := ih fun h hh => asked h (List.mem_cons_of_mem _ hh)
    simp only [Asked, InRange, UInt32.lt_iff_toNat_lt] at *
    rw [cutHoles]
    simp only [ge_iff_le, UInt32.le_iff_toNat_le]
    split
    · exact asked
    · split
      · exact List.forall_mem_cons.mpr ⟨⟨hproper, hrange⟩, hrest⟩
      · split
        · split
          · exact hrest
          · refine List.forall_mem_cons.mpr ⟨⟨?_, ?_⟩, hrest⟩ <;> simp only <;> omega
        · split
          · refine List.forall_mem_cons.mpr ⟨⟨?_, ?_⟩, hrest⟩ <;> simp only <;> omega
          · refine List.forall_mem_cons.mpr ⟨⟨?_, ?_⟩, List.forall_mem_cons.mpr ⟨⟨?_, ?_⟩, hrest⟩⟩ <;>
              simp only <;> omega

lemma accounts_deleteDataHole {cb : IntcpTransCB F nameLen} (acc : Accounts cb) (s e : UInt32) :
    Accounts (deleteDataHole cb s e) :=
  ⟨acc.snd, acc.ints, acc.queue, acc.buf, asked_cutHoles acc.holes⟩

lemma accounts_detectDataHole {cb : IntcpTransCB F nameLen} (acc : Accounts cb) {s : UInt32}
    (e : UInt32) (bound : InRange s) : Accounts (detectDataHole P cb s e).2 := by
  simp only [detectDataHole]
  by_cases heq : s = cb.dataNextRangeStart
  · rw [if_pos heq]
    exact ⟨acc.snd, acc.ints, acc.queue, acc.buf, acc.holes⟩
  · by_cases hlt : s < cb.dataNextRangeStart
    · rw [if_neg heq, if_pos hlt]
      exact accounts_deleteDataHole acc s e
    · by_cases habnormal : AbnormalHole cb.dataNextRangeStart s
      · rw [if_neg heq, if_neg hlt, if_pos habnormal]
        exact ⟨acc.snd, acc.ints, acc.queue, acc.buf, acc.holes⟩
      · have hnew : Accounts (insertDataHole P cb cb.dataNextRangeStart s) := by
          refine ⟨acc.snd, acc.ints, acc.queue, acc.buf, ?_⟩
          intro hole hh
          rcases List.mem_append.mp hh with hh | hh
          · exact acc.holes hole hh
          · obtain rfl := List.mem_singleton.mp hh
            exact ⟨by grind, bound⟩
        rw [if_neg heq, if_neg hlt, if_neg habnormal]
        by_cases hrole : (insertDataHole P cb cb.dataNextRangeStart s).nodeRole = .midnode
        · have hsent := accounts_enqueueAll hnew
            [pushSeg P cb.dataNextRangeStart s 0 [] length_header]
          rw [if_pos hrole, sendDataHeader, enqueue_eq]
          exact ⟨hsent.snd, hsent.ints, hsent.queue, hsent.buf, hsent.holes⟩
        · rw [if_neg hrole]
          exact ⟨hnew.snd, hnew.ints, hnew.queue, hnew.buf, hnew.holes⟩

/-- Splitting an interest changes neither its bytes nor makes an empty piece. -/
lemma splitInt_accounts {seg : IntcpSeg} {s e : UInt32} (current : UInt32) (proper : s < e)
    (meets : seg.rangeStart < e ∧ s < seg.rangeEnd) (whole : seg.rangeStart < seg.rangeEnd) :
    rangeBytes (splitInt seg s e current) = rangeBytes [seg] ∧
      ∀ piece ∈ splitInt seg s e current, piece.rangeStart < piece.rangeEnd := by
  obtain ⟨hstart, hend⟩ := meets
  rw [splitInt]
  split
  · split
    · exact ⟨by simp only [rangeBytes_single], by simpa using whole⟩
    · refine ⟨by simp only [rangeBytes_cons, UInt32.toInt32_sub]; grind, ?_⟩
      simp only [List.forall_mem_cons, List.not_mem_nil, false_implies, implies_true, and_true]
      constructor <;> grind
  · split
    · refine ⟨by simp only [rangeBytes_cons, UInt32.toInt32_sub]; grind, ?_⟩
      simp only [List.forall_mem_cons, List.not_mem_nil, false_implies, implies_true, and_true]
      constructor <;> grind
    · refine ⟨by simp only [rangeBytes_cons, UInt32.toInt32_sub]; grind, ?_⟩
      simp only [List.forall_mem_cons, List.not_mem_nil, false_implies, implies_true, and_true]
      refine ⟨?_, ?_, ?_⟩ <;> grind

lemma splitInts_accounts {s e : UInt32} (proper : s < e) (cb : IntcpTransCB F nameLen)
    {segs : List IntcpSeg} (whole : ∀ seg ∈ segs, seg.rangeStart < seg.rangeEnd) :
    rangeBytes (splitInts P s e cb segs).2 = rangeBytes segs ∧
      ∀ piece ∈ (splitInts P s e cb segs).2, piece.rangeStart < piece.rangeEnd := by
  induction segs generalizing cb with
  | nil => exact ⟨rfl, by simp [splitInts]⟩
  | cons seg rest ih =>
    have hseg := whole seg List.mem_cons_self
    have hrest := fun cb => ih cb fun x hx => whole x (List.mem_cons_of_mem _ hx)
    rw [splitInts]
    split
    · exact ⟨rfl, whole⟩
    · rename_i hstart
      split
      · refine ⟨?_, List.forall_mem_cons.mpr ⟨hseg, (hrest cb).2⟩⟩
        simp only [rangeBytes_cons, (hrest cb).1]
      · rename_i hend
        obtain ⟨hbytes, hpieces⟩ := splitInt_accounts (getMillisec P cb) proper
          ⟨UInt32.not_le.mp hstart, UInt32.not_le.mp hend⟩ hseg
        constructor
        · rw [rangeBytes_append, hbytes, (hrest (tick cb)).1, rangeBytes_single, rangeBytes_cons]
        · intro piece hp
          rcases List.mem_append.mp hp with hp | hp
          · exact hpieces piece hp
          · exact (hrest (tick cb)).2 piece hp

lemma accounts_updateIntBuf {cb : IntcpTransCB F nameLen} (acc : Accounts cb) {s e : UInt32}
    (proper : s < e) : Accounts (updateIntBuf P cb s e) := by
  obtain ⟨hbytes, hpieces⟩ := splitInts_accounts (P := P) proper cb acc.buf
  obtain ⟨n, hn⟩ := splitInts_reads (P := P) s e cb cb.intBuf
  refine ⟨?_, ?_, ?_, hpieces, ?_⟩ <;> simp only [updateIntBuf, hn]
  · exact acc.snd
  · rw [hbytes]
    exact acc.ints
  · exact acc.queue
  · exact acc.holes

/-- Where a range that joins an interest is cut. -/
lemma toNat_joined {rangeStart : UInt32} (bound : InRange rangeStart) (e : UInt32) :
    (imin e (rangeStart + intcpIntRangeLimit)).toNat = min e.toNat (rangeStart.toNat + 1449) := by
  have hlimit : (rangeStart + intcpIntRangeLimit).toNat = rangeStart.toNat + 1449 :=
    toNat_add_small bound
  rw [toNat_imin, hlimit]

/-- Coalescing only extends the interest, and leaves non-empty ranges. -/
lemma coalesce_spec {rangeStart : UInt32} (bound : InRange rangeStart) {queue : List ByteRange}
    (asked : ∀ r ∈ queue, Asked r.startByte r.endByte) {rangeEnd : UInt32}
    (low : rangeStart.toNat ≤ rangeEnd.toNat)
    (high : rangeEnd.toNat ≤ rangeStart.toNat + 1449) :
    rangeEnd.toNat ≤ (coalesce rangeStart rangeEnd queue).1.toNat ∧
      (coalesce rangeStart rangeEnd queue).1.toNat ≤ rangeStart.toNat + 1449 ∧
      ∀ r ∈ (coalesce rangeStart rangeEnd queue).2, Asked r.startByte r.endByte := by
  induction queue generalizing rangeEnd with
  | nil => exact ⟨Nat.le_refl _, high, by simp [coalesce]⟩
  | cons r rest ih =>
    obtain ⟨hr, hrange⟩ := asked r List.mem_cons_self
    have hrest : ∀ q ∈ rest, Asked q.startByte q.endByte :=
      fun q hq => asked q (List.mem_cons_of_mem _ hq)
    rw [coalesce]
    split
    · rename_i hjoin
      have hproper := UInt32.lt_iff_toNat_lt.mp hr
      rw [hjoin] at hproper
      have hmin := toNat_joined bound r.endByte
      simp only
      split
      · have hlow : rangeStart.toNat ≤
            (imin r.endByte (rangeStart + intcpIntRangeLimit)).toNat := by omega
        obtain ⟨h1, h2, h3⟩ := ih hrest hlow (by omega)
        exact ⟨by omega, h2, h3⟩
      · rename_i hcut
        simp only
        refine ⟨by omega, by omega, ?_⟩
        rw [UInt32.not_le] at hcut
        exact List.forall_mem_cons.mpr ⟨⟨hcut, hrange⟩, hrest⟩
    · exact ⟨Nat.le_refl _, high, asked⟩

/-- The first entry of the queue always joins, so an interest is never empty. -/
lemma coalesce_proper {r : ByteRange} {rest : List ByteRange} (bound : InRange r.startByte)
    (asked : ∀ q ∈ r :: rest, Asked q.startByte q.endByte) :
    r.startByte < (coalesce r.startByte r.startByte (r :: rest)).1 := by
  obtain ⟨hr, _⟩ := asked r List.mem_cons_self
  rw [UInt32.lt_iff_toNat_lt] at hr ⊢
  have hmin := toNat_joined bound r.endByte
  have hrest : ∀ q ∈ rest, Asked q.startByte q.endByte :=
    fun q hq => asked q (List.mem_cons_of_mem _ hq)
  rw [coalesce, if_pos rfl]
  simp only
  split
  · have hlow : r.startByte.toNat ≤
        (imin r.endByte (r.startByte + intcpIntRangeLimit)).toNat := by omega
    have hfar := (coalesce_spec bound hrest hlow (by omega)).1
    omega
  · simp only
    omega

lemma accounts_queuePass {cb cb' : IntcpTransCB F nameLen} (acc : Accounts cb)
    (h : queuePass P cb = .again cb') : Accounts cb' := by
  rw [queuePass] at h
  split at h
  · cases h
  · rename_i r rest hqueue
    cases h
    have hasked := acc.queue
    rw [hqueue] at hasked
    obtain ⟨hr, hrange⟩ := hasked r List.mem_cons_self
    have hbound : InRange r.startByte := by
      simp only [InRange, UInt32.lt_iff_toNat_lt] at *
      omega
    have hspec := coalesce_spec hbound hasked (Nat.le_refl _) (Nat.le_add_right _ _)
    refine ⟨acc.snd, ?_, hspec.2.2, ?_, acc.holes⟩
    · rw [rangeBytes_append, rangeBytes_single, ← acc.ints]
    · intro seg hseg
      rcases List.mem_append.mp hseg with hseg | hseg
      · exact acc.buf seg hseg
      · obtain rfl := List.mem_singleton.mp hseg
        exact coalesce_proper hbound hasked

lemma accounts_flushIntQueue {cb cb' : IntcpTransCB F nameLen} (acc : Accounts cb)
    (h : flushIntQueue P cb = some cb') : Accounts cb' := by
  refine loop_invariant Accounts Accounts (fun _ _ hs hb => accounts_queuePass hs hb) ?_ acc h
  intro s r hs hb
  rw [queuePass] at hb
  split at hb <;> cases hb
  exact hs

/-- The accounts where `segs` stands for the buffer. -/
def AccountsWith (cb : IntcpTransCB F nameLen) (segs : List IntcpSeg) : Prop :=
  Accounts { cb with intBuf := segs }

lemma accountsWith_sendInt {cb : IntcpTransCB F nameLen} {segs : List IntcpSeg}
    (acc : AccountsWith cb segs) (seg : IntcpSeg) : AccountsWith (sendInt P cb seg) segs := by
  rw [sendInt, outputInt_eq]
  exact ⟨acc.snd, acc.ints, acc.queue, acc.buf, asked_cutHoles acc.holes⟩

lemma accountsWith_chargeLimit {cb : IntcpTransCB F nameLen} {segs : List IntcpSeg}
    (acc : AccountsWith cb segs) (size : UInt32) : AccountsWith (chargeLimit cb size) segs := by
  rw [chargeLimit]
  split
  · exact ⟨acc.snd, acc.ints, acc.queue, acc.buf, acc.holes⟩
  · exact acc

lemma accountsWith_tick {cb : IntcpTransCB F nameLen} {segs : List IntcpSeg}
    (acc : AccountsWith cb segs) : AccountsWith (tick cb) segs :=
  ⟨acc.snd, acc.ints, acc.queue, acc.buf, acc.holes⟩

/-- Erasing a segment takes its bytes off the counter. -/
lemma accountsWith_erase {cb : IntcpTransCB F nameLen} {kept rest : List IntcpSeg} {seg : IntcpSeg}
    (acc : AccountsWith cb (kept ++ seg :: rest)) :
    AccountsWith
      { cb with intBufBytes := (cb.intBufBytes.toUInt32 - (seg.rangeEnd - seg.rangeStart)).toInt32 }
      (kept ++ rest) := by
  refine ⟨acc.snd, ?_, acc.queue, ?_, acc.holes⟩
  · have hbytes : cb.intBufBytes = rangeBytes (kept ++ seg :: rest) := acc.ints
    simp only [hbytes, rangeBytes_append, rangeBytes_cons, UInt32.toInt32_sub, Int32.toInt32_toUInt32]
    grind
  · intro s hs
    refine acc.buf s ?_
    rcases List.mem_append.mp hs with hs | hs
    · exact List.mem_append_left _ hs
    · exact List.mem_append_right _ (List.mem_cons_of_mem _ hs)

/-- A segment that was sent again keeps its range. -/
lemma accountsWith_resend {cb : IntcpTransCB F nameLen} {kept rest : List IntcpSeg}
    {seg seg' : IntcpSeg} (acc : AccountsWith cb (kept ++ seg :: rest))
    (same : seg'.rangeStart = seg.rangeStart ∧ seg'.rangeEnd = seg.rangeEnd) :
    AccountsWith cb (kept ++ [seg'] ++ rest) := by
  refine ⟨acc.snd, ?_, acc.queue, ?_, acc.holes⟩
  · have hbytes : cb.intBufBytes = rangeBytes (kept ++ seg :: rest) := acc.ints
    rw [List.append_assoc, List.singleton_append, rangeBytes_append, rangeBytes_cons, same.1, same.2,
      ← rangeBytes_cons, ← rangeBytes_append]
    exact hbytes
  · intro s hs
    rw [List.append_assoc, List.singleton_append] at hs
    rcases List.mem_append.mp hs with hs | hs
    · exact acc.buf s (List.mem_append_left _ hs)
    · rcases List.mem_cons.mp hs with rfl | hs
      · have hseg : seg.rangeStart < seg.rangeEnd := acc.buf seg (by simp)
        rw [same.1, same.2]
        exact hseg
      · exact acc.buf s (List.mem_append_right _ (List.mem_cons_of_mem _ hs))

lemma accountsWith_flushInts {fl : IntFlush F nameLen} {segs : List IntcpSeg}
    (acc : AccountsWith fl.cb (fl.kept ++ segs)) :
    AccountsWith (flushInts P fl segs).cb (flushInts P fl segs).kept := by
  have hend : AccountsWith (flushInts P fl segs).cb ((flushInts P fl segs).kept ++ []) := by
    apply flushInts_rule (fun fl rest => AccountsWith fl.cb (fl.kept ++ rest)) _ _ _ _ _ acc
    · intro fl seg rest h
      rw [List.append_assoc, List.singleton_append]
      exact accountsWith_tick h
    · intro fl seg rest h _
      rw [List.append_nil]
      exact accountsWith_tick h
    · intro fl seg rest size h _
      rw [List.append_nil]
      have hcharged := accountsWith_chargeLimit (accountsWith_tick h) size
      exact ⟨hcharged.snd, hcharged.ints, hcharged.queue, hcharged.buf, hcharged.holes⟩
    · intro fl seg rest n h _
      exact accountsWith_erase (accountsWith_sendInt (accountsWith_tick h) seg)
    · intro fl seg rest n size ts h _
      have hsent := accountsWith_sendInt (P := P)
        (accountsWith_chargeLimit (accountsWith_tick h) size) seg
      exact accountsWith_resend hsent ⟨rfl, rfl⟩
  rwa [List.append_nil] at hend

lemma accounts_sendInts {cb : IntcpTransCB F nameLen} (acc : Accounts cb) (newOutput : Int32) :
    Accounts (sendInts P cb newOutput) := by
  have hsent : AccountsWith (flushInts P ⟨cb, [], 0, false⟩ cb.intBuf).cb
      (flushInts P ⟨cb, [], 0, false⟩ cb.intBuf).kept := accountsWith_flushInts acc
  simp only [sendInts]
  split
  · exact hsent
  · exact ⟨hsent.snd, hsent.ints, hsent.queue, hsent.buf, hsent.holes⟩

lemma accounts_flushIntBuf {cb : IntcpTransCB F nameLen} (acc : Accounts cb) :
    Accounts (flushIntBuf P cb) := by
  rw [flushIntBuf]
  split
  · exact acc
  · apply accounts_sendInts
    exact ⟨acc.snd, acc.ints, acc.queue, acc.buf, acc.holes⟩

lemma accounts_flushDataHoles {cb : IntcpTransCB F nameLen} (acc : Accounts cb) :
    Accounts (flushDataHoles P cb) := by
  have hflushed : Accounts (flushHoles P (getMillisec P cb) (tick cb) cb.dataHoles).1 := by
    apply flushHoles_rule Accounts _ _ _ _ _ (accounts_tick acc)
    · intro cb b h
      exact ⟨h.snd, h.ints, h.queue, h.buf, h.holes⟩
    · intro cb hole hh h
      exact accounts_parseInt h _ (acc.holes hole hh).2
    · intro cb hole hh h _
      exact accounts_updateIntBuf h (acc.holes hole hh).1
  have hkept := flushHoles_sublist (P := P) (getMillisec P cb) (tick cb) cb.dataHoles
  exact ⟨hflushed.snd, hflushed.ints, hflushed.queue, hflushed.buf,
    fun hole hh => acc.holes hole (hkept.subset hh)⟩

/-- A segment leaves the queue with its bytes. -/
lemma accounts_flushSeg {fl : Flushing F nameLen} {seg : IntcpSeg} {rest : List IntcpSeg}
    (kept : Accounts fl.cb ∧ fl.cb.sndQueue = seg :: rest) :
    Accounts (flushSeg P fl seg).cb ∧ (flushSeg P fl seg).cb.sndQueue = rest := by
  obtain ⟨acc, hqueue⟩ := kept
  obtain ⟨limit, out, hcb⟩ := flushSeg_cb (P := P) fl seg
  have hbytes : fl.cb.sndQueueBytes = queueBytes (seg :: rest) := hqueue ▸ acc.snd
  rw [hcb]
  refine ⟨⟨?_, acc.ints, acc.queue, acc.buf, acc.holes⟩, ?_⟩ <;> simp only [hqueue, List.tail_cons]
  rw [hbytes, queueBytes_cons, wireLen, UInt32.toInt32_sub, Int32.toInt32_toUInt32, UInt32.add_comm]
  grind

lemma accounts_flushData {cb : IntcpTransCB F nameLen} (acc : Accounts cb) :
    Accounts (flushData P cb) := by
  simp only [flushData, output_requester]
  generalize hstart : Flushing.mk _ [] = fl
  have hfl : Accounts fl.cb ∧ fl.cb.sndQueue = cb.sndQueue := by
    rw [← hstart]
    exact ⟨⟨acc.snd, acc.ints, acc.queue, acc.buf, acc.holes⟩, rfl⟩
  obtain ⟨rest, hflushed, _⟩ := flushSegs_rule (P := P)
    (fun fl rest => Accounts fl.cb ∧ fl.cb.sndQueue = rest)
    (fun _ _ _ h => accounts_flushSeg h) hfl
  exact ⟨hflushed.snd, hflushed.ints, hflushed.queue, hflushed.buf, hflushed.holes⟩

/-- The ranges that a call brings in are in range. -/
def BoundedCall (P : Platform F) : Op nameLen → Prop
  | .input data => ∀ s ∈ (decode P.raw data).2, InRange s.rangeStart ∧ InRange s.rangeEnd
  | .request _ e => InRange e
  | .parseInt _ e => InRange e
  | _ => True

instance (P : Platform F) : ∀ op : Op nameLen, Decidable (BoundedCall P op)
  | .input data => inferInstanceAs
      (Decidable (∀ s ∈ (decode P.raw data).2, InRange s.rangeStart ∧ InRange s.rangeEnd))
  | .request _ e => inferInstanceAs (Decidable (InRange e))
  | .parseInt _ e => inferInstanceAs (Decidable (InRange e))
  | .notifyNewData _ _ _ => inferInstanceAs (Decidable True)
  | .insertData _ _ _ => inferInstanceAs (Decidable True)
  | .sendData _ _ _ => inferInstanceAs (Decidable True)
  | .sendDataHeader _ _ => inferInstanceAs (Decidable True)
  | .parseData _ _ => inferInstanceAs (Decidable True)
  | .recv _ => inferInstanceAs (Decidable True)
  | .flush => inferInstanceAs (Decidable True)
  | .update => inferInstanceAs (Decidable True)
  | .cacheInsert _ _ _ _ => inferInstanceAs (Decidable True)
  | .cacheRead _ _ _ => inferInstanceAs (Decidable True)

lemma accounts_parseData {cb : IntcpTransCB F nameLen} (acc : Accounts cb) (seg : IntcpSeg)
    (header : Bool) : Accounts (parseData cb seg header) := by
  have hsent : Accounts (if cb.nodeRole ≠ .requester then enqueue cb seg else cb) := by
    split
    · rw [enqueue_eq]
      exact accounts_enqueueAll acc [seg]
    · exact acc
  simp only [parseData]
  cases header with
  | true => exact hsent
  | false => exact ⟨hsent.snd, hsent.ints, hsent.queue, hsent.buf, hsent.holes⟩

lemma accounts_inputInt {cb : IntcpTransCB F nameLen} (acc : Accounts cb) {s : IntcpSeg}
    (bound : InRange s.rangeEnd) : Accounts (inputInt P cb s) := by
  simp only [inputInt]
  split
  · exact ⟨acc.snd, acc.ints, acc.queue, acc.buf, acc.holes⟩
  · apply accounts_parseInt _ _ bound
    exact ⟨acc.snd, acc.ints, acc.queue, acc.buf, acc.holes⟩

lemma accounts_inputPush {cb : IntcpTransCB F nameLen} (acc : Accounts cb) (current : UInt32)
    {s : IntcpSeg} (bound : InRange s.rangeStart) : Accounts (inputPush P cb current s).2 := by
  have hmeasured : Accounts (measureHop P cb current s) := by
    apply measureHop_rule Accounts _ _ _ acc
    · intro cb h
      exact accounts_tick h
    · intro cb cc rest h
      exact ⟨h.snd, h.ints, h.queue, h.buf, h.holes⟩
    · intro cb h _
      exact accounts_outputInt h 0 0
  have hdetected : Accounts (detect P (measureHop P cb current s) s) := by
    have h := accounts_detectDataHole (P := P) hmeasured s.rangeEnd bound
    rw [detect]
    exact ⟨h.snd, h.ints, h.queue, h.buf, h.holes⟩
  simp only [inputPush]
  split
  · exact accounts_parseData hdetected (rebuilt P s) true
  · split
    · exact hdetected
    · exact accounts_parseData hdetected (rebuilt P s) false

lemma accounts_input {cb : IntcpTransCB F nameLen} (acc : Accounts cb) {data : List UInt8}
    (bounded : ∀ s ∈ (decode P.raw data).2, InRange s.rangeStart ∧ InRange s.rangeEnd) :
    Accounts (input P cb data).2 := by
  apply input_rule Accounts _ _ _ _ data bounded acc
  · intro cb h
    exact accounts_tick h
  · intro cb s h hbound _
    exact accounts_inputInt h hbound.2
  · intro cb current s h hbound _
    exact accounts_inputPush h current hbound.1

lemma accounts_notifyNewData {cb : IntcpTransCB F nameLen} (acc : Accounts cb) (buffer : Buffer)
    (s e : UInt32) : Accounts (notifyNewData P cb buffer s e) := by
  have h : Accounts (releaseInts P buffer s e cb cb.pendingInts).1 := by
    apply releaseInts_rule Accounts _ _ _ _ acc
    intro cb buffer start stop h
    exact accounts_enqueueAll h _
  exact ⟨h.snd, h.ints, h.queue, h.buf, h.holes⟩

lemma accounts_recv {cb : IntcpTransCB F nameLen} (acc : Accounts cb) (maxBufSize : Int32) :
    Accounts (recv cb maxBufSize).2 := by
  have hqueue : ∀ queue, Accounts { cb with rcvQueue := queue } :=
    fun _ => ⟨acc.snd, acc.ints, acc.queue, acc.buf, acc.holes⟩
  rw [recv]
  split
  · exact acc
  · split
    · split
      · exact hqueue _
      · split
        · exact hqueue _
        · exact acc
    · exact hqueue _

lemma accounts_flush {cb cb' : IntcpTransCB F nameLen} (acc : Accounts cb)
    (h : flush P cb = some cb') : Accounts cb' := by
  apply flush_rule Accounts _ _ _ _ _ _ acc h
  · intro cb h
    exact accounts_tick h
  · intro cb cb' h _ hqueue
    exact accounts_flushIntQueue h hqueue
  · intro cb h
    exact accounts_flushIntBuf h
  · intro cb h _
    exact accounts_flushDataHoles h
  · intro cb h _
    exact accounts_flushData h
  · intro cb ts h
    exact ⟨h.snd, h.ints, h.queue, h.buf, h.holes⟩

lemma accounts_update {cb cb' : IntcpTransCB F nameLen} (acc : Accounts cb)
    (h : update P cb = some cb') : Accounts cb' := by
  apply update_rule Accounts _ _ _ _ acc h
  · intro cb h
    exact accounts_tick h
  · intro cb now h
    exact ⟨h.snd, h.ints, h.queue, h.buf, h.holes⟩
  · intro cb updated next h
    exact ⟨h.snd, h.ints, h.queue, h.buf, h.holes⟩
  · intro cb cb' h hflush
    exact accounts_flush h hflush

/-- Every call with ranges in bounds keeps the accounts. -/
theorem step_accounts {op : Op nameLen} {cb cb' : IntcpTransCB F nameLen}
    (bounded : BoundedCall P op) (acc : Accounts cb) (h : op.step P cb = some cb') :
    Accounts cb' := by
  rw [Op.step] at h
  split at h
  · cases h
    exact acc
  · cases op with
    | input data =>
      cases h
      exact accounts_input acc bounded
    | request s e =>
      cases h
      exact accounts_request acc s bounded
    | parseInt s e =>
      cases h
      exact accounts_parseInt acc s bounded
    | notifyNewData buffer s e =>
      cases h
      exact accounts_notifyNewData acc buffer s e
    | insertData buffer s e =>
      obtain ⟨cache, _, rfl⟩ := Option.map_eq_some_iff.mp h
      apply accounts_notifyNewData
      exact ⟨acc.snd, acc.ints, acc.queue, acc.buf, acc.holes⟩
    | sendData buffer s e =>
      cases h
      rw [sendData_eq]
      exact accounts_enqueueAll acc _
    | sendDataHeader s e =>
      cases h
      rw [sendDataHeader, enqueue_eq]
      exact accounts_enqueueAll acc _
    | parseData seg header =>
      cases h
      exact accounts_parseData acc seg header
    | recv maxBufSize =>
      cases h
      exact accounts_recv acc maxBufSize
    | flush => exact accounts_flush acc h
    | update => exact accounts_update acc h
    | cacheInsert name s e dataBuf =>
      obtain ⟨cache, _, rfl⟩ := Option.map_eq_some_iff.mp h
      exact ⟨acc.snd, acc.ints, acc.queue, acc.buf, acc.holes⟩
    | cacheRead name s e =>
      cases h
      exact ⟨acc.snd, acc.ints, acc.queue, acc.buf, acc.holes⟩

lemma accounts_create (role : Role) (nameChars : Vector UInt8 nameLen) (cache : Cache nameLen) :
    Accounts (IntcpTransCB.create P role nameChars cache) :=
  ⟨rfl, rfl, by simp [IntcpTransCB.create], by simp [IntcpTransCB.create],
    by simp [IntcpTransCB.create]⟩

/-- A total of positive sizes is zero only over nothing. -/
lemma sum_map_eq_zero_iff {α : Type} {size : α → Nat} {l : List α} (pos : ∀ x ∈ l, 0 < size x) :
    (l.map size).sum = 0 ↔ l = [] := by
  cases l with
  | nil => simp
  | cons x l =>
    have hx := pos x List.mem_cons_self
    simp only [List.map_cons, List.sum_cons, reduceCtorEq, iff_false]
    omega

/-- In every reachable state the counters are the sums over their queues. -/
theorem run_byteAccounts (P : Platform F) (role : Role) (nameChars : Vector UInt8 nameLen)
    (cache : Cache nameLen) (ops : List (Op nameLen)) {cb : IntcpTransCB F nameLen}
    (bounded : ∀ op ∈ ops, BoundedCall P op)
    (hrun : run (Op.step P) (IntcpTransCB.create P role nameChars cache) ops = some cb)
    (sndSmall : sndTotal cb.sndQueue < 2 ^ 31) (intSmall : intTotal cb.intBuf < 2 ^ 31) :
    cb.sndQueueBytes.toInt = sndTotal cb.sndQueue ∧ cb.intBufBytes.toInt = intTotal cb.intBuf ∧
      0 ≤ cb.sndQueueBytes.toInt ∧ 0 ≤ cb.intBufBytes.toInt ∧
      (cb.sndQueueBytes = 0 ↔ cb.sndQueue = []) ∧ (cb.intBufBytes = 0 ↔ cb.intBuf = []) := by
  have acc : Accounts cb := run_invariant_all Accounts
    (fun _ _ op h hgood hstep => step_accounts hgood h hstep)
    (accounts_create role nameChars cache) bounded hrun
  have hsnd : cb.sndQueueBytes.toInt = sndTotal cb.sndQueue := by
    rw [acc.snd]
    exact queueBytes_exact _ sndSmall
  have hint : cb.intBufBytes.toInt = intTotal cb.intBuf := by
    rw [acc.ints]
    exact rangeBytes_exact _ acc.buf intSmall
  have hsndNil : sndTotal cb.sndQueue = 0 ↔ cb.sndQueue = [] :=
    sum_map_eq_zero_iff fun _ _ => by omega
  have hintNil : intTotal cb.intBuf = 0 ↔ cb.intBuf = [] := by
    apply sum_map_eq_zero_iff
    intro seg hseg
    have hproper := UInt32.lt_iff_toNat_lt.mp (acc.buf seg hseg)
    omega
  have hzero : ∀ x : Int32, x = 0 ↔ x.toInt = 0 := fun x => Int32.toInt_inj.symm
  refine ⟨hsnd, hint, by omega, by omega, ?_, ?_⟩
  · rw [hzero, hsnd, ← hsndNil]
    exact Int.natCast_eq_zero
  · rw [hzero, hint, ← hintNil]
    exact Int.natCast_eq_zero

def twoRequests : List (Op 1) :=
  [.request 0 3000, .update, .input (encodeSeg (pushSeg freeClock 100 200 0 [] length_header)),
    .request 4000 4100, .update]

/-- A requester that asks for two ranges and receives a header between. -/
theorem run_byteAccounts_requests :
    ∃ cb, run (Op.step freeClock) (IntcpTransCB.create freeClock .requester #v[110]
        (Cache.fresh fun _ _ => 0)) twoRequests = some cb ∧
      cb.sndQueueBytes.toInt = sndTotal cb.sndQueue ∧ cb.intBufBytes.toInt = intTotal cb.intBuf ∧
      0 ≤ cb.sndQueueBytes.toInt ∧ 0 ≤ cb.intBufBytes.toInt ∧
      (cb.sndQueueBytes = 0 ↔ cb.sndQueue = []) ∧ (cb.intBufBytes = 0 ↔ cb.intBuf = []) := by
  have hsmall : ((run (Op.step freeClock) (IntcpTransCB.create freeClock .requester #v[110]
      (Cache.fresh fun _ _ => 0)) twoRequests).map fun cb =>
        decide (sndTotal cb.sndQueue < 2 ^ 31 ∧ intTotal cb.intBuf < 2 ^ 31)) = some true := by
    decide +kernel
  obtain ⟨cb, hrun, hdecide⟩ := Option.map_eq_some_iff.mp hsmall
  obtain ⟨hsnd, hint⟩ := of_decide_eq_true hdecide
  exact ⟨cb, hrun, run_byteAccounts _ _ _ _ _ (by decide +kernel) hrun hsnd hint⟩

end ByteAccounts
