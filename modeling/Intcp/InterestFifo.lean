import Intcp.ByteAccounts
import Mathlib.Data.List.Chain

/-!
# A midnode forwards every interest byte once

What `request` accepts at a midnode leaves in the next flush: the interests of that
flush, in packets of at most `INTCP_INT_RANGE_LIMIT` bytes, cover the queued ranges
byte for byte and in order. The exception is a flush whose ranges add up to a
multiple of 2^32 bytes, where `intBufBytes` reads 0 over a full `intBuf`.
-/

namespace InterestFifo

open FuelledLoop StepRuns Words BlockCache TransControl SegmentCodec DataPlane HoleTracking
  InterestPlane NodeCore CallRules ByteAccounts

universe u
variable {F : Type u} {nameLen : Nat} {P : Platform F}

def offsets (s e : UInt32) : List Nat := List.range' s.toNat (e.toNat - s.toNat)

/-- The bytes that a queue of ranges asks for, in order. -/
def queueOffsets (queue : List ByteRange) : List Nat :=
  queue.flatMap fun r => offsets r.startByte r.endByte

def intOffsets (segs : List IntcpSeg) : List Nat :=
  segs.flatMap fun seg => offsets seg.rangeStart seg.rangeEnd

def queueSize (queue : List ByteRange) : Nat :=
  (queue.map fun r => r.endByte.toNat - r.startByte.toNat).sum

lemma length_offsets (s e : UInt32) : (offsets s e).length = e.toNat - s.toNat := by
  rw [offsets, List.length_range']

lemma length_queueOffsets (queue : List ByteRange) :
    (queueOffsets queue).length = queueSize queue := by
  simp only [queueOffsets, queueSize, List.length_flatMap, length_offsets]

lemma offsets_append {a b c : UInt32} (ab : a.toNat ≤ b.toNat) (bc : b.toNat ≤ c.toNat) :
    offsets a b ++ offsets b c = offsets a c := by
  have hmid : a.toNat + (b.toNat - a.toNat) = b.toNat := by omega
  have hlen : b.toNat - a.toNat + (c.toNat - b.toNat) = c.toNat - a.toNat := by omega
  have happend := List.range'_append_1 (s := a.toNat) (m := b.toNat - a.toNat)
    (n := c.toNat - b.toNat)
  rw [hmid, hlen] at happend
  exact happend

lemma offsets_self (a : UInt32) : offsets a a = [] := by simp [offsets]

/-- Coalescing moves bytes from the queue to the interest and loses none. -/
lemma coalesce_offsets {rangeStart : UInt32} (bound : InRange rangeStart) {queue : List ByteRange}
    (asked : ∀ r ∈ queue, Asked r.startByte r.endByte) {rangeEnd : UInt32}
    (low : rangeStart.toNat ≤ rangeEnd.toNat)
    (high : rangeEnd.toNat ≤ rangeStart.toNat + 1449) :
    offsets rangeStart (coalesce rangeStart rangeEnd queue).1 ++
        queueOffsets (coalesce rangeStart rangeEnd queue).2 =
      offsets rangeStart rangeEnd ++ queueOffsets queue := by
  induction queue generalizing rangeEnd with
  | nil => rfl
  | cons r rest ih =>
    obtain ⟨hr, hrange⟩ := asked r List.mem_cons_self
    have hrest : ∀ q ∈ rest, Asked q.startByte q.endByte :=
      fun q hq => asked q (List.mem_cons_of_mem _ hq)
    have hproper := UInt32.lt_iff_toNat_lt.mp hr
    have hcons : queueOffsets (r :: rest) = offsets r.startByte r.endByte ++ queueOffsets rest := rfl
    rw [coalesce]
    split
    · rename_i hjoin
      rw [hjoin] at hproper hcons
      have hmin := toNat_joined bound r.endByte
      rw [hcons]
      simp only
      split
      · rename_i hwhole
        rw [UInt32.le_iff_toNat_le] at hwhole
        have hend : imin r.endByte (rangeStart + intcpIntRangeLimit) = r.endByte :=
          UInt32.toNat_inj.mp (by omega)
        rw [hend] at hmin ⊢
        rw [ih hrest (by omega) (by omega), ← List.append_assoc, offsets_append low (by omega)]
      · have hcut : queueOffsets
            ({ r with startByte := imin r.endByte (rangeStart + intcpIntRangeLimit) } :: rest) =
            offsets (imin r.endByte (rangeStart + intcpIntRangeLimit)) r.endByte ++
              queueOffsets rest := rfl
        simp only
        rw [hcut, ← List.append_assoc, ← List.append_assoc, offsets_append (by omega) (by omega),
          offsets_append low (by omega)]
    · rfl

/-- An interest of `intBuf` that was not sent yet. -/
structure Packet (seg : IntcpSeg) : Prop where
  proper : seg.rangeStart < seg.rangeEnd
  short : seg.rangeEnd.toNat ≤ seg.rangeStart.toNat + 1449
  unsent : seg.xmit = 0

/-- An interest of the largest size. -/
def Filled (seg : IntcpSeg) : Prop := seg.rangeEnd.toNat = seg.rangeStart.toNat + 1449

/-- An interest ends before the next one starts, or is as large as it can be. -/
def Breaks (seg next : IntcpSeg) : Prop := seg.rangeEnd = next.rangeStart → Filled seg

/-- `flushIntQueue`, started in `cb`, has appended `segs` and come to `st`. -/
structure Chunking (cb st : IntcpTransCB F nameLen) (segs : List IntcpSeg) : Prop where
  frame : st = { cb with
    intQueue := st.intQueue
    intBuf := cb.intBuf ++ segs
    intBufBytes := cb.intBufBytes + rangeBytes segs }
  asked : ∀ r ∈ st.intQueue, Asked r.startByte r.endByte
  packets : ∀ seg ∈ segs, Packet seg
  offsets : intOffsets segs ++ queueOffsets st.intQueue = queueOffsets cb.intQueue
  breaks : segs.IsChain Breaks
  ahead : ∀ seg ∈ segs.getLast?, ∀ r ∈ st.intQueue.head?, seg.rangeEnd = r.startByte → Filled seg

/-- An interest that stops short of 1449 bytes stops where the queue has a gap. -/
lemma coalesce_full {rangeStart : UInt32} (bound : InRange rangeStart) {queue : List ByteRange}
    {rangeEnd : UInt32} :
    ∀ r ∈ (coalesce rangeStart rangeEnd queue).2.head?,
      (coalesce rangeStart rangeEnd queue).1 = r.startByte →
      (coalesce rangeStart rangeEnd queue).1.toNat = rangeStart.toNat + 1449 := by
  induction queue generalizing rangeEnd with
  | nil => simp [coalesce]
  | cons r rest ih =>
    rw [coalesce]
    split
    · have hmin := toNat_joined bound r.endByte
      simp only
      split
      · exact ih
      · rename_i hcut
        intro _ _ _
        rw [UInt32.le_iff_toNat_le] at hcut
        simp only
        omega
    · rename_i hgap
      rintro q hq hsame
      obtain rfl : r = q := Option.some.inj hq
      exact absurd hsame.symm hgap

lemma chunking_pass {cb st st' : IntcpTransCB F nameLen} {segs : List IntcpSeg}
    (chunking : Chunking cb st segs) (h : queuePass P st = .again st') :
    (∃ seg, Chunking cb st' (segs ++ [seg])) ∧ queueSize st'.intQueue < queueSize st.intQueue := by
  rw [queuePass] at h
  split at h
  · cases h
  · rename_i r rest hqueue
    have hasked := chunking.asked
    have hoffsets := chunking.offsets
    have hahead := chunking.ahead
    rw [hqueue] at hasked hoffsets hahead
    obtain ⟨hr, hrange⟩ := hasked r List.mem_cons_self
    have hbound : InRange r.startByte := by
      simp only [InRange, UInt32.lt_iff_toNat_lt] at *
      omega
    obtain ⟨_, hshort, hrest⟩ := coalesce_spec hbound hasked (Nat.le_refl _) (Nat.le_add_right _ _)
    have hproper := coalesce_proper hbound hasked
    have hfull := @coalesce_full r.startByte hbound (r :: rest) r.startByte
    have htaken := coalesce_offsets hbound hasked (Nat.le_refl _) (Nat.le_add_right _ _)
    rw [offsets_self, List.nil_append] at htaken
    generalize hcoalesced : coalesce r.startByte r.startByte (r :: rest) = taken at *
    cases h
    refine ⟨⟨intSeg r.startByte taken.1 P.raw 0 0 P.raw.toUInt16.toInt16, ?_, hrest, ?_, ?_, ?_, ?_⟩,
      ?_⟩
    · rw [chunking.frame]
      simp only [List.append_assoc, rangeBytes_append, rangeBytes_single, Int32.add_assoc]
    · intro seg hseg
      rcases List.mem_append.mp hseg with hseg | hseg
      · exact chunking.packets seg hseg
      · obtain rfl := List.mem_singleton.mp hseg
        exact ⟨hproper, hshort, rfl⟩
    · have hnew : ∀ seg : IntcpSeg, intOffsets (segs ++ [seg]) =
          intOffsets segs ++ offsets seg.rangeStart seg.rangeEnd := by
        intro seg
        rw [intOffsets, List.flatMap_append, List.flatMap_singleton]
        rfl
      simp only
      rw [hnew, List.append_assoc, ← hoffsets]
      exact congrArg _ htaken
    · refine chunking.breaks.append (List.isChain_singleton _) ?_
      intro last hlast next hnext hjoin
      obtain rfl := Option.some.inj hnext
      exact hahead last hlast r rfl hjoin
    · intro last hlast q hq hjoin
      rw [List.getLast?_concat] at hlast
      obtain rfl := Option.some.inj hlast
      exact hfull q hq hjoin
    · have hlength := congrArg List.length htaken
      rw [List.length_append, length_offsets, length_queueOffsets, length_queueOffsets] at hlength
      rw [UInt32.lt_iff_toNat_lt] at hproper
      rw [hqueue]
      simp only
      omega

lemma queueSize_le (queue : List ByteRange) : queueSize queue ≤ queue.length * 2 ^ 32 := by
  induction queue with
  | nil => exact Nat.le_refl 0
  | cons r rest ih =>
    have hend : r.endByte.toNat < 2 ^ 32 := r.endByte.toNat_lt
    have hcons : queueSize (r :: rest) = (r.endByte.toNat - r.startByte.toNat) + queueSize rest := by
      rw [queueSize, List.map_cons, List.sum_cons]
      rfl
    rw [hcons, List.length_cons]
    omega

/-- The queue drains completely, byte for byte, into packets behind those of the buffer. -/
theorem flushIntQueue_chunks {cb : IntcpTransCB F nameLen}
    (asked : ∀ r ∈ cb.intQueue, Asked r.startByte r.endByte) :
    ∃ st segs, flushIntQueue P cb = some st ∧ Chunking cb st segs ∧ st.intQueue = [] := by
  have hstart : Chunking cb cb [] := by
    refine ⟨?_, asked, nofun, rfl, .nil, nofun⟩
    have hzero : rangeBytes [] = 0 := rfl
    rw [List.append_nil, hzero, Int32.add_zero]
  have hbudget : queueSize cb.intQueue < queueBudget cb := by
    have hqueue := queueSize_le cb.intQueue
    rw [queueBudget]
    omega
  have hloop : ∃ st, loop (queuePass P) (queueBudget cb) cb = some st ∧
      (∃ segs, Chunking cb st segs) ∧ st.intQueue = [] := by
    refine loop_total (fun st => ∃ segs, Chunking cb st segs)
      (fun st => (∃ segs, Chunking cb st segs) ∧ st.intQueue = [])
      (fun st => queueSize st.intQueue) ?_ ?_ ⟨[], hstart⟩ hbudget
    · rintro st st' ⟨segs, hst⟩ hpass
      obtain ⟨⟨seg, hst'⟩, hless⟩ := chunking_pass hst hpass
      exact ⟨⟨_, hst'⟩, hless⟩
    · intro st st' hst hpass
      rw [queuePass] at hpass
      split at hpass
      · rename_i hqueue
        cases hpass
        exact ⟨hst, hqueue⟩
      · cases hpass
  obtain ⟨st, hreturns, ⟨segs, hchunks⟩, hdone⟩ := hloop
  exact ⟨st, segs, hreturns, hchunks, hdone⟩

/-- `flushIntQueue`, started in `cb` with an empty buffer, has come to `st`. -/
structure Draining (cb st : IntcpTransCB F nameLen) : Prop where
  frame : st = { cb with
    intQueue := st.intQueue, intBuf := st.intBuf, intBufBytes := st.intBufBytes }
  asked : ∀ r ∈ st.intQueue, Asked r.startByte r.endByte
  packets : ∀ seg ∈ st.intBuf, Packet seg
  bytes : st.intBufBytes = rangeBytes st.intBuf
  offsets : intOffsets st.intBuf ++ queueOffsets st.intQueue = queueOffsets cb.intQueue

/-- Behind an empty buffer the packets are the buffer. -/
theorem flushIntQueue_drains {cb : IntcpTransCB F nameLen} (empty : cb.intBuf = [])
    (zero : cb.intBufBytes = 0) (asked : ∀ r ∈ cb.intQueue, Asked r.startByte r.endByte) :
    ∃ st, flushIntQueue P cb = some st ∧ Draining cb st ∧ st.intQueue = [] := by
  obtain ⟨st, segs, hreturns, hchunks, hdone⟩ := flushIntQueue_chunks (P := P) asked
  have hbuf : st.intBuf = segs := by
    rw [hchunks.frame, empty]
    exact List.nil_append segs
  have hbytes : st.intBufBytes = rangeBytes segs := by
    rw [hchunks.frame, zero]
    exact Int32.zero_add _
  subst hbuf
  refine ⟨st, hreturns, ⟨?_, hchunks.asked, hchunks.packets, hbytes, hchunks.offsets⟩, hdone⟩
  rw [hchunks.frame]

/-- The counter of the buffer, read as a word, is its size modulo 2^32. -/
lemma rangeBytes_toNat {segs : List IntcpSeg} (packets : ∀ seg ∈ segs, Packet seg) :
    (rangeBytes segs).toUInt32.toNat = (intOffsets segs).length % 2 ^ 32 := by
  induction segs with
  | nil => rfl
  | cons seg rest ih =>
    obtain ⟨hseg, hrest⟩ := List.forall_mem_cons.mp packets
    have hsize := Words.toNat_sub_of_le (UInt32.le_of_lt hseg.proper)
    have hcons : (intOffsets (seg :: rest)).length =
        (seg.rangeEnd.toNat - seg.rangeStart.toNat) + (intOffsets rest).length := by
      simp only [intOffsets, List.flatMap_cons, List.length_append, length_offsets]
    rw [rangeBytes_cons, Int32.toUInt32_add, UInt32.toUInt32_toInt32, UInt32.toNat_add, ih hrest,
      hsize, hcons, Nat.add_mod_mod]

/-- The interests for bytes among the segments of a series of datagrams. -/
def interests (P : Platform F) (sent : List (List UInt8)) : List IntcpSeg :=
  (sent.flatMap fun data => (decode P.raw data).2).filter fun seg =>
    decide (seg.cmd = intcpCmdInt ∧ seg.rangeStart < seg.rangeEnd)

lemma interests_append (sent more : List (List UInt8)) :
    interests P (sent ++ more) = interests P sent ++ interests P more := by
  rw [interests, List.flatMap_append, List.filter_append]
  rfl

lemma decode_intSeg (s e ts sn xmit : UInt32) (wnd : Int16) :
    (decode P.raw (encodeSeg (intSeg s e ts sn xmit wnd))).2 =
      [received P.raw (intSeg s e ts sn xmit wnd)] := by
  generalize hseg : intSeg s e ts sn xmit wnd = seg
  have hcmd : seg.cmd = intcpCmdInt := by rw [← hseg]; rfl
  have hlen : seg.len = 0 := by rw [← hseg]; rfl
  have hdata : seg.data = [] := by rw [← hseg]; rfl
  have hsend : Sendable seg := by
    refine ⟨Or.inr hcmd, ?_⟩
    rw [hlen]
    decide
  have hframe : [seg].flatMap frame = encodeSeg seg := by
    rw [List.flatMap_singleton, frame, hdata, List.append_nil]
  have hsends : ∀ x ∈ [seg], Sendable x := by simpa using hsend
  have hdecode := decode_frames P.raw hsends
  rw [hframe] at hdecode
  rw [hdecode]
  rfl

lemma decode_intDatagram (cb : IntcpTransCB F nameLen) (s e : UInt32) :
    ∃ got, (decode P.raw (intDatagram P cb s e)).2 = [got] ∧ got.cmd = intcpCmdInt ∧
      got.rangeStart = s ∧ got.rangeEnd = e :=
  ⟨_, decode_intSeg s e _ _ _ _, rfl, rfl, rfl⟩

/-- An empty interest asks for nothing. -/
lemma interests_empty (cb : IntcpTransCB F nameLen) : interests P [intDatagram P cb 0 0] = [] := by
  obtain ⟨got, hdecode, _, hstart, hend⟩ := decode_intDatagram (P := P) cb 0 0
  rw [interests, List.flatMap_singleton, hdecode]
  simp [hstart, hend]

lemma interests_proper (cb : IntcpTransCB F nameLen) {s e : UInt32} (proper : s < e) :
    ∃ got, interests P [intDatagram P cb s e] = [got] ∧ got.rangeStart = s ∧ got.rangeEnd = e := by
  obtain ⟨got, hdecode, hcmd, hstart, hend⟩ := decode_intDatagram (P := P) cb s e
  refine ⟨got, ?_, hstart, hend⟩
  rw [interests, List.flatMap_singleton, hdecode]
  simp [hcmd, hstart, hend, proper]

/-- An interest for 1 to 1449 bytes. -/
def Sized (x : IntcpSeg) : Prop :=
  x.rangeStart < x.rangeEnd ∧ x.rangeEnd.toNat ≤ x.rangeStart.toNat + 1449

lemma sendInt_frame (cb : IntcpTransCB F nameLen) (seg : IntcpSeg) :
    ∃ cc n ts sn data, sendInt P cb seg = { cb with
      cc := cc
      dataHoles := cutHoles seg.rangeStart seg.rangeEnd cb.dataHoles
      reads := n
      lastSendIntTs := ts
      intNextSn := sn
      history := { cb.history with toResponder := cb.history.toResponder ++ [data] } } ∧
      (seg.rangeStart < seg.rangeEnd → ∃ got, interests P [data] = [got] ∧
        got.rangeStart = seg.rangeStart ∧ got.rangeEnd = seg.rangeEnd) := by
  rw [sendInt, outputInt_eq]
  exact ⟨_, _, _, _, _, rfl, fun h => interests_proper _ h⟩

/-- A midnode sends a packet as soon as it comes to it. -/
lemma flushInts_packet {fl : IntFlush F nameLen} {seg : IntcpSeg} (mid : fl.cb.nodeRole = .midnode)
    (packet : Packet seg) (rest : List IntcpSeg) :
    ∃ cnt, flushInts P fl (seg :: rest) = flushInts P { fl with
      cb := { sendInt P (tick fl.cb) seg with
        intBufBytes := ((sendInt P (tick fl.cb) seg).intBufBytes.toUInt32 -
          (seg.rangeEnd - seg.rangeStart)).toInt32 }
      cntTimeout := cnt } rest := by
  have hneed : needSend P (tick fl.cb) (getMillisec P fl.cb) seg = true := by
    rw [needSend, if_pos]
    exact mid
  have hreq : fl.cb.nodeRole ≠ .requester := by
    rw [mid]
    decide
  have hlimit : ¬ ((tick fl.cb).nodeRole = .requester ∧
      (tick fl.cb).intOutputLimit.toUInt32 < seg.rangeEnd - seg.rangeStart) := fun h => hreq h.1
  have halive : ¬ seg.xmit ≥ intcpDeadlink := by
    rw [packet.unsent]
    decide
  have hcharge : chargeLimit (tick fl.cb) (seg.rangeEnd - seg.rangeStart) = tick fl.cb :=
    if_neg hreq
  have hsent : (sendInt P (tick fl.cb) seg).nodeRole = .midnode := by
    rw [sendInt_role]
    exact mid
  rw [flushInts]
  simp only [hneed, Bool.true_eq_false, if_false, if_neg hlimit, if_neg halive, hcharge,
    if_pos hsent]
  exact ⟨_, rfl⟩

/-- A midnode sends its whole buffer and keeps nothing of it. -/
lemma flushInts_midnode {fl : IntFlush F nameLen} {segs : List IntcpSeg}
    (mid : fl.cb.nodeRole = .midnode) (packets : ∀ seg ∈ segs, Packet seg) :
    ∃ cc holes n ts sn bytes out, (flushInts P fl segs).cb = { fl.cb with
        cc := cc
        dataHoles := holes
        reads := n
        lastSendIntTs := ts
        intNextSn := sn
        intBufBytes := bytes
        history := { fl.cb.history with toResponder := fl.cb.history.toResponder ++ out } } ∧
      (flushInts P fl segs).kept = fl.kept ∧
      bytes + rangeBytes segs = fl.cb.intBufBytes ∧
      ((∀ hole ∈ fl.cb.dataHoles, Asked hole.startByte hole.endByte) →
        ∀ hole ∈ holes, Asked hole.startByte hole.endByte) ∧
      intOffsets (interests P out) = intOffsets segs ∧ ∀ x ∈ interests P out, Sized x := by
  induction segs generalizing fl with
  | nil =>
    refine ⟨fl.cb.cc, fl.cb.dataHoles, fl.cb.reads, fl.cb.lastSendIntTs, fl.cb.intNextSn,
      fl.cb.intBufBytes, [], by simp only [flushInts, List.append_nil], rfl, ?_, fun h => h, rfl,
      by simp [interests]⟩
    simp [rangeBytes]
  | cons seg rest ih =>
    obtain ⟨hseg, hrest⟩ := List.forall_mem_cons.mp packets
    obtain ⟨cc, n, ts, sn, data, hsend, hgot⟩ := sendInt_frame (P := P) (tick fl.cb) seg
    obtain ⟨got, hone, hstart, hend⟩ := hgot hseg.proper
    have hcons : ∀ out, interests P (data :: out) = got :: interests P out := by
      intro out
      rw [← List.singleton_append, interests_append, hone, List.singleton_append]
    obtain ⟨cnt, hpacket⟩ := flushInts_packet (P := P) mid hseg rest
    rw [hpacket]
    generalize hnext : IntFlush.mk _ fl.kept cnt fl.reach_limit = next
    have hmid : next.cb.nodeRole = .midnode := by
      rw [← hnext, hsend]
      exact mid
    obtain ⟨cc', holes, n', ts', sn', bytes, out, hcb, hkept, hbytes, hholes, hoffsets, hsized⟩ :=
      ih hmid hrest
    refine ⟨cc', holes, n', ts', sn', bytes, data :: out, ?_, ?_, ?_, ?_, ?_, ?_⟩
    · rw [hcb, ← hnext, hsend]
      simp only [List.append_assoc, List.singleton_append]
      rfl
    · rw [hkept, ← hnext]
    · rw [← hnext, hsend] at hbytes
      simp only [tick, UInt32.toInt32_sub, Int32.toInt32_toUInt32] at hbytes
      rw [rangeBytes_cons, UInt32.toInt32_sub]
      grind
    · intro hasked
      apply hholes
      rw [← hnext, hsend]
      exact asked_cutHoles hasked
    · rw [hcons, intOffsets, List.flatMap_cons, hstart, hend]
      exact congrArg _ hoffsets
    · rw [hcons]
      refine List.forall_mem_cons.mpr ⟨?_, hsized⟩
      rw [Sized, hstart, hend]
      exact ⟨hseg.proper, hseg.short⟩

/-- The queue of a midnode at rest: the buffer is empty, nothing was refused, and what
was accepted is what has been drained and what is queued. `ints` are the interests sent. -/
structure AtRest (P : Platform F) (drained : List ByteRange) (ints : List IntcpSeg)
    (nodeRole : Role) (state : Int32) (intBuf : List IntcpSeg) (intBufBytes : Int32)
    (intQueue : List ByteRange) (dataHoles : List Hole) (accepted refused : List ByteRange)
    (toResponder : List (List UInt8)) : Prop where
  mid : nodeRole = .midnode
  alive : state = 0
  empty : intBuf = []
  zero : intBufBytes = 0
  asked : ∀ r ∈ intQueue, Asked r.startByte r.endByte
  holes : ∀ hole ∈ dataHoles, Asked hole.startByte hole.endByte
  order : accepted = drained ++ intQueue
  never : refused = []
  sent : interests P toResponder = ints

abbrev Rests (P : Platform F) (drained : List ByteRange) (ints : List IntcpSeg)
    (cb : IntcpTransCB F nameLen) : Prop :=
  AtRest P drained ints cb.nodeRole cb.state cb.intBuf cb.intBufBytes cb.intQueue cb.dataHoles
    cb.history.accepted cb.history.refused cb.history.toResponder

variable {drained : List ByteRange} {ints : List IntcpSeg}

/-- The bytes of the queue add up to a positive multiple of 2^32, where the counter of
the buffer reads 0. -/
def Wraps (queue : List ByteRange) : Prop := 0 < queueSize queue ∧ queueSize queue % 2 ^ 32 = 0

instance (queue : List ByteRange) : Decidable (Wraps queue) := inferInstanceAs (Decidable (_ ∧ _))

/-- A buffer that nothing was sent of yet is sent as a whole. -/
lemma sendInts_rests (cb : IntcpTransCB F nameLen) {accepted : List ByteRange}
    (mid : cb.nodeRole = .midnode) (alive : cb.state = 0) (packets : ∀ seg ∈ cb.intBuf, Packet seg)
    (bytes : cb.intBufBytes = rangeBytes cb.intBuf) (drained : cb.intQueue = [])
    (holes : ∀ hole ∈ cb.dataHoles, Asked hole.startByte hole.endByte)
    (all : cb.history.accepted = accepted) (never : cb.history.refused = [])
    (sent : interests P cb.history.toResponder = ints) (newOutput : Int32) :
    ∃ new, Rests P accepted (ints ++ new) (sendInts P cb newOutput) ∧
      intOffsets new = intOffsets cb.intBuf ∧ ∀ x ∈ new, Sized x := by
  have hfl : (IntFlush.mk cb [] 0 false).cb.nodeRole = .midnode := mid
  obtain ⟨cc, holes', n, ts, sn, bytes', out, hcb, hkept, hbytes, hholes, hoffsets, hsized⟩ :=
    flushInts_midnode (P := P) hfl packets
  have hstate : (flushInts P ⟨cb, [], 0, false⟩ cb.intBuf).cb.state ≠ -1 := by
    rw [hcb]
    simp only [alive]
    decide
  have hzero : bytes' = 0 := by
    simp only [bytes] at hbytes
    grind
  refine ⟨interests P out, ?_, hoffsets, hsized⟩
  simp only [sendInts, if_neg hstate]
  rw [settleFlush, hcb]
  refine ⟨mid, alive, hkept, hzero, ?_, hholes holes, ?_, never, ?_⟩
  · simp only [drained]
    simp
  · simp only [all, drained, List.append_nil]
  · rw [interests_append, sent]

/-- The two interest parts of a flush send the whole queue. -/
theorem flushIntPart_sends {cb : IntcpTransCB F nameLen} (h : Rests P drained ints cb)
    (fits : ¬ Wraps cb.intQueue) :
    ∃ cb' new, flushIntPart P cb = some cb' ∧ Rests P cb.history.accepted (ints ++ new) cb' ∧
      intOffsets new = queueOffsets cb.intQueue ∧ ∀ x ∈ new, Sized x := by
  obtain ⟨st, hdrain, draining, hqueue⟩ := flushIntQueue_drains (P := P) h.empty h.zero h.asked
  have hrole : cb.nodeRole ≠ .responder := by
    rw [h.mid]
    decide
  have hpart : flushIntPart P cb = some (flushIntBuf P st) := by
    rw [flushIntPart, if_neg hrole, hdrain, Option.map_some]
  have hall : intOffsets st.intBuf = queueOffsets cb.intQueue := by
    rw [← draining.offsets, hqueue]
    simp [queueOffsets]
  have hframe := draining.frame
  have hmid : st.nodeRole = .midnode := by rw [hframe]; exact h.mid
  have halive : st.state = 0 := by rw [hframe]; exact h.alive
  have hholes : ∀ hole ∈ st.dataHoles, Asked hole.startByte hole.endByte := by
    rw [hframe]
    exact h.holes
  have haccepted : st.history.accepted = cb.history.accepted := by rw [hframe]
  have hnever : st.history.refused = [] := by rw [hframe]; exact h.never
  have hsent : interests P st.history.toResponder = ints := by rw [hframe]; exact h.sent
  by_cases hzero : st.intBufBytes = 0
  · have hcount := rangeBytes_toNat draining.packets
    rw [← draining.bytes, hzero, hall, length_queueOffsets] at hcount
    have hnone : queueSize cb.intQueue = 0 := by
      by_contra hsome
      exact fits ⟨Nat.pos_of_ne_zero hsome, hcount.symm⟩
    have hnil : queueOffsets cb.intQueue = [] :=
      List.eq_nil_of_length_eq_zero ((length_queueOffsets _).trans hnone)
    have hempty : st.intBuf = [] := by
      refine List.eq_nil_iff_forall_not_mem.mpr ?_
      intro seg hseg
      have hmem : seg.rangeStart.toNat ∈ intOffsets st.intBuf := by
        refine List.mem_flatMap.mpr ⟨seg, hseg, ?_⟩
        have hproper := UInt32.lt_iff_toNat_lt.mp (draining.packets seg hseg).proper
        rw [offsets, List.mem_range'_1]
        omega
      rw [hall, hnil] at hmem
      cases hmem
    refine ⟨st, [], ?_, ⟨hmid, halive, hempty, hzero, ?_, hholes, ?_, hnever, ?_⟩, ?_, by simp⟩
    · rw [hpart, flushIntBuf, if_pos hzero]
    · simp [hqueue]
    · rw [hqueue, List.append_nil, haccepted]
    · rw [hsent, List.append_nil]
    · rw [hnil]
      rfl
  · rw [hpart, flushIntBuf, if_neg hzero]
    obtain ⟨new, hrests, hnew, hsized⟩ := sendInts_rests (P := P)
      { tick st with
        intOutputLimit :=
          if (tick st).srtt ≠ 0 then (tick st).intOutputLimit +
            newIntOutput P (tick st) (flushIntv (tick st) (getMillisec P st))
          else (tick st).intOutputLimit }
      hmid halive draining.packets draining.bytes hqueue hholes haccepted hnever hsent
      (newIntOutput P (tick st) (flushIntv (tick st) (getMillisec P st)))
    exact ⟨_, new, rfl, hrests, hnew.trans hall, hsized⟩

lemma rests_outputEmpty {cb : IntcpTransCB F nameLen} (h : Rests P drained ints cb) :
    Rests P drained ints (outputInt P cb 0 0) := by
  rw [outputInt_eq]
  refine ⟨h.mid, h.alive, h.empty, h.zero, h.asked, h.holes, h.order, h.never, ?_⟩
  rw [interests_append, interests_empty, List.append_nil]
  exact h.sent

/-- Over an empty buffer `request` never refuses. -/
lemma rests_request {cb : IntcpTransCB F nameLen} (h : Rests P drained ints cb) (s : UInt32)
    {e : UInt32} (bound : InRange e) : Rests P drained ints (request P cb s e).2 := by
  have hroom : ¬ cb.intBufBytes.toUInt32 ≥ intcpIntbMax := by
    rw [h.zero]
    decide
  simp only [request, if_neg hroom]
  split
  · exact h
  · rename_i hproper
    refine ⟨h.mid, h.alive, h.empty, h.zero, ?_, h.holes, ?_, h.never, h.sent⟩
    · intro r hr
      rcases List.mem_append.mp hr with hr | hr
      · exact h.asked r hr
      · obtain rfl := List.mem_singleton.mp hr
        exact ⟨UInt32.not_le.mp hproper, bound⟩
    · simp only
      rw [h.order, List.append_assoc]

lemma rests_parseInt {cb : IntcpTransCB F nameLen} (h : Rests P drained ints cb) (s : UInt32)
    {e : UInt32} (bound : InRange e) : Rests P drained ints (parseInt P cb s e) := by
  apply parseInt_rule (Rests P drained ints) _ _ s e _ _ _ _ h
  · intro cb s e h
    exact h
  · intro cb buffer start stop h
    exact h
  · intro cb ir h _
    exact h
  · intro cb h
    exact h
  · intro cb s h hrole
    rw [h.mid] at hrole
    cases hrole
  · intro cb s h _ _
    exact rests_request h s bound

lemma rests_detectDataHole {cb : IntcpTransCB F nameLen} (h : Rests P drained ints cb)
    {s : UInt32} (e : UInt32) (bound : InRange s) :
    Rests P drained ints (detectDataHole P cb s e).2 := by
  simp only [detectDataHole]
  split
  · exact h
  · split
    · exact ⟨h.mid, h.alive, h.empty, h.zero, h.asked, asked_cutHoles h.holes, h.order, h.never, h.sent⟩
    · split
      · exact h
      · rename_i hne hback _
        have hholes : ∀ hole ∈ (insertDataHole P cb cb.dataNextRangeStart s).dataHoles,
            Asked hole.startByte hole.endByte := by
          intro hole hh
          rcases List.mem_append.mp hh with hh | hh
          · exact h.holes hole hh
          · obtain rfl := List.mem_singleton.mp hh
            exact ⟨by grind, bound⟩
        split
        · exact ⟨h.mid, h.alive, h.empty, h.zero, h.asked, hholes, h.order, h.never, h.sent⟩
        · exact ⟨h.mid, h.alive, h.empty, h.zero, h.asked, hholes, h.order, h.never, h.sent⟩

lemma rests_parseData {cb : IntcpTransCB F nameLen} (h : Rests P drained ints cb) (seg : IntcpSeg)
    (header : Bool) : Rests P drained ints (parseData cb seg header) := by
  have hsent : Rests P drained ints (if cb.nodeRole ≠ .requester then enqueue cb seg else cb) := by
    split
    · exact h
    · exact h
  simp only [parseData]
  cases header with
  | true => exact hsent
  | false => exact hsent

lemma rests_input {cb : IntcpTransCB F nameLen} (h : Rests P drained ints cb) {data : List UInt8}
    (bounded : ∀ s ∈ (decode P.raw data).2, InRange s.rangeStart ∧ InRange s.rangeEnd) :
    Rests P drained ints (input P cb data).2 := by
  apply input_rule (Rests P drained ints) _ _ _ _ data bounded h
  · intro cb h
    exact h
  · intro cb s h hbound _
    simp only [inputInt]
    split
    · exact h
    · apply rests_parseInt _ _ hbound.2
      exact h
  · intro cb current s h hbound _
    have hmeasured : Rests P drained ints (measureHop P cb current s) := by
      apply measureHop_rule (Rests P drained ints) _ _ _ h
      · intro cb h
        exact h
      · intro cb cc rest h
        exact h
      · intro cb h _
        exact rests_outputEmpty h
    have hdetected : Rests P drained ints (detect P (measureHop P cb current s) s) := by
      rw [detect]
      exact rests_detectDataHole hmeasured s.rangeEnd hbound.1
    simp only [inputPush]
    split
    · exact rests_parseData hdetected (rebuilt P s) true
    · split
      · exact hdetected
      · exact rests_parseData hdetected (rebuilt P s) false

lemma rests_notifyNewData {cb : IntcpTransCB F nameLen} (h : Rests P drained ints cb)
    (buffer : Buffer) (s e : UInt32) : Rests P drained ints (notifyNewData P cb buffer s e) := by
  have hreleased : Rests P drained ints (releaseInts P buffer s e cb cb.pendingInts).1 := by
    apply releaseInts_rule (Rests P drained ints) _ _ _ _ h
    intro cb buffer start stop h
    exact h
  exact hreleased

lemma rests_recv {cb : IntcpTransCB F nameLen} (h : Rests P drained ints cb) (maxBufSize : Int32) :
    Rests P drained ints (recv cb maxBufSize).2 := by
  rw [recv]
  split
  · exact h
  · split
    · split
      · exact h
      · split
        · exact h
        · exact h
    · exact h

/-- Recovering holes queues ranges for the next flush. -/
lemma rests_flushDataHoles {cb : IntcpTransCB F nameLen} (h : Rests P drained ints cb) :
    Rests P drained ints (flushDataHoles P cb) := by
  have hticked : Rests P drained ints (tick cb) := h
  have hflushed : Rests P drained ints
      (flushHoles P (getMillisec P cb) (tick cb) cb.dataHoles).1 := by
    apply flushHoles_rule (Rests P drained ints) _ _ _ _ _ hticked
    · intro cb b h
      exact h
    · intro cb hole hh hcb
      exact rests_parseInt hcb _ (h.holes hole hh).2
    · intro cb hole _ h hrole
      rw [h.mid] at hrole
      cases hrole
  have hkept := flushHoles_sublist (P := P) (getMillisec P cb) (tick cb) cb.dataHoles
  exact ⟨hflushed.mid, hflushed.alive, hflushed.empty, hflushed.zero, hflushed.asked,
    fun hole hh => h.holes hole (hkept.subset hh), hflushed.order, hflushed.never, hflushed.sent⟩

lemma rests_flushData {cb : IntcpTransCB F nameLen} (h : Rests P drained ints cb) :
    Rests P drained ints (flushData P cb) := by
  obtain ⟨_, _, _, _, _, _, hframe⟩ := flushData_frame (P := P) cb
  rw [hframe]
  exact h

theorem flush_sends {cb : IntcpTransCB F nameLen} (h : Rests P drained ints cb)
    (running : cb.updated ≠ 0) (fits : ¬ Wraps cb.intQueue) :
    ∃ cb' new, flush P cb = some cb' ∧ Rests P cb.history.accepted (ints ++ new) cb' ∧
      intOffsets new = queueOffsets cb.intQueue ∧ ∀ x ∈ new, Sized x := by
  have hticked : Rests P drained ints (tick cb) := h
  obtain ⟨sent, new, hpart, hrests, hoffsets, hsized⟩ := flushIntPart_sends hticked fits
  have halive : sent.state ≠ -1 := by
    rw [hrests.alive]
    decide
  have hholes : Rests P cb.history.accepted (ints ++ new) (flushHolePart P sent) := by
    rw [flushHolePart]
    split
    · exact hrests
    · exact rests_flushDataHoles hrests
  have hdata : Rests P cb.history.accepted (ints ++ new) (flushDataPart P (flushHolePart P sent)) := by
    rw [flushDataPart]
    split
    · exact hholes
    · exact rests_flushData hholes
  have hrunning : (tick cb).updated ≠ 0 := running
  refine ⟨{ flushDataPart P (flushHolePart P sent) with lastFlushTs := getMillisec P cb }, new, ?_,
    hdata, hoffsets, hsized⟩
  simp only [flush, if_neg hrunning, hpart, Option.map_some, if_neg halive]

/-- Whether a call flushes. -/
def Flushes (P : Platform F) (cb : IntcpTransCB F nameLen) : Op nameLen → Prop
  | .flush => cb.updated ≠ 0
  | .update => Due P cb
  | _ => False

instance (P : Platform F) (cb : IntcpTransCB F nameLen) :
    ∀ op : Op nameLen, Decidable (Flushes P cb op)
  | .flush => inferInstanceAs (Decidable (_ ≠ _))
  | .update => inferInstanceAs (Decidable (Due P cb))
  | .input _ => inferInstanceAs (Decidable False)
  | .request _ _ => inferInstanceAs (Decidable False)
  | .parseInt _ _ => inferInstanceAs (Decidable False)
  | .notifyNewData _ _ _ => inferInstanceAs (Decidable False)
  | .insertData _ _ _ => inferInstanceAs (Decidable False)
  | .sendData _ _ _ => inferInstanceAs (Decidable False)
  | .sendDataHeader _ _ => inferInstanceAs (Decidable False)
  | .parseData _ _ => inferInstanceAs (Decidable False)
  | .recv _ => inferInstanceAs (Decidable False)
  | .cacheInsert _ _ _ _ => inferInstanceAs (Decidable False)
  | .cacheRead _ _ _ => inferInstanceAs (Decidable False)

/-- The call does not flush a queue whose bytes wrap. -/
def Fits (P : Platform F) (cb : IntcpTransCB F nameLen) (op : Op nameLen) : Prop :=
  Flushes P cb op → ¬ Wraps cb.intQueue

instance (P : Platform F) (cb : IntcpTransCB F nameLen) (op : Op nameLen) :
    Decidable (Fits P cb op) :=
  inferInstanceAs (Decidable (_ → _))

lemma rests_ready {cb : IntcpTransCB F nameLen} (h : Rests P drained ints cb) :
    Rests P drained ints (ready P cb) ∧ (ready P cb).updated ≠ 0 ∧
      (ready P cb).intQueue = cb.intQueue ∧ (ready P cb).history = cb.history := by
  obtain ⟨_, _, _, _, _, _, hrunning, hframe⟩ := ready_frame (P := P) cb
  rw [hframe]
  exact ⟨h, hrunning, rfl, rfl⟩

/-- A call that flushes sends the whole queue. -/
theorem step_flushes {op : Op nameLen} {cb : IntcpTransCB F nameLen}
    (h : Rests P drained ints cb) (flushes : Flushes P cb op) (fits : ¬ Wraps cb.intQueue) :
    ∃ cb' new, op.step P cb = some cb' ∧ Rests P cb.history.accepted (ints ++ new) cb' ∧
      intOffsets new = queueOffsets cb.intQueue ∧ ∀ x ∈ new, Sized x := by
  have halive : cb.state ≠ -1 := by
    rw [h.alive]
    decide
  rw [Op.step, if_neg halive]
  cases op with
  | flush => exact flush_sends h flushes fits
  | update =>
    obtain ⟨hready, hrunning, hqueue, hhistory⟩ := rests_ready h
    obtain ⟨cb', new, hflush, hrests, hoffsets, hsized⟩ :=
      flush_sends hready hrunning (hqueue ▸ fits)
    obtain ⟨next, hupdate⟩ := (update_cases cb).1 flushes
    rw [hhistory] at hrests
    refine ⟨{ cb' with nextFlushTs := next cb' }, new, ?_, hrests, hqueue ▸ hoffsets, hsized⟩
    rw [Op.act, hupdate, hflush, Option.map_some]
  | _ => exact flushes.elim

/-- Any other call leaves what was drained and sent. -/
theorem step_rests {op : Op nameLen} {cb cb' : IntcpTransCB F nameLen}
    (h : Rests P drained ints cb) (bounded : BoundedCall P op) (quiet : ¬ Flushes P cb op)
    (hstep : op.step P cb = some cb') : Rests P drained ints cb' := by
  have halive : cb.state ≠ -1 := by
    rw [h.alive]
    decide
  rw [Op.step, if_neg halive] at hstep
  cases op with
  | input data =>
    cases hstep
    exact rests_input h bounded
  | request s e =>
    cases hstep
    exact rests_request h s bounded
  | parseInt s e =>
    cases hstep
    exact rests_parseInt h s bounded
  | notifyNewData buffer s e =>
    cases hstep
    exact rests_notifyNewData h buffer s e
  | insertData buffer s e =>
    obtain ⟨cache, _, rfl⟩ := Option.map_eq_some_iff.mp hstep
    apply rests_notifyNewData
    exact h
  | sendData buffer s e =>
    cases hstep
    rw [sendData_eq]
    exact h
  | sendDataHeader s e =>
    cases hstep
    exact h
  | parseData seg header =>
    cases hstep
    exact rests_parseData h seg header
  | recv maxBufSize =>
    cases hstep
    exact rests_recv h maxBufSize
  | flush =>
    have hidle : (tick cb).updated = 0 := not_not.mp quiet
    simp only [Op.act, flush, if_pos hidle, Option.some.injEq] at hstep
    rw [← hstep]
    exact h
  | update =>
    rw [Op.act, (update_cases cb).2 quiet] at hstep
    cases hstep
    exact (rests_ready h).1
  | cacheInsert name s e dataBuf =>
    obtain ⟨cache, _, rfl⟩ := Option.map_eq_some_iff.mp hstep
    exact h
  | cacheRead name s e =>
    cases hstep
    exact h

lemma parseInt_buffer {buf : List IntcpSeg} {cb : IntcpTransCB F nameLen}
    (h : cb.nodeRole = .midnode ∧ cb.intBuf = buf) (s e : UInt32) :
    (parseInt P cb s e).nodeRole = .midnode ∧ (parseInt P cb s e).intBuf = buf := by
  apply parseInt_rule (fun cb => cb.nodeRole = .midnode ∧ cb.intBuf = buf) _ _ s e _ _ _ _ h
  · intro cb s e h
    exact h
  · intro cb buffer start stop h
    exact h
  · intro cb ir h _
    exact h
  · intro cb h
    exact h
  · intro cb s h hrole
    rw [h.1] at hrole
    cases hrole
  · intro cb s h _ _
    simp only [request]
    split
    · exact h
    · split
      · exact h
      · exact h

lemma flushDataHoles_buffer {buf : List IntcpSeg} {cb : IntcpTransCB F nameLen}
    (h : cb.nodeRole = .midnode ∧ cb.intBuf = buf) :
    (flushDataHoles P cb).nodeRole = .midnode ∧ (flushDataHoles P cb).intBuf = buf := by
  have hticked : (tick cb).nodeRole = .midnode ∧ (tick cb).intBuf = buf := h
  apply flushHoles_rule (fun cb => cb.nodeRole = .midnode ∧ cb.intBuf = buf) _ _ _ _ _ hticked
  · intro cb b h
    exact h
  · intro cb hole _ h
    exact parseInt_buffer h _ _
  · intro cb hole _ h hrole
    rw [h.1] at hrole
    cases hrole

/-- A flush of a queue whose bytes wrap leaves its packets in the buffer. -/
theorem flush_wraps {cb : IntcpTransCB F nameLen} (h : Rests P drained ints cb)
    (running : cb.updated ≠ 0) (wraps : Wraps cb.intQueue) :
    ∃ cb', flush P cb = some cb' ∧ cb'.intBuf ≠ [] := by
  have hticked : Rests P drained ints (tick cb) := h
  obtain ⟨st, hdrain, draining, hqueue⟩ :=
    flushIntQueue_drains (P := P) hticked.empty hticked.zero hticked.asked
  have hrole : (tick cb).nodeRole ≠ .responder := by
    rw [hticked.mid]
    decide
  have hoffsets := draining.offsets
  rw [hqueue, show queueOffsets [] = [] from rfl, List.append_nil] at hoffsets
  have hall : intOffsets st.intBuf = queueOffsets cb.intQueue := hoffsets
  have hzero : st.intBufBytes = 0 := by
    have hcount := rangeBytes_toNat draining.packets
    rw [← draining.bytes, hall, length_queueOffsets, wraps.2] at hcount
    have hword : st.intBufBytes.toUInt32 = 0 := UInt32.toNat_inj.mp hcount
    rw [← Int32.toInt32_toUInt32 st.intBufBytes, hword]
    rfl
  have hfull : st.intBuf ≠ [] := by
    intro hempty
    rw [hempty] at hall
    have hlength := congrArg List.length hall
    rw [length_queueOffsets] at hlength
    have hpos := wraps.1
    rw [← hlength] at hpos
    exact absurd hpos (by simp [intOffsets])
  have hpart : flushIntPart P (tick cb) = some st := by
    rw [flushIntPart, if_neg hrole, hdrain, Option.map_some, flushIntBuf, if_pos hzero]
  have hframe := draining.frame
  have halive : st.state ≠ -1 := by
    rw [hframe]
    simp only [hticked.alive]
    decide
  have hmid : st.nodeRole = .midnode ∧ st.intBuf = st.intBuf := by
    refine ⟨?_, rfl⟩
    rw [hframe]
    exact hticked.mid
  have hholes : (flushHolePart P st).nodeRole = .midnode ∧
      (flushHolePart P st).intBuf = st.intBuf := by
    rw [flushHolePart]
    split
    · exact hmid
    · exact flushDataHoles_buffer hmid
  have hdata : (flushDataPart P (flushHolePart P st)).intBuf = st.intBuf := by
    rw [flushDataPart]
    split
    · exact hholes.2
    · obtain ⟨_, _, _, _, _, _, hflushed⟩ := flushData_frame (P := P) (flushHolePart P st)
      rw [hflushed]
      exact hholes.2
  have hrunning : (tick cb).updated ≠ 0 := running
  refine ⟨{ flushDataPart P (flushHolePart P st) with lastFlushTs := getMillisec P cb }, ?_, ?_⟩
  · simp only [flush, if_neg hrunning, hpart, Option.map_some, if_neg halive]
  · rw [← hdata] at hfull
    exact hfull

theorem step_wraps {op : Op nameLen} {cb : IntcpTransCB F nameLen} (h : Rests P drained ints cb)
    (flushes : Flushes P cb op) (wraps : Wraps cb.intQueue) :
    ∃ cb', op.step P cb = some cb' ∧ cb'.intBuf ≠ [] := by
  have halive : cb.state ≠ -1 := by
    rw [h.alive]
    decide
  rw [Op.step, if_neg halive]
  cases op with
  | flush => exact flush_wraps h flushes wraps
  | update =>
    obtain ⟨hready, hrunning, hqueue, _⟩ := rests_ready h
    obtain ⟨cb', hflush, hfull⟩ := flush_wraps hready hrunning (hqueue ▸ wraps)
    obtain ⟨next, hupdate⟩ := (update_cases cb).1 flushes
    refine ⟨{ cb' with nextFlushTs := next cb' }, ?_, hfull⟩
    rw [Op.act, hupdate, hflush, Option.map_some]
  | _ => exact flushes.elim

/-- What holds of a midnode between the calls on it. -/
structure ForwardsOnce (P : Platform F) (cb : IntcpTransCB F nameLen) : Prop where
  empty : cb.intBuf = []
  zero : cb.intBufBytes = 0
  /-- `request` never refused. -/
  never : cb.history.refused = []
  /-- The bytes sent are the bytes accepted and not waiting, in order. -/
  sent : ∃ drained, cb.history.accepted = drained ++ cb.intQueue ∧
    intOffsets (interests P cb.history.toResponder) = queueOffsets drained
  sized : ∀ x ∈ interests P cb.history.toResponder, Sized x

/-- What the cache does not serve of an interest. -/
def unserved (P : Platform F) (cb : IntcpTransCB F nameLen) (s e : UInt32) : List ByteRange :=
  if (serve P cb s e).sentEnd < e then [⟨(serve P cb s e).sentEnd, e, P.raw⟩] else []

/-- `parseInt` hands the unserved part of an interest to `request`. -/
lemma parseInt_accepts {cb : IntcpTransCB F nameLen} (h : Rests P drained ints cb) {s e : UInt32}
    (proper : s < e) :
    (parseInt P cb s e).history.accepted = cb.history.accepted ++ unserved P cb s e := by
  have hserved : (serve P cb s e).cb.nodeRole = .midnode ∧ (serve P cb s e).cb.intBufBytes = 0 ∧
      (serve P cb s e).cb.history.accepted = cb.history.accepted := by
    apply serve_rule (fun cb' => cb'.nodeRole = .midnode ∧ cb'.intBufBytes = 0 ∧
      cb'.history.accepted = cb.history.accepted) _ _ ⟨h.mid, h.zero, rfl⟩
    · intro cb s e h
      exact h
    · intro cb buffer start stop h
      exact h
  obtain ⟨hmid, hzero, haccepted⟩ := hserved
  have hroom : ¬ (serve P cb s e).cb.intBufBytes.toUInt32 ≥ intcpIntbMax := by
    rw [hzero]
    decide
  rw [parseInt, if_neg (UInt32.not_le.mpr proper), unserved]
  simp only
  split
  · rename_i hrest
    simp only [hmid, request, if_neg (UInt32.not_le.mpr hrest), if_neg hroom, haccepted]
  · rw [haccepted, List.append_nil]

/-- What holds of a midnode between two calls, and what the next call does to it. -/
structure Forwards (P : Platform F) (cb : IntcpTransCB F nameLen) : Prop where
  once : ForwardsOnce P cb
  hands : ∀ s e, s < e →
    (parseInt P cb s e).history.accepted = cb.history.accepted ++ unserved P cb s e
  /-- A flush sends what was accepted since the last one. -/
  flushed : ∀ op, Flushes P cb op → ¬ Wraps cb.intQueue → ∃ cb' new, op.step P cb = some cb' ∧
    cb'.history.accepted = cb.history.accepted ++ cb'.intQueue ∧
    interests P cb'.history.toResponder = interests P cb.history.toResponder ++ new ∧
    intOffsets new = queueOffsets cb.intQueue ∧ ∀ x ∈ new, Sized x
  wrapped : ∀ op, Flushes P cb op → Wraps cb.intQueue →
    ∃ cb', op.step P cb = some cb' ∧ ¬ ForwardsOnce P cb'

lemma rests_create (nameChars : Vector UInt8 nameLen) (cache : Cache nameLen) :
    Rests P [] [] (IntcpTransCB.create P .midnode nameChars cache) :=
  ⟨rfl, rfl, rfl, rfl, by simp [IntcpTransCB.create], by simp [IntcpTransCB.create], rfl, rfl, rfl⟩

/-- In a run of a midnode that never flushes a queue whose bytes wrap, every interest
byte that was accepted is sent once and in order, and nothing is ever refused. A flush
of a queue that wraps is where this ends. -/
theorem run_forwardsOnce (P : Platform F) (nameChars : Vector UInt8 nameLen)
    (cache : Cache nameLen) (ops : List (Op nameLen)) {cb : IntcpTransCB F nameLen}
    (bounded : ∀ op ∈ ops, BoundedCall P op)
    (fits : Along (Op.step P) (Fits P) (IntcpTransCB.create P .midnode nameChars cache) ops)
    (hrun : run (Op.step P) (IntcpTransCB.create P .midnode nameChars cache) ops = some cb) :
    Forwards P cb := by
  have hinv : ∃ drained ints, Rests P drained ints cb ∧ intOffsets ints = queueOffsets drained ∧
      ∀ x ∈ ints, Sized x := by
    refine run_invariant_along (fun cb => ∃ drained ints, Rests P drained ints cb ∧
      intOffsets ints = queueOffsets drained ∧ ∀ x ∈ ints, Sized x) ?_
      ⟨[], [], rests_create nameChars cache, rfl, by simp⟩ (along_of_forall fits bounded) hrun
    rintro cb cb' op ⟨drained, ints, hrests, hoffsets, hsized⟩ ⟨hfits, hbounded⟩ hstep
    by_cases hflushes : Flushes P cb op
    · obtain ⟨sent, new, hsent, hrests', hnew, hsized'⟩ := step_flushes hrests hflushes (hfits hflushes)
      obtain rfl : sent = cb' := Option.some.inj (hsent.symm.trans hstep)
      refine ⟨cb.history.accepted, ints ++ new, hrests', ?_, ?_⟩
      · rw [intOffsets, List.flatMap_append, hrests.order, queueOffsets, List.flatMap_append]
        exact congrArg₂ _ hoffsets hnew
      · intro x hx
        rcases List.mem_append.mp hx with hx | hx
        · exact hsized x hx
        · exact hsized' x hx
    · exact ⟨drained, ints, step_rests hrests hbounded hflushes hstep, hoffsets, hsized⟩
  obtain ⟨drained, ints, hrests, hoffsets, hsized⟩ := hinv
  refine ⟨⟨hrests.empty, hrests.zero, hrests.never, ⟨drained, hrests.order, ?_⟩, ?_⟩,
    fun s e hproper => parseInt_accepts hrests hproper, ?_, ?_⟩
  · rw [hrests.sent]
    exact hoffsets
  · rw [hrests.sent]
    exact hsized
  · intro op hflushes hfits
    obtain ⟨cb', new, hstep, hrests', hnew, hsized'⟩ := step_flushes hrests hflushes hfits
    refine ⟨cb', new, hstep, hrests'.order, ?_, hnew, hsized'⟩
    rw [hrests'.sent, hrests.sent]
  · intro op hflushes hwraps
    obtain ⟨cb', hstep, hfull⟩ := step_wraps hrests hflushes hwraps
    exact ⟨cb', hstep, fun h => hfull h.empty⟩

def twoInterests : List (Op 1) :=
  [.input (encodeSeg (intSeg 0 3000 5 0 0 100)), .input (encodeSeg (intSeg 3000 3100 6 1 0 100)),
    .update, .input (encodeSeg (pushSeg freeClock 100 200 0 [] length_header)), .update]

/-- Two adjacent interests, a header and two flushes. -/
theorem run_forwardsOnce_two :
    ∃ cb, run (Op.step freeClock) (IntcpTransCB.create freeClock .midnode #v[110]
      (Cache.fresh fun _ _ => 0)) twoInterests = some cb ∧ Forwards freeClock cb := by
  have hreturns : (run (Op.step freeClock) (IntcpTransCB.create freeClock .midnode #v[110]
      (Cache.fresh fun _ _ => 0)) twoInterests).isSome = true := by
    decide +kernel
  obtain ⟨cb, hrun⟩ := Option.isSome_iff_exists.mp hreturns
  exact ⟨cb, hrun, run_forwardsOnce _ _ _ _ (by decide +kernel) (by decide +kernel) hrun⟩

/-- Two interests for 2^32 bytes together. -/
def wrappingInterests : List (Op 1) :=
  [.input (encodeSeg (intSeg 0 4294965846 5 0 0 100)), .input (encodeSeg (intSeg 0 1450 6 1 0 100))]

/-- The next flush sends none of their bytes. -/
theorem wrapping_run :
    (∀ op ∈ wrappingInterests ++ [.update], BoundedCall freeClock op) ∧
      ∃ cb, run (Op.step freeClock) (IntcpTransCB.create freeClock .midnode #v[110]
        (Cache.fresh fun _ _ => 0)) (wrappingInterests ++ [.update]) = some cb ∧
      ¬ ForwardsOnce freeClock cb := by
  have hwraps : ((run (Op.step freeClock) (IntcpTransCB.create freeClock .midnode #v[110]
      (Cache.fresh fun _ _ => 0)) wrappingInterests).map fun cb =>
        decide (Due freeClock cb ∧ Wraps cb.intQueue)) = some true := by
    decide +kernel
  obtain ⟨cb, hrun, hdecide⟩ := Option.map_eq_some_iff.mp hwraps
  obtain ⟨hdue, hwrap⟩ := of_decide_eq_true hdecide
  have hquiet : ∀ op ∈ wrappingInterests, BoundedCall freeClock op ∧
      ∀ cb : IntcpTransCB Rat 1, ¬ Flushes freeClock cb op := by
    intro op hop
    constructor
    · revert op
      decide +kernel
    · intro cb
      simp only [wrappingInterests, List.mem_cons, List.not_mem_nil, or_false] at hop
      rcases hop with rfl | rfl <;> exact id
  have hrests : Rests freeClock [] [] cb := run_invariant_all (Rests freeClock [] [])
    (fun _ _ _ h hgood hstep => step_rests h hgood.1 (hgood.2 _) hstep)
    (rests_create #v[110] _) hquiet hrun
  have hflushes : Flushes freeClock cb .update := hdue
  obtain ⟨cb', hstep, hfull⟩ := step_wraps hrests hflushes hwrap
  refine ⟨by decide +kernel, cb', ?_, fun h => hfull h.empty⟩
  rw [run_snoc, hrun]
  exact hstep

end InterestFifo
