import Intcp.GroundStation
import Intcp.CacheStream
import Intcp.InputLoop

/-!
# Tunnel ingress is a byte stream

Whatever reads the tunnel gives, a fresh responder session puts their bytes into
`sndQueue` in order, under ranges that continue each other from the first
`packetId` on, opens no data hole, and keeps them in the cache. The copied
struct is what `encodeSeg` would have written, so `input` takes each copy for one
PUSH segment.
-/

namespace TunnelIngress

open LittleEndian Words BlockCache TransControl SegmentCodec RateControl DataPlane HoleTracking
  NodeCore CallRules CacheContents CacheStream GroundStation

universe u
variable {F : Type u} {nameLen : Nat} {P : Platform F}

/-- The packed layout and the wire format agree on the first 23 bytes. -/
theorem structBytes_header (seg : IntcpSeg) :
    (structBytes seg).take intcpOverhead.toNat = encodeSeg seg := by
  have hsplit : structBytes seg = encodeSeg seg ++ (bytes32 seg.xmit ++ seg.data) := by
    simp only [structBytes, encodeSeg, encode8u, encode16, encode32u, List.append_assoc,
      List.cons_append, List.nil_append]
  have hlen : intcpOverhead.toNat = (encodeSeg seg).length := (length_encodeSeg seg).symm
  rw [hsplit, hlen, List.take_left]

lemma sndbuftmp_eq (seg : IntcpSeg) : sndbuftmp seg = frame seg := by
  rw [sndbuftmp, structBytes_header, frame]

/-- Behind the header of the copy lies the payload. -/
lemma payload_bytes (seg : IntcpSeg) :
    ((Buffer.ofList (sndbuftmp seg)).advance intcpOverhead.toNat).bytes seg.len.toNat =
      seg.data := by
  have hlen : intcpOverhead.toNat = (encodeSeg seg).length := (length_encodeSeg seg).symm
  rw [sndbuftmp_eq, frame, hlen]
  refine List.ext_getElem ?_ ?_
  · rw [Buffer.length_bytes, seg.dataLen]
  · intro i hi hi'
    rw [Buffer.getElem_bytes, Buffer.advance, Buffer.ofList, List.getD_append_right _ _ _ _ (by omega),
      Nat.add_sub_cancel_left, List.getD_eq_getElem _ _ hi']

lemma updateHopRTT_loss (cc : CongControl F) (rtt : Int32) :
    (updateHopRTT cc rtt).hasLossEvent = cc.hasLossEvent := by
  rw [updateHopRTT]
  split <;> rfl

lemma measureThroughput_loss (cc : CongControl F) (current len : UInt32) :
    (measureThroughput P cc current len).hasLossEvent = cc.hasLossEvent := by
  simp only [measureThroughput]
  split
  · rfl
  · split
    · split <;> rfl
    · split <;> rfl

lemma slowStart_loss (cc : CongControl F) (signal : Bool) :
    (slowStart P cc signal).hasLossEvent = cc.hasLossEvent := by
  rw [slowStart]
  split <;> rfl

lemma congAvoid_loss (cc : CongControl F) (current : UInt32) (signal : Bool) (least : Int32) :
    (congAvoid P cc current signal least).hasLossEvent = cc.hasLossEvent := by
  simp only [congAvoid]
  split
  · rfl
  · split
    · rfl
    · split <;> rfl

lemma updateCwnd_loss (cb : IntcpTransCB F nameLen) (dataLen : UInt32) :
    ∃ cc, cc.hasLossEvent = cb.cc.hasLossEvent ∧
      updateCwnd P cb dataLen = { cb with cc := cc, reads := cb.reads + 1 } := by
  refine ⟨_, ?_, rfl⟩
  simp only [apply_ite CongControl.hasLossEvent, congAvoid_loss, slowStart_loss, ite_self]
  rfl

/-- A responder measures, and announces nothing. -/
lemma measureHop_responder {cb : IntcpTransCB F nameLen} (role : cb.nodeRole = .responder)
    (current : UInt32) (s : IntcpSeg) :
    ∃ cc rest n, cc.hasLossEvent = cb.cc.hasLossEvent ∧
      measureHop P cb current s = { cb with cc := cc, rmt_sndq_rest := rest, reads := n } := by
  obtain ⟨rest, hflow⟩ : ∃ rest, takeWnd cb s = { cb with rmt_sndq_rest := rest } := by
    rw [takeWnd]
    split
    · exact ⟨_, rfl⟩
    · exact ⟨_, rfl⟩
  obtain ⟨cc, hloss, hwindow⟩ := updateCwnd_loss (P := P)
    (sampleHop P (takeWnd cb s) current s) s.len
  have hsample : (sampleHop P (takeWnd cb s) current s).cc.hasLossEvent = cb.cc.hasLossEvent := by
    simp only [sampleHop, hflow, measureThroughput_loss]
    split
    · exact updateHopRTT_loss _ _
    · rfl
  have hquiet : ∀ after : IntcpTransCB F nameLen, after.nodeRole = .responder →
      announceRate P after current = after := by
    intro after hafter
    rw [announceRate, if_neg fun h => h.1 hafter]
  refine ⟨cc, rest, cb.reads + 1, hloss.trans hsample, ?_⟩
  rw [measureHop, hwindow, hquiet]
  · simp only [sampleHop, hflow]
  · simp only [sampleHop, hflow, role]

/-- The range that continues what was received opens no hole. -/
lemma detectDataHole_next {cb : IntcpTransCB F nameLen} {s : UInt32}
    (next : cb.dataNextRangeStart = s ∨ cb.dataNextRangeStart = 0) (e : UInt32) :
    detectDataHole P cb s e = (false, { cb with dataNextRangeStart := e }) := by
  rw [detectDataHole]
  by_cases heq : s = cb.dataNextRangeStart
  · rw [if_pos heq]
  · have hzero : cb.dataNextRangeStart = 0 := next.resolve_left fun h => heq h.symm
    have hnot : ¬ s < cb.dataNextRangeStart := by
      rw [hzero]
      exact UInt32.not_lt_zero
    have habnormal : AbnormalHole cb.dataNextRangeStart s := Or.inl hzero
    rw [if_neg heq, if_neg hnot, if_pos habnormal]

/-- `input` takes a framed segment for what it is. -/
lemma input_frame (cb : IntcpTransCB F nameLen) {seg : IntcpSeg} (push : seg.cmd = intcpCmdPush)
    (length : ¬ seg.len.toInt32 < 0) (nonempty : seg.len ≠ 0)
    (whole : seg.rangeEnd - seg.rangeStart = seg.len) :
    input P cb (frame seg) = (0, tick (parseData (detect P
      (measureHop P (tick cb) (getMillisec P cb) (received P.raw seg)) (received P.raw seg))
      (rebuilt P (received P.raw seg)) false)) := by
  have hlen := length_frame seg
  have hoverhead : intcpOverhead.toNat = 23 := rfl
  have hnext := nextSeg_frame P.raw ⟨Or.inl push, length⟩ ([] : List UInt8)
  have hend : nextSeg P.raw [] = .short := rfl
  have hint : (received P.raw seg).cmd ≠ intcpCmdInt := by
    rw [received, push]
    decide
  have hsome : (received P.raw seg).len ≠ 0 := nonempty
  have hwhole : (received P.raw seg).rangeEnd - (received P.raw seg).rangeStart =
      (received P.raw seg).len := whole
  rw [List.append_nil] at hnext
  rw [input, if_neg (by omega), inputLoop, hnext]
  simp only [if_neg hint, inputPush, if_neg hsome, if_neg (not_not.mpr hwhole), if_true]
  obtain ⟨fuel, hfuel⟩ : ∃ fuel, (frame seg).length = fuel + 1 := ⟨22 + seg.len.toNat, by omega⟩
  rw [hfuel, inputLoop, hend]

/-- What a responder does with a segment that continues what it received. -/
structure Taken (cb : IntcpTransCB F nameLen) (seg : IntcpSeg) (cb' : IntcpTransCB F nameLen) :
    Prop where
  role : cb'.nodeRole = .responder
  cache : cb'.cache = cb.cache
  name : cb'.nameChars = cb.nameChars
  queue : cb'.sndQueue = cb.sndQueue ++ [seg]
  cursor : cb'.dataNextRangeStart = seg.rangeEnd
  holes : cb'.dataHoles = cb.dataHoles
  loss : cb'.cc.hasLossEvent = cb.cc.hasLossEvent

lemma input_taken {cb : IntcpTransCB F nameLen} (role : cb.nodeRole = .responder)
    {s e len : UInt32} {data : List UInt8} (dataLen : data.length = len.toNat)
    (length : ¬ len.toInt32 < 0) (nonempty : len ≠ 0) (whole : e - s = len)
    (next : cb.dataNextRangeStart = s ∨ cb.dataNextRangeStart = 0) :
    ∃ cb', input P cb (frame (pushSeg P s e len data dataLen)) = (0, cb') ∧
      Taken cb (pushSeg P s e len data dataLen) cb' := by
  have hrebuilt : rebuilt P (received P.raw (pushSeg P s e len data dataLen)) =
      pushSeg P s e len data dataLen := rfl
  have hrole : (tick cb).nodeRole = .responder := role
  obtain ⟨cc, rest, n, hloss, hmeasured⟩ :=
    measureHop_responder (P := P) hrole (getMillisec P cb)
      (received P.raw (pushSeg P s e len data dataLen))
  have hresponder : Role.responder ≠ .requester := by decide
  refine ⟨_, input_frame cb rfl length nonempty whole, ?_⟩
  have hdetect : detect P (measureHop P (tick cb) (getMillisec P cb)
      (received P.raw (pushSeg P s e len data dataLen)))
      (received P.raw (pushSeg P s e len data dataLen)) = { cb with
        cc := { cc with hasLossEvent := cc.hasLossEvent || false }
        rmt_sndq_rest := rest
        reads := n
        dataNextRangeStart := e } := by
    have hnext : { tick cb with cc := cc, rmt_sndq_rest := rest, reads := n }.dataNextRangeStart =
        s ∨ { tick cb with cc := cc, rmt_sndq_rest := rest, reads := n }.dataNextRangeStart = 0 :=
      next
    rw [detect, hmeasured]
    simp only [received, pushSeg, detectDataHole_next (P := P) hnext]
    rfl
  rw [hdetect, hrebuilt]
  simp only [parseData, role, ne_eq, if_pos hresponder, Bool.false_eq_true, if_false, enqueue,
    moveToRcvQueue, tick, Bool.or_false]
  exact ⟨rfl, rfl, rfl, rfl, rfl, rfl, hloss⟩

/-- Ranges that continue each other from `s` to `e`, each as long as its payload. -/
def Contiguous : UInt32 → List IntcpSeg → UInt32 → Prop
  | s, [], e => s = e
  | s, seg :: rest, e =>
    seg.rangeStart = s ∧ seg.rangeEnd - seg.rangeStart = seg.len ∧ Contiguous seg.rangeEnd rest e

lemma Contiguous.snoc {s m : UInt32} {segs : List IntcpSeg} {seg : IntcpSeg}
    (h : Contiguous s segs m) (start : seg.rangeStart = m)
    (whole : seg.rangeEnd - seg.rangeStart = seg.len) :
    Contiguous s (segs ++ [seg]) seg.rangeEnd := by
  induction segs generalizing s with
  | nil => exact ⟨start.trans h.symm, whole, rfl⟩
  | cons first rest ih => exact ⟨h.1, h.2.1, ih h.2.2⟩

/-- A session that took the stream `bytes` in, from offset `first` on. -/
structure Ingested (first : Nat) (bytes : List UInt8) (sess : IntcpSess F nameLen) : Prop where
  packetId : sess.packetId = Int32.ofNat (first + bytes.length)
  role : sess.transCB.nodeRole = .responder
  /-- Each call of `inputUDP` was good for the segment it carried. -/
  inputs : sess.inputs = sess.transCB.sndQueue.map fun seg => (0, frame seg)
  sizes : ∀ seg ∈ sess.transCB.sndQueue, seg.cmd = intcpCmdPush ∧ 1 ≤ seg.len ∧ seg.len ≤ intcpMss
  ranges : Contiguous (UInt32.ofNat first) sess.transCB.sndQueue
    (UInt32.ofNat (first + bytes.length))
  payload : sess.transCB.sndQueue.flatMap IntcpSeg.data = bytes
  cursor : sess.transCB.dataNextRangeStart = UInt32.ofNat (first + bytes.length) ∨
    sess.transCB.dataNextRangeStart = 0
  holes : sess.transCB.dataHoles = []
  loss : sess.transCB.cc.hasLossEvent = false
  cached : Stored sess.transCB.cache sess.transCB.nameChars first bytes

lemma toNat_ofNat_small {n : Nat} (small : n < 2 ^ 31) : (UInt32.ofNat n).toNat = n :=
  UInt32.toNat_ofNat_of_lt' (Nat.lt_trans small (by decide))

/-- The segment of a round, in terms of offsets. -/
lemma tunnelSeg_fields {p size : Nat} (pt : Buffer) (small : size < 2 ^ 31) :
    (tunnelSeg P (Int32.ofNat p) (Int32.ofNat size) pt).rangeStart = UInt32.ofNat p ∧
    (tunnelSeg P (Int32.ofNat p) (Int32.ofNat size) pt).rangeEnd = UInt32.ofNat (p + size) ∧
    (tunnelSeg P (Int32.ofNat p) (Int32.ofNat size) pt).len = UInt32.ofNat size ∧
    (tunnelSeg P (Int32.ofNat p) (Int32.ofNat size) pt).data = pt.bytes size := by
  refine ⟨rfl, ?_, rfl, ?_⟩
  · simp only [tunnelSeg, pushSeg]
    rw [← Int32.ofNat_add, Int32.toUInt32_ofNat']
  · simp only [tunnelSeg, pushSeg]
    rw [Int32.toUInt32_ofNat', toNat_ofNat_small small]

lemma tunnelSeg_whole (packetId size : Int32) (pt : Buffer) :
    (tunnelSeg P packetId size pt).rangeEnd - (tunnelSeg P packetId size pt).rangeStart =
      (tunnelSeg P packetId size pt).len := by
  simp only [tunnelSeg, pushSeg, Int32.toUInt32_add]
  grind

/-- Its length is one that `input` accepts. -/
lemma tunnelSeg_sized (packetId : Int32) {size : Nat} (pt : Buffer) (nonempty : 1 ≤ size)
    (small : size ≤ 1449) :
    1 ≤ (tunnelSeg P packetId (Int32.ofNat size) pt).len ∧
    (tunnelSeg P packetId (Int32.ofNat size) pt).len ≤ intcpMss ∧
    ¬ (tunnelSeg P packetId (Int32.ofNat size) pt).len.toInt32 < 0 := by
  have hlen : (tunnelSeg P packetId (Int32.ofNat size) pt).len = UInt32.ofNat size := rfl
  have hsize : (UInt32.ofNat size).toNat = size := toNat_ofNat_small (by omega)
  rw [hlen]
  refine ⟨?_, ?_, ?_⟩
  · rw [UInt32.le_iff_toNat_le, hsize]
    exact nonempty
  · rw [UInt32.le_iff_toNat_le, hsize]
    exact small
  · rw [Int32.lt_iff_toInt_lt, toInt_toInt32 (by omega), hsize]
    simp

/-- The copy that a round passes on is taken, where it continues the stream. -/
lemma sndbuftmp_taken {cb : IntcpTransCB F nameLen} (role : cb.nodeRole = .responder)
    (packetId : Int32) {size : Nat} (pt : Buffer) (nonempty : 1 ≤ size) (small : size ≤ 1449)
    (next : cb.dataNextRangeStart = packetId.toUInt32 ∨ cb.dataNextRangeStart = 0) :
    ∃ cb', input P cb (sndbuftmp (tunnelSeg P packetId (Int32.ofNat size) pt)) = (0, cb') ∧
      Taken cb (tunnelSeg P packetId (Int32.ofNat size) pt) cb' := by
  obtain ⟨hone, -, hlength⟩ := tunnelSeg_sized (P := P) packetId pt nonempty small
  have hnonempty : (tunnelSeg P packetId (Int32.ofNat size) pt).len ≠ 0 := by
    intro hzero
    rw [hzero] at hone
    exact absurd hone (by decide)
  rw [sndbuftmp_eq]
  exact input_taken role (pt.length_bytes (Int32.ofNat size).toUInt32.toNat) hlength hnonempty
    (tunnelSeg_whole (P := P) packetId _ pt) next

/-- A round caches the payload and hands the segment over. -/
lemma sendChunk_taken {first : Nat} {bytes : List UInt8} {sess : IntcpSess F nameLen}
    (h : Ingested first bytes sess) (pt : Buffer) {size : Nat} (nonempty : 1 ≤ size)
    (small : size ≤ 1449) (room : first + bytes.length + size < 2 ^ 31) :
    ∃ cb', sendChunk P sess pt (Int32.ofNat size) = some {
        packetId := sess.packetId + Int32.ofNat size
        transCB := cb'
        inputs := sess.inputs ++ [(0, frame (tunnelSeg P sess.packetId (Int32.ofNat size) pt))] } ∧
      Stored cb'.cache sess.transCB.nameChars first (bytes ++ pt.bytes size) ∧
      Taken (withCache sess.transCB cb'.cache)
        (tunnelSeg P sess.packetId (Int32.ofNat size) pt) cb' := by
  have hsmall : size < 2 ^ 31 := by omega
  have hfields := tunnelSeg_fields (P := P) (p := first + bytes.length) pt hsmall
  rw [← h.packetId] at hfields
  have hpayload := payload_bytes (tunnelSeg P sess.packetId (Int32.ofNat size) pt)
  obtain ⟨hstart, hend, hlen, hdata⟩ := hfields
  have hsize := toNat_ofNat_small hsmall
  have hlo : (UInt32.ofNat (first + bytes.length)).toNat = first + bytes.length :=
    toNat_ofNat_small (by omega)
  have hhi := toNat_ofNat_small room
  have hproper : UInt32.ofNat (first + bytes.length) <
      UInt32.ofNat (first + bytes.length + size) := by
    rw [UInt32.lt_iff_toNat_lt, hlo, hhi]
    omega
  have hspan : (UInt32.ofNat (first + bytes.length + size)).toNat -
      (UInt32.ofNat (first + bytes.length)).toNat = size := by
    rw [hlo, hhi]
    omega
  obtain ⟨cache, hinsert, hstored⟩ := h.cached.insert hlo hproper (by omega) (by omega)
    ((Buffer.ofList (sndbuftmp (tunnelSeg P sess.packetId (Int32.ofNat size) pt))).advance
      intcpOverhead.toNat)
  rw [hspan] at hstored
  rw [hlen, hsize, hdata] at hpayload
  have hrole : (withCache sess.transCB cache).nodeRole = .responder := h.role
  have hnext : (withCache sess.transCB cache).dataNextRangeStart = sess.packetId.toUInt32 ∨
      (withCache sess.transCB cache).dataNextRangeStart = 0 := by
    rw [h.packetId, Int32.toUInt32_ofNat']
    exact h.cursor
  obtain ⟨cb', htaken, taken⟩ := sndbuftmp_taken (P := P) hrole sess.packetId pt nonempty small hnext
  have hcache : cb'.cache = cache := taken.cache
  refine ⟨cb', ?_, ?_, ?_⟩
  · simp only [sendChunk]
    rw [hstart, hend, hinsert]
    simp only [Option.map_some, inputUDP, htaken]
    rw [sndbuftmp_eq]
  · rw [hcache, ← hpayload]
    exact hstored
  · rw [hcache]
    exact taken

/-- The step lemma: a round takes its bytes into the stream. -/
lemma sendChunk_ingested {first : Nat} {bytes : List UInt8} {sess : IntcpSess F nameLen}
    (h : Ingested first bytes sess) (pt : Buffer) {size : Nat} (nonempty : 1 ≤ size)
    (small : size ≤ 1449) (room : first + bytes.length + size < 2 ^ 31) :
    ∃ sess', sendChunk P sess pt (Int32.ofNat size) = some sess' ∧
      sess'.transCB.nameChars = sess.transCB.nameChars ∧
      Ingested first (bytes ++ pt.bytes size) sess' := by
  obtain ⟨cb', hround, hstored, taken⟩ := sendChunk_taken (P := P) h pt nonempty small room
  have hsmall : size < 2 ^ 31 := by omega
  have hfields := tunnelSeg_fields (P := P) (p := first + bytes.length) pt hsmall
  rw [← h.packetId] at hfields
  obtain ⟨hstart, hend, -, hdata⟩ := hfields
  have hname : cb'.nameChars = sess.transCB.nameChars := taken.name
  have hqueue : cb'.sndQueue = sess.transCB.sndQueue ++
      [tunnelSeg P sess.packetId (Int32.ofNat size) pt] := taken.queue
  have hbytes : first + (bytes ++ pt.bytes size).length = first + bytes.length + size := by
    rw [List.length_append, Buffer.length_bytes, Nat.add_assoc]
  refine ⟨_, hround, hname, ?_, taken.role, ?_, ?_, ?_, ?_, ?_, ?_, ?_, ?_⟩
  · simp only [hbytes]
    rw [h.packetId, Int32.ofNat_add (first + bytes.length)]
  · simp only [hqueue, h.inputs, List.map_append, List.map_cons, List.map_nil]
  · intro seg hseg
    simp only [hqueue, List.mem_append, List.mem_singleton] at hseg
    rcases hseg with hold | rfl
    · exact h.sizes seg hold
    · obtain ⟨hone, hmss, -⟩ := tunnelSeg_sized (P := P) sess.packetId pt nonempty small
      exact ⟨rfl, hone, hmss⟩
  · simp only [hqueue, hbytes]
    rw [← hend]
    exact h.ranges.snoc hstart (tunnelSeg_whole _ _ pt)
  · simp only [hqueue, List.flatMap_append, h.payload, List.flatMap_cons, List.flatMap_nil, hdata,
      List.append_nil]
  · refine Or.inl ?_
    simp only [taken.cursor, hend, hbytes]
  · exact taken.holes.trans h.holes
  · exact taken.loss.trans h.loss
  · simp only [hname]
    exact hstored

lemma ofNat_lt_ofNat {n m : Nat} (hn : n < 2 ^ 31) (hm : m < 2 ^ 31) :
    Int32.ofNat n < Int32.ofNat m ↔ n < m := by
  rw [Int32.lt_iff_toInt_lt, Int32.toInt_ofNat_of_lt hn, Int32.toInt_ofNat_of_lt hm, Int.ofNat_lt]

lemma chunk_size {n : Nat} (small : n < 2 ^ 31) :
    (if Int32.ofNat n > intcpMss.toInt32 then intcpMss.toInt32 else Int32.ofNat n) =
      Int32.ofNat (min n 1449) := by
  have hmss : intcpMss.toInt32 = Int32.ofNat 1449 := by decide
  have hlong : Int32.ofNat n > Int32.ofNat 1449 ↔ 1449 < n := ofNat_lt_ofNat (by decide) small
  rw [hmss]
  split
  · rename_i h
    rw [Nat.min_eq_right (Nat.le_of_lt (hlong.mp h))]
  · rename_i h
    rw [Nat.min_eq_left (Nat.not_lt.mp (mt hlong.mpr h))]

lemma sendChunks_ingested (fuel : Nat) {first : Nat} {bytes : List UInt8}
    {sess : IntcpSess F nameLen} (h : Ingested first bytes sess) (pt : Buffer) {n : Nat} (tot : Nat)
    (enough : n ≤ fuel) (room : first + bytes.length + n < 2 ^ 31) :
    ∃ sess', sendChunks P fuel sess pt (Int32.ofNat n) (Int32.ofNat tot) =
        some (Int32.ofNat (tot + n), sess') ∧
      sess'.transCB.nameChars = sess.transCB.nameChars ∧
      Ingested first (bytes ++ pt.bytes n) sess' := by
  induction fuel generalizing bytes sess pt n tot with
  | zero =>
    obtain rfl : n = 0 := by omega
    refine ⟨sess, rfl, rfl, ?_⟩
    rw [Buffer.bytes, List.range_zero, List.map_nil, List.append_nil]
    exact h
  | succ fuel ih =>
    have hpos : Int32.ofNat n > 0 ↔ 0 < n := ofNat_lt_ofNat (by decide) (by omega)
    rw [sendChunks]
    by_cases hn : 0 < n
    · have hsize : (Int32.ofNat (min n 1449)).toUInt32.toNat = min n 1449 := by
        rw [Int32.toUInt32_ofNat', toNat_ofNat_small (by omega)]
      have hone : 1 ≤ min n 1449 := by omega
      have hmss : min n 1449 ≤ 1449 := Nat.min_le_right n 1449
      have hroom : first + bytes.length + min n 1449 < 2 ^ 31 := by omega
      obtain ⟨sess₁, hround, hname, hround'⟩ := sendChunk_ingested (P := P) h pt hone hmss hroom
      obtain ⟨sess₂, hrest, hname', hrest'⟩ := ih hround' (pt.advance (min n 1449))
        (tot + min n 1449) (n := n - min n 1449) (by omega)
        (by rw [List.length_append, Buffer.length_bytes]; omega)
      have hcut : min n 1449 + (n - min n 1449) = n := by omega
      rw [if_pos (hpos.mpr hn)]
      simp only [chunk_size (show n < 2 ^ 31 by omega), hround, Option.bind_some, hsize]
      rw [← Int32.ofNat_sub _ _ (by omega), ← Int32.ofNat_add, hrest, Nat.add_assoc, hcut]
      refine ⟨sess₂, rfl, hname'.trans hname, ?_⟩
      have hbytes := pt.bytes_add (min n 1449) (n - min n 1449)
      rw [hcut] at hbytes
      rw [hbytes, ← List.append_assoc]
      exact hrest'
    · obtain rfl : n = 0 := by omega
      rw [if_neg (mt hpos.mp hn)]
      refine ⟨sess, rfl, rfl, ?_⟩
      rw [Buffer.bytes, List.range_zero, List.map_nil, List.append_nil]
      exact h

/-- A call of `GSsendFunc` takes the whole read in and returns its length. -/
theorem gsSendFunc_ingested {first : Nat} {bytes : List UInt8} {sess : IntcpSess F nameLen}
    (h : Ingested first bytes sess) (buffer : List UInt8)
    (room : first + bytes.length + buffer.length < 2 ^ 31) :
    ∃ sess', gsSendFunc P sess (Buffer.ofList buffer) (Int32.ofNat buffer.length) =
        some (Int32.ofNat buffer.length, sess') ∧
      sess'.transCB.nameChars = sess.transCB.nameChars ∧ Ingested first (bytes ++ buffer) sess' := by
  have hlen : (Int32.ofNat buffer.length).toUInt32.toNat = buffer.length := by
    rw [Int32.toUInt32_ofNat', toNat_ofNat_small (by omega)]
  obtain ⟨sess', hsend, hname, hingested⟩ := sendChunks_ingested (P := P) buffer.length h
    (Buffer.ofList buffer) 0 (Nat.le_refl _) room
  rw [Nat.zero_add] at hsend
  rw [Buffer.bytes_ofList] at hingested
  refine ⟨sess', ?_, hname, hingested⟩
  rw [gsSendFunc, hlen]
  exact hsend

lemma sendReads_ingested (reads : List (List UInt8)) {first : Nat} {bytes : List UInt8}
    {sess : IntcpSess F nameLen} (h : Ingested first bytes sess)
    (room : first + bytes.length + reads.flatten.length < 2 ^ 31) :
    ∃ sess', sendReads P sess reads =
        some (reads.map fun buffer => Int32.ofNat buffer.length, sess') ∧
      sess'.transCB.nameChars = sess.transCB.nameChars ∧
      Ingested first (bytes ++ reads.flatten) sess' := by
  induction reads generalizing bytes sess with
  | nil =>
    refine ⟨sess, rfl, rfl, ?_⟩
    rw [List.flatten_nil, List.append_nil]
    exact h
  | cons buffer rest ih =>
    rw [List.flatten_cons, List.length_append] at room
    obtain ⟨sess₁, hsend, hname, hsend'⟩ := gsSendFunc_ingested (P := P) h buffer (by omega)
    obtain ⟨sess₂, hrest, hname', hrest'⟩ := ih hsend' (by rw [List.length_append]; omega)
    rw [sendReads, hsend]
    simp only [Option.bind_some, hrest, Option.map_some]
    refine ⟨sess₂, rfl, hname'.trans hname, ?_⟩
    rw [List.flatten_cons, ← List.append_assoc]
    exact hrest'

lemma ingested_create {nameChars : Vector UInt8 nameLen} {cache : Cache nameLen}
    (untouched : Untouched cache nameChars) (random : Nat) :
    Ingested (random % 100) [] (IntcpSess.create P .responder nameChars cache random) := by
  refine ⟨rfl, rfl, rfl, ?_, rfl, rfl, Or.inr rfl, rfl, rfl, untouched.stored _⟩
  intro seg hseg
  cases hseg

/-- What tunnel ingress promises of a session that has read `bytes` from offset `first` on. -/
structure FaithfulStream (first : Nat) (bytes : List UInt8) (sess : IntcpSess F nameLen) : Prop where
  /-- `input` took every datagram as the one PUSH segment that it queued. -/
  accepted : sess.inputs = sess.transCB.sndQueue.map fun seg => (0, frame seg)
  sizes : ∀ seg ∈ sess.transCB.sndQueue, seg.cmd = intcpCmdPush ∧ 1 ≤ seg.len ∧ seg.len ≤ intcpMss
  ranges : Contiguous (UInt32.ofNat first) sess.transCB.sndQueue
    (UInt32.ofNat (first + bytes.length))
  payload : sess.transCB.sndQueue.flatMap IntcpSeg.data = bytes
  /-- There is no hole, and detection has never found one. -/
  noHole : sess.transCB.dataHoles = [] ∧ sess.transCB.cc.hasLossEvent = false
  reads : ReadsStream sess.transCB.cache sess.transCB.nameChars first bytes
  kept : sess.transCB.cache.lruList.length < maxBlockNum → ∀ o, Spanned first bytes.length o →
    Kept sess.transCB.cache sess.transCB.nameChars o

/-- A fresh responder session turns reads from the tunnel into one byte stream, whatever
the first `packetId` and whatever other sessions keep in the cache. -/
theorem ingress_faithful (P : Platform F) {nameChars : Vector UInt8 nameLen} {cache : Cache nameLen}
    (untouched : Untouched cache nameChars) (random : Nat) (reads : List (List UInt8))
    (total : reads.flatten.length < 2 ^ 31 - 100) :
    ∃ sess, sendReads P (IntcpSess.create P .responder nameChars cache random) reads =
        some (reads.map fun buffer => Int32.ofNat buffer.length, sess) ∧
      sess.transCB.nameChars = nameChars ∧
      FaithfulStream (random % 100) reads.flatten sess := by
  have hfirst := Nat.mod_lt random (show 0 < 100 by decide)
  obtain ⟨sess, hsend, hname, h⟩ := sendReads_ingested (P := P) reads
    (ingested_create untouched random) (by rw [List.length_nil]; omega)
  rw [List.nil_append] at h
  refine ⟨sess, hsend, hname, h.inputs, h.sizes, h.ranges, h.payload, ⟨h.holes, h.loss⟩, ?_, ?_⟩
  · exact h.cached.readsStream (by omega)
  · exact fun room o ho => h.cached.kept room ho

theorem ingress_faithful_two :
    ∃ sess, sendReads freeClock
        (IntcpSess.create freeClock .responder #v[110] (Cache.fresh fun _ _ => 0) 107)
        [[1, 2, 3], [4, 5]] = some ([3, 2], sess) ∧
      sess.transCB.nameChars = #v[110] ∧ FaithfulStream 7 [1, 2, 3, 4, 5] sess :=
  ingress_faithful freeClock (fresh_untouched _) 107 [[1, 2, 3], [4, 5]] (by decide)

end TunnelIngress
