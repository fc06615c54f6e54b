import Intcp.HoleTracking

/-!
# The interest plane

Interests on their way to the responder: `request` queues a range, the flush
coalesces the queue into packets of at most `INTCP_INT_RANGE_LIMIT` bytes and
sends them, with retransmission at the requester. `parseInt` serves what it can
of a received interest from the cache and passes the rest on; `notifyNewData`
serves what waits in `pendingInts`.
-/

namespace InterestPlane

open FuelledLoop Words BlockCache TransControl SegmentCodec RateControl DataPlane HoleTracking

universe u
variable {F : Type u} {nameLen : Nat} (P : Platform F)

/-- An INT segment fresh from `createSeg(0)`. -/
def intSeg (rangeStart rangeEnd ts sn xmit : UInt32) (wnd : Int16) : IntcpSeg where
  cmd := intcpCmdInt
  wnd := wnd
  ts := ts
  sn := sn
  len := 0
  rangeStart := rangeStart
  rangeEnd := rangeEnd
  xmit := xmit
  data := []
  dataLen := length_header

def outputInt (cb : IntcpTransCB F nameLen) (rangeStart rangeEnd : UInt32) :
    IntcpTransCB F nameLen :=
  let current := getMillisec P cb
  let cb := tick cb
  let cb := { cb with lastSendIntTs := current }
  let seg := intSeg rangeStart rangeEnd current cb.intNextSn P.raw (getDataSendRate P cb)
  output { cb with intNextSn := cb.intNextSn + 1 } (encodeSeg seg) .responder

def request (cb : IntcpTransCB F nameLen) (rangeStart rangeEnd : UInt32) :
    Int32 × IntcpTransCB F nameLen :=
  let intr : ByteRange := { startByte := rangeStart, endByte := rangeEnd, ts := P.raw }
  if rangeEnd ≤ rangeStart then (-2, cb)
  else if cb.intBufBytes.toUInt32 ≥ intcpIntbMax then
    (-1, { cb with history := { cb.history with refused := cb.history.refused ++ [intr] } })
  else
    (0, { cb with
      intQueue := cb.intQueue ++ [intr]
      history := { cb.history with accepted := cb.history.accepted ++ [intr] } })

/-- `fetchDataFunc`; what `tmpBuffer` held before is never read. -/
def fetchData (cb : IntcpTransCB F nameLen) (start «end» : UInt32) :
    UInt32 × Buffer × IntcpTransCB F nameLen :=
  let rd := BlockCache.read cb.cache cb.nameChars start «end» fun _ => 0
  (UInt32.ofNat rd.readlen, rd.dataBuf, { cb with cache := rd.cache })

structure Serving (F : Type u) (nameLen : Nat) where
  cb : IntcpTransCB F nameLen
  segStart : UInt32
  sentEnd : UInt32

/-- One round of the `for` of `parseInt`. -/
def servePass (rangeEnd : UInt32) (st : Serving F nameLen) :
    Pass (Serving F nameLen) (Serving F nameLen) :=
  if st.segStart < rangeEnd then
    let segEnd := imin rangeEnd (st.segStart + intcpMss)
    let (fetchLen, buf, cb) := fetchData st.cb st.segStart segEnd
    let sentEnd := st.segStart + fetchLen
    if fetchLen = 0 then .leave { st with cb := cb, sentEnd := sentEnd }
    else
      let cb := (sendData P cb buf st.segStart (st.segStart + fetchLen)).2
      if fetchLen < segEnd - st.segStart then .leave { st with cb := cb, sentEnd := sentEnd }
      else .again { cb := cb, segStart := st.segStart + intcpMss, sentEnd := sentEnd }
  else .leave st

/-- A round of 1449 bytes cannot wrap, so no loop has more than 2^32 / 1449 of them. -/
def serveBudget : Nat := 2 ^ 22

def serve (cb : IntcpTransCB F nameLen) (rangeStart rangeEnd : UInt32) : Serving F nameLen :=
  if cb.nodeRole ≠ .requester then
    (loop (servePass P rangeEnd) serveBudget ⟨cb, rangeStart, rangeStart⟩).getD
      ⟨cb, rangeStart, rangeStart⟩
  else ⟨cb, rangeStart, rangeStart⟩

def parseInt (cb : IntcpTransCB F nameLen) (rangeStart rangeEnd : UInt32) :
    IntcpTransCB F nameLen :=
  if rangeEnd ≤ rangeStart then cb
  else
    let served := serve P cb rangeStart rangeEnd
    let cb := served.cb
    let sentEnd := served.sentEnd
    if sentEnd < rangeEnd then
      match cb.nodeRole with
      | .responder =>
        let current := getMillisec P cb
        let cb := tick cb
        let ir : ByteRange := { startByte := sentEnd, endByte := rangeEnd, ts := current }
        { cb with pendingInts := cb.pendingInts ++ [ir] }
      | .requester => outputInt P cb sentEnd rangeEnd
      | .midnode => (request P cb sentEnd rangeEnd).2
    else cb

/-- What is left of a pending range once `[maxStart, minEnd)` was sent. -/
def remainder (p : ByteRange) (maxStart minEnd : UInt32) : List ByteRange :=
  if maxStart = p.startByte ∧ minEnd = p.endByte then []
  else if minEnd = p.endByte then [{ p with endByte := maxStart }]
  else if maxStart ≠ p.startByte then
    [{ p with endByte := maxStart }, { p with startByte := minEnd }]
  else [{ p with startByte := minEnd }]

/-- The signed test of `notifyNewData` for a common byte. -/
def MeetsNew (p : ByteRange) (dataStart dataEnd : UInt32) : Prop :=
  itimediff p.startByte dataEnd < 0 ∧ itimediff p.endByte dataStart > 0

instance (p : ByteRange) (s e : UInt32) : Decidable (MeetsNew p s e) :=
  inferInstanceAs (Decidable (_ ∧ _))

/-- The loop of `notifyNewData`. -/
def releaseInts (buffer : Buffer) (dataStart dataEnd : UInt32) :
    IntcpTransCB F nameLen → List ByteRange → IntcpTransCB F nameLen × List ByteRange
  | cb, [] => (cb, [])
  | cb, p :: rest =>
    if MeetsNew p dataStart dataEnd then
      let maxStart := imax p.startByte dataStart
      let minEnd := imin p.endByte dataEnd
      let sent := sendData P cb (buffer.advance (maxStart - dataStart).toNat) maxStart minEnd
      let later := releaseInts buffer dataStart dataEnd sent.2 rest
      (later.1, remainder p maxStart minEnd ++ later.2)
    else
      let later := releaseInts buffer dataStart dataEnd cb rest
      (later.1, p :: later.2)

def notifyNewData (cb : IntcpTransCB F nameLen) (buffer : Buffer) (dataStart dataEnd : UInt32) :
    IntcpTransCB F nameLen :=
  let released := releaseInts P buffer dataStart dataEnd cb cb.pendingInts
  { released.1 with pendingInts := released.2 }

/-- The pieces of an interest that meets `[rangeStart, rangeEnd)`; the common one gets a new time. -/
def splitInt (seg : IntcpSeg) (rangeStart rangeEnd current : UInt32) : List IntcpSeg :=
  if seg.rangeEnd ≤ rangeEnd then
    if seg.rangeStart ≥ rangeStart then [{ seg with ts := current }]
    else [{ seg with rangeEnd := rangeStart }, { seg with rangeStart := rangeStart, ts := current }]
  else if seg.rangeStart ≥ rangeStart then
    [{ seg with rangeEnd := rangeEnd, ts := current }, { seg with rangeStart := rangeEnd }]
  else
    [{ seg with rangeEnd := rangeStart },
      { seg with rangeStart := rangeStart, rangeEnd := rangeEnd, ts := current },
      { seg with rangeStart := rangeEnd }]

/-- The loop of `updateIntBuf`. -/
def splitInts (rangeStart rangeEnd : UInt32) :
    IntcpTransCB F nameLen → List IntcpSeg → IntcpTransCB F nameLen × List IntcpSeg
  | cb, [] => (cb, [])
  | cb, seg :: rest =>
    if seg.rangeStart ≥ rangeEnd then (cb, seg :: rest)
    else if seg.rangeEnd ≤ rangeStart then
      let later := splitInts rangeStart rangeEnd cb rest
      (later.1, seg :: later.2)
    else
      let current := getMillisec P cb
      let cb := tick cb
      let later := splitInts rangeStart rangeEnd cb rest
      (later.1, splitInt seg rangeStart rangeEnd current ++ later.2)

def updateIntBuf (cb : IntcpTransCB F nameLen) (rangeStart rangeEnd : UInt32) :
    IntcpTransCB F nameLen :=
  let split := splitInts P rangeStart rangeEnd cb cb.intBuf
  { split.1 with intBuf := split.2 }

/-- How far an interest that starts at `rangeStart` and reaches `rangeEnd` extends over
the queue, and the queue without what it took. The first entry always joins, since
`rangeEnd` is then its own start. -/
def coalesce (rangeStart : UInt32) : UInt32 → List ByteRange → UInt32 × List ByteRange
  | rangeEnd, [] => (rangeEnd, [])
  | rangeEnd, r :: rest =>
    if r.startByte = rangeEnd then
      let rangeEnd := imin r.endByte (rangeStart + intcpIntRangeLimit)
      if r.endByte ≤ rangeEnd then coalesce rangeStart rangeEnd rest
      else (rangeEnd, { r with startByte := rangeEnd } :: rest)
    else (rangeEnd, r :: rest)

/-- One round of the outer loop of `flushIntQueue`. -/
def queuePass (cb : IntcpTransCB F nameLen) :
    Pass (IntcpTransCB F nameLen) (IntcpTransCB F nameLen) :=
  match cb.intQueue with
  | [] => .leave cb
  | r :: rest =>
    let taken := coalesce r.startByte r.startByte (r :: rest)
    let newseg := intSeg r.startByte taken.1 P.raw 0 0 P.raw.toUInt16.toInt16
    .again { cb with
      intQueue := taken.2
      intBufBytes := cb.intBufBytes + (newseg.rangeEnd - newseg.rangeStart).toInt32
      intBuf := cb.intBuf ++ [newseg] }

/-- The head of the queue starts at one of 2^32 offsets in each round, so a loop with
more rounds than this never ends. -/
def queueBudget (cb : IntcpTransCB F nameLen) : Nat := (cb.intQueue.length + 1) * 2 ^ 32 + 1

def flushIntQueue (cb : IntcpTransCB F nameLen) : Option (IntcpTransCB F nameLen) :=
  loop (queuePass P) (queueBudget cb) cb

/-- Whether the retransmission timer of an interest has run out. -/
def needSend (cb : IntcpTransCB F nameLen) (current : UInt32) (seg : IntcpSeg) : Bool :=
  if cb.nodeRole = .midnode then true
  else if seg.xmit = 0 then true
  else
    let backoff := P.pow (P.decimal 15 1) (P.ofInt (seg.xmit - 1).toNat)
    let segRto := P.toUInt (P.mul (P.ofInt cb.rto.toInt) (P.add backoff (P.ofInt 1)))
    decide (itimediff current seg.ts ≥ (segRto.toNat : Int))

structure IntFlush (F : Type u) (nameLen : Nat) where
  cb : IntcpTransCB F nameLen
  /-- What stays in `intBuf` of the segments visited so far. -/
  kept : List IntcpSeg
  cntTimeout : Nat
  reach_limit : Bool

def chargeLimit (cb : IntcpTransCB F nameLen) (size : UInt32) : IntcpTransCB F nameLen :=
  if cb.nodeRole = .requester then
    { cb with intOutputLimit := (cb.intOutputLimit.toUInt32 - size).toInt32 }
  else cb

def noteTimeout (cb : IntcpTransCB F nameLen) (seg : IntcpSeg) : IntcpTransCB F nameLen :=
  { cb with cc := { cb.cc with hasLossEvent := cb.cc.hasLossEvent || decide (seg.xmit > 0) } }

/-- Send an interest of `intBuf`; its range is no longer a hole to be asked for. -/
def sendInt (cb : IntcpTransCB F nameLen) (seg : IntcpSeg) : IntcpTransCB F nameLen :=
  outputInt P (deleteDataHole (noteTimeout cb seg) seg.rangeStart seg.rangeEnd)
    seg.rangeStart seg.rangeEnd

/-- The loop of `flushIntBuf` over the buffer. It stops at the output limit of the
requester, and with the process where a segment was sent too often. -/
def flushInts : IntFlush F nameLen → List IntcpSeg → IntFlush F nameLen
  | fl, [] => fl
  | fl, seg :: rest =>
    let current := getMillisec P fl.cb
    let cb := tick fl.cb
    let size := seg.rangeEnd - seg.rangeStart
    if needSend P cb current seg = false then
      flushInts { fl with cb := cb, kept := fl.kept ++ [seg] } rest
    else if cb.nodeRole = .requester ∧ cb.intOutputLimit.toUInt32 < size then
      { fl with cb := cb, kept := fl.kept ++ seg :: rest, reach_limit := true }
    else if seg.xmit ≥ intcpDeadlink then
      { fl with
        cb := { chargeLimit cb size with state := -1 }
        kept := fl.kept ++ seg :: rest }
    else
      let cb := sendInt P (chargeLimit cb size) seg
      let cntTimeout := if seg.xmit > 0 then fl.cntTimeout + 1 else fl.cntTimeout
      if cb.nodeRole = .midnode then
        flushInts { fl with
          cb := { cb with intBufBytes := (cb.intBufBytes.toUInt32 - size).toInt32 }
          cntTimeout := cntTimeout } rest
      else
        flushInts { fl with
          cb := cb
          kept := fl.kept ++ [{ seg with xmit := seg.xmit + 1, ts := current }]
          cntTimeout := cntTimeout } rest

/-- The output that the requester may add in a flush, when `srtt` is known. -/
def newIntOutput (cb : IntcpTransCB F nameLen) (intv : UInt32) : Int32 :=
  let share := fdiv P (fmul P (fofInt P cb.rmt_sndq_rest.toInt) (fofInt P intv.toNat))
    (fofInt P cb.srtt.toInt)
  let arrived := (mbitToBytes P cb.cc.thrpLastPeriod).toUInt32 * intv / 1000
  let newOutput := P.toInt (fadd P share (fofInt P arrived.toNat))
  let least := mbitToBytes P (sendrateMin P) * intv.toInt32 / 1000
  if newOutput < least then least else newOutput

/-- The adjustments at the end of `flushIntBuf`. -/
def settleFlush (cb : IntcpTransCB F nameLen) (newOutput : Int32) (reach_limit : Bool)
    (cntTimeout : Nat) : IntcpTransCB F nameLen :=
  let limit := if cb.srtt ≠ 0 ∧ reach_limit = false ∧ newOutput < cb.intOutputLimit then newOutput
    else cb.intOutputLimit
  let conseqTimeout := if cntTimeout > 0 then cb.conseqTimeout + 1 else cb.conseqTimeout
  let expand := fun rtt : Int32 =>
    if cntTimeout > 0 ∧ conseqTimeout < 10 then
      P.toInt (fmul P (fofInt P rtt.toInt) (P.single (P.decimal 11 1)))
    else rtt
  { cb with
    intOutputLimit := limit
    conseqTimeout := conseqTimeout
    srtt := expand cb.srtt
    rto := expand cb.rto }

def sendInts (cb : IntcpTransCB F nameLen) (newOutput : Int32) : IntcpTransCB F nameLen :=
  let fl := flushInts P ⟨cb, [], 0, false⟩ cb.intBuf
  if fl.cb.state = -1 then { fl.cb with intBuf := fl.kept }
  else settleFlush P { fl.cb with intBuf := fl.kept } newOutput fl.reach_limit fl.cntTimeout

def flushIntBuf (cb : IntcpTransCB F nameLen) : IntcpTransCB F nameLen :=
  if cb.intBufBytes = 0 then cb
  else
    let current := getMillisec P cb
    let cb := tick cb
    let newOutput := newIntOutput P cb (flushIntv cb current)
    let limit := if cb.srtt ≠ 0 then cb.intOutputLimit + newOutput else cb.intOutputLimit
    sendInts P { cb with intOutputLimit := limit } newOutput

def noteErased (cb : IntcpTransCB F nameLen) (erased : Bool) : IntcpTransCB F nameLen :=
  { cb with history := { cb.history with erasedUse := cb.history.erasedUse || erased } }

/-- Ask again for the bytes of a hole. -/
def recoverHole (cb : IntcpTransCB F nameLen) (hole : Hole) : IntcpTransCB F nameLen :=
  let cb := parseInt P cb hole.startByte hole.endByte
  if cb.nodeRole = .requester then updateIntBuf P cb hole.startByte hole.endByte else cb

/-- The loop of `flushDataHoles`; the holes that are kept come second. From 200 ms on the
entry is erased twice. -/
def flushHoles (current : UInt32) :
    IntcpTransCB F nameLen → List Hole → IntcpTransCB F nameLen × List Hole
  | cb, [] => (cb, [])
  | cb, hole :: rest =>
    let age := itimediff current hole.ts
    if age ≥ (intcpHoleWait.toNat : Int) then
      let cb := noteErased cb (decide (age ≥ (intcpSnholeTimeout.toNat : Int)))
      flushHoles current (recoverHole P cb hole) rest
    else
      let later := flushHoles current cb rest
      (later.1, hole :: later.2)

def flushDataHoles (cb : IntcpTransCB F nameLen) : IntcpTransCB F nameLen :=
  let current := getMillisec P cb
  let cb := tick cb
  let flushed := flushHoles P current cb cb.dataHoles
  { flushed.1 with dataHoles := flushed.2 }

end InterestPlane
