import Intcp.SegmentCodec
import Intcp.RateControl

/-!
# The data plane

How data segments enter and leave `sndQueue`: `sendData` cuts a buffer into
segments, `sendDataHeader` announces a range without payload, `parseData`
forwards a received segment, and `flushData` packs the queue into datagrams as
far as the output limit allows.
-/

namespace DataPlane

open Words BlockCache TransControl SegmentCodec RateControl

universe u
variable {F : Type u} {nameLen : Nat} (P : Platform F)

lemma length_header : ([] : List UInt8).length = (0 : UInt32).toNat := rfl

lemma length_chunk (buffer : Buffer) (size : UInt32) :
    (buffer.bytes size.toNat).length = size.toNat :=
  buffer.length_bytes size.toNat

/-- A PUSH segment fresh from `createSeg`: `sn` and `xmit` are whatever memory held. -/
def pushSeg (rangeStart rangeEnd len : UInt32) (data : List UInt8)
    (dataLen : data.length = len.toNat) : IntcpSeg where
  cmd := intcpCmdPush
  wnd := 0
  ts := 0
  sn := P.raw
  len := len
  rangeStart := rangeStart
  rangeEnd := rangeEnd
  xmit := P.raw
  data := data
  dataLen := dataLen

/-- The loop of `sendData`; every round sends a byte at least, so `len` rounds are enough. -/
def sendSegs : Nat → IntcpTransCB F nameLen → Buffer → UInt32 → UInt32 → IntcpTransCB F nameLen
  | 0, cb, _, _, _ => cb
  | fuel + 1, cb, buffer, start, len =>
    if len = 0 then cb
    else
      let size := if len > intcpMss then intcpMss else len
      let seg := pushSeg P start (start + size) size (buffer.bytes size.toNat)
        (length_chunk buffer size)
      sendSegs fuel (enqueue cb seg) (buffer.advance size.toNat) (start + size) (len - size)

def sendData (cb : IntcpTransCB F nameLen) (buffer : Buffer) (start «end» : UInt32) :
    Int32 × IntcpTransCB F nameLen :=
  let len := «end» - start
  if len.toInt32 ≤ 0 then (-1, cb)
  else (0, sendSegs P len.toNat cb buffer start len)

def sendDataHeader (cb : IntcpTransCB F nameLen) (rangeStart rangeEnd : UInt32) :
    IntcpTransCB F nameLen :=
  enqueue cb (pushSeg P rangeStart rangeEnd 0 [] length_header)

/-- The shipped `if (True)` moves the whole of `rcvBuf`. -/
def moveToRcvQueue (cb : IntcpTransCB F nameLen) : IntcpTransCB F nameLen :=
  { cb with rcvQueue := cb.rcvQueue ++ cb.rcvBuf, rcvBuf := [] }

def parseData (cb : IntcpTransCB F nameLen) (dataSeg : IntcpSeg) (data_header : Bool) :
    IntcpTransCB F nameLen :=
  let cb := if cb.nodeRole ≠ .requester then enqueue cb dataSeg else cb
  if data_header then cb
  else moveToRcvQueue { cb with rcvBuf := cb.rcvBuf ++ [dataSeg] }

/-- `flushData` between two segments: `tmpBuffer` holds `buf`. -/
structure Flushing (F : Type u) (nameLen : Nat) where
  cb : IntcpTransCB F nameLen
  buf : List UInt8

/-- The stamps that a segment gets on its way out. -/
def stamp (cb : IntcpTransCB F nameLen) (seg : IntcpSeg) : IntcpSeg :=
  { seg with
    sn := cb.dataNextSn
    ts := getMillisec P cb - cb.intHopOwd.toUInt32
    wnd := if cb.nodeRole = .responder then getIntDev cb else seg.wnd }

/-- Make room: what `tmpBuffer` holds goes out if the segment does not fit behind it. -/
def makeRoom (fl : Flushing F nameLen) (seg : IntcpSeg) : Flushing F nameLen :=
  if UInt32.ofNat fl.buf.length + (intcpOverhead + seg.len) > intcpMtu then
    { cb := output fl.cb fl.buf .requester, buf := [] }
  else fl

/-- One segment that the limit lets through. -/
def flushSeg (fl : Flushing F nameLen) (seg : IntcpSeg) : Flushing F nameLen :=
  let fl := { fl with cb := { fl.cb with
    dataOutputLimit := (fl.cb.dataOutputLimit.toUInt32 - (intcpOverhead + seg.len)).toInt32 } }
  let fl := makeRoom fl seg
  { cb := { tick fl.cb with
      dataNextSn := fl.cb.dataNextSn + 1
      sndQueueBytes := (fl.cb.sndQueueBytes.toUInt32 - (seg.len + intcpOverhead)).toInt32
      sndQueue := fl.cb.sndQueue.tail }
    buf := fl.buf ++ frame (stamp P fl.cb seg) }

/-- The loop of `flushData` over the queue; the flag is `reach_limit`. -/
def flushSegs : Flushing F nameLen → List IntcpSeg → Bool × Flushing F nameLen
  | fl, [] => (false, fl)
  | fl, seg :: rest =>
    if fl.cb.dataOutputLimit.toUInt32 < seg.len + intcpOverhead then (true, fl)
    else flushSegs (flushSeg P fl seg) rest

/-- The time since the last flush. -/
def flushIntv (cb : IntcpTransCB F nameLen) (current : UInt32) : UInt32 :=
  if cb.lastFlushTs ≠ 0 then current - cb.lastFlushTs else intcpUpdateInterval

/-- What was not used of the limit is lost, unless the limit was reached. -/
def settleLimit (cb : IntcpTransCB F nameLen) (reach_limit : Bool) (newOutput : Int32) :
    IntcpTransCB F nameLen :=
  { cb with dataOutputLimit :=
    if reach_limit = false ∧ newOutput < cb.dataOutputLimit then newOutput else cb.dataOutputLimit }

def flushData (cb : IntcpTransCB F nameLen) : IntcpTransCB F nameLen :=
  let intv := flushIntv cb (getMillisec P cb)
  let cb := tick cb
  let newOutput := mbitToBytes P
    (fdiv P (fmul P cb.rmtSendRate (fofInt P intv.toNat)) (fofInt P 1000))
  let cb := { cb with dataOutputLimit := cb.dataOutputLimit + newOutput }
  let flushed := flushSegs P ⟨cb, []⟩ cb.sndQueue
  let fl := flushed.2
  output (settleLimit fl.cb flushed.1 newOutput) fl.buf .requester

end DataPlane
