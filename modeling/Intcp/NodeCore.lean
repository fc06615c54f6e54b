import Intcp.InterestPlane
import Intcp.StepRuns

/-!
# One node

The entry points of `IntcpTransCB`: `input`, `flush`, `update`, `check` and
`recv`, and the calls that a run of a node is made of. A call returns `none`
where the program never returns from it. Once `state` is -1 the process has
exited and nothing happens any more.
-/

namespace NodeCore

open Words BlockCache TransControl SegmentCodec RateControl DataPlane HoleTracking InterestPlane

universe u
variable {F : Type u} {nameLen : Nat} (P : Platform F)

/-- The INT branch of `input`. -/
def inputInt (cb : IntcpTransCB F nameLen) (s : IntcpSeg) : IntcpTransCB F nameLen :=
  let current := getMillisec P cb
  let cb := tick cb
  let cb := { cb with
    intHopOwd := (current - s.ts).toInt32
    rmtSendRate := fdiv P (fofInt P s.wnd.toInt) (fofInt P 100) }
  if s.rangeStart = 0 ∧ s.rangeEnd = 0 then cb else parseInt P cb s.rangeStart s.rangeEnd

/-- Flow control: the room that the other side announces. -/
def takeWnd (cb : IntcpTransCB F nameLen) (s : IntcpSeg) : IntcpTransCB F nameLen :=
  if s.len ≠ 0 ∧ s.wnd ≠ 0 then
    { cb with rmt_sndq_rest := (s.wnd.toInt32.toUInt32 * intcpMss).toInt32 }
  else cb

def sampleHop (cb : IntcpTransCB F nameLen) (current : UInt32) (s : IntcpSeg) :
    IntcpTransCB F nameLen :=
  let cc := if current > s.ts then updateHopRTT cb.cc (current - s.ts).toInt32 else cb.cc
  { cb with cc := measureThroughput P cc current s.len }

/-- An empty interest if none was sent for most of a hop RTT. -/
def announceRate (cb : IntcpTransCB F nameLen) (current : UInt32) : IntcpTransCB F nameLen :=
  if cb.nodeRole ≠ .responder ∧ P.lt (P.mul (P.ofInt cb.cc.hopSrtt.toInt) (P.decimal 9 1))
      (P.ofInt (current - cb.lastSendIntTs).toNat) then
    outputInt P cb 0 0
  else cb

/-- The part of the PUSH branch before hole detection. -/
def measureHop (cb : IntcpTransCB F nameLen) (current : UInt32) (s : IntcpSeg) :
    IntcpTransCB F nameLen :=
  announceRate P (updateCwnd P (sampleHop P (takeWnd cb s) current s) s.len) current

/-- Hole detection, with the loss signal it raises. -/
def detect (cb : IntcpTransCB F nameLen) (s : IntcpSeg) : IntcpTransCB F nameLen :=
  let detected := detectDataHole P cb s.rangeStart s.rangeEnd
  let cb := detected.2
  { cb with cc := { cb.cc with hasLossEvent := cb.cc.hasLossEvent || detected.1 } }

/-- The segment that `input` builds from a decoded header; `sn` is not copied. -/
def rebuilt (s : IntcpSeg) : IntcpSeg := { s with sn := P.raw, xmit := P.raw }

/-- The PUSH branch of `input`; the flag is false where it breaks out of the loop. -/
def inputPush (cb : IntcpTransCB F nameLen) (current : UInt32) (s : IntcpSeg) :
    Bool × IntcpTransCB F nameLen :=
  let cb := detect P (measureHop P cb current s) s
  if s.len = 0 then (true, parseData cb (rebuilt P s) true)
  else if s.rangeEnd - s.rangeStart ≠ s.len then (false, cb)
  else (true, parseData cb (rebuilt P s) false)

/-- The loop of `input`. -/
def inputLoop : Nat → List UInt8 → IntcpTransCB F nameLen → Int32 × IntcpTransCB F nameLen
  | 0, _, cb => (0, cb)
  | fuel + 1, data, cb =>
    let current := getMillisec P cb
    let cb := tick cb
    match nextSeg P.raw data with
    | .short => (0, cb)
    | .fault code => (code, cb)
    | .seg s rest =>
      if s.cmd = intcpCmdInt then inputLoop fuel rest (inputInt P cb s)
      else
        let pushed := inputPush P cb current s
        if pushed.1 then inputLoop fuel rest pushed.2 else (0, pushed.2)

/-- A round takes 23 bytes at least, and the last one none. -/
def input (cb : IntcpTransCB F nameLen) (data : List UInt8) : Int32 × IntcpTransCB F nameLen :=
  if data.length < intcpOverhead.toNat then (-1, cb)
  else inputLoop P (data.length + 1) data cb

def flushIntPart (cb : IntcpTransCB F nameLen) : Option (IntcpTransCB F nameLen) :=
  if cb.nodeRole = .responder then some cb else (flushIntQueue P cb).map (flushIntBuf P)

def flushHolePart (cb : IntcpTransCB F nameLen) : IntcpTransCB F nameLen :=
  if cb.nodeRole = .responder then cb else flushDataHoles P cb

def flushDataPart (cb : IntcpTransCB F nameLen) : IntcpTransCB F nameLen :=
  if cb.nodeRole = .requester then cb else flushData P cb

def flush (cb : IntcpTransCB F nameLen) : Option (IntcpTransCB F nameLen) :=
  let tmp := getMillisec P cb
  let cb := tick cb
  if cb.updated = 0 then some cb
  else (flushIntPart P cb).map fun cb =>
    if cb.state = -1 then cb else { flushDataPart P (flushHolePart P cb) with lastFlushTs := tmp }

/-- The once-a-second part of `update`. -/
def resetStat (cb : IntcpTransCB F nameLen) (current : UInt32) : IntcpTransCB F nameLen :=
  if current - cb.lastPrintTs > 1000 then
    { tick cb with rcvNxt := 0, rcvBuf := [], lastPrintTs := getMillisec P cb }
  else cb

def firstUpdate (cb : IntcpTransCB F nameLen) (current : UInt32) : IntcpTransCB F nameLen :=
  if cb.updated = 0 then { cb with updated := 1, nextFlushTs := current } else cb

def update (cb : IntcpTransCB F nameLen) : Option (IntcpTransCB F nameLen) :=
  let current := getMillisec P cb
  let cb := firstUpdate (resetStat P (tick cb) current) current
  let slap := (current - cb.nextFlushTs).toInt32
  if slap ≥ 0 ∨ slap < -10000 then
    (flush P cb).map fun cb =>
      { cb with nextFlushTs :=
        if slap.toUInt32 ≥ intcpUpdateInterval ∨ slap < -10000 then current + intcpUpdateInterval
        else cb.nextFlushTs + intcpUpdateInterval }
  else some cb

def check (cb : IntcpTransCB F nameLen) : UInt32 × IntcpTransCB F nameLen :=
  let currentU := getMillisec P cb
  let cb := tick cb
  if cb.updated = 0 then (currentU, cb)
  else if itimediff currentU cb.nextFlushTs ≥ 0 ∨ itimediff currentU cb.nextFlushTs < -10000 then
    (currentU, cb)
  else (imin cb.nextFlushTs (currentU + intcpUpdateInterval), cb)

structure Received where
  code : Int32
  start : Option UInt32
  «end» : Option UInt32
  buffer : List UInt8

/-- The loop of the responder's `recv`: the end reached, the bytes copied and the rest. -/
def recvSegs (maxBufSize : Int32) (start : UInt32) :
    UInt32 → List IntcpSeg → UInt32 × List UInt8 × List IntcpSeg
  | stop, [] => (stop, [], [])
  | stop, seg :: rest =>
    if seg.len + stop - start > maxBufSize.toUInt32 then (stop, [], seg :: rest)
    else if stop ≠ seg.rangeStart then (stop, [], seg :: rest)
    else
      let later := recvSegs maxBufSize start (stop + seg.len) rest
      (later.1, seg.data ++ later.2.1, later.2.2)

def recv (cb : IntcpTransCB F nameLen) (maxBufSize : Int32) : Received × IntcpTransCB F nameLen :=
  match cb.rcvQueue with
  | [] => (⟨-1, none, none, []⟩, cb)
  | seg :: rest =>
    if cb.nodeRole ≠ .responder then
      if seg.rangeEnd - seg.rangeStart ≠ seg.len then
        (⟨0, none, none, []⟩, { cb with rcvQueue := rest })
      else if seg.len ≤ maxBufSize.toUInt32 then
        (⟨0, some seg.rangeStart, some seg.rangeEnd, seg.data⟩, { cb with rcvQueue := rest })
      else (⟨0, none, none, []⟩, cb)
    else
      let got := recvSegs maxBufSize seg.rangeStart seg.rangeStart (seg :: rest)
      (⟨0, some seg.rangeStart, some got.1, got.2.1⟩, { cb with rcvQueue := got.2.2 })

/-- `IntcpSess::insertData` -/
def insertData (cb : IntcpTransCB F nameLen) (sendBuf : Buffer) (start «end» : UInt32) :
    Option (IntcpTransCB F nameLen) :=
  (BlockCache.insert cb.cache cb.nameChars start «end» sendBuf).map fun cache =>
    notifyNewData P { cb with cache := cache } sendBuf start «end»

/-- What can happen to a node: the calls on its control block, and the calls of
others on the cache that it shares. -/
inductive Op (nameLen : Nat) where
  | input (data : List UInt8)
  | request (rangeStart rangeEnd : UInt32)
  | parseInt (rangeStart rangeEnd : UInt32)
  | notifyNewData (buffer : Buffer) (dataStart dataEnd : UInt32)
  | insertData (sendBuf : Buffer) (start stop : UInt32)
  | sendData (buffer : Buffer) (start stop : UInt32)
  | sendDataHeader (rangeStart rangeEnd : UInt32)
  | parseData (dataSeg : IntcpSeg) (data_header : Bool)
  | recv (maxBufSize : Int32)
  | flush
  | update
  | cacheInsert (name : Vector UInt8 nameLen) (dataStart dataEnd : UInt32) (dataBuf : Buffer)
  | cacheRead (name : Vector UInt8 nameLen) (dataStart dataEnd : UInt32)

def Op.act (op : Op nameLen) (cb : IntcpTransCB F nameLen) : Option (IntcpTransCB F nameLen) :=
  match op with
  | .input data => some (NodeCore.input P cb data).2
  | .request s e => some (InterestPlane.request P cb s e).2
  | .parseInt s e => some (InterestPlane.parseInt P cb s e)
  | .notifyNewData buffer s e => some (InterestPlane.notifyNewData P cb buffer s e)
  | .insertData buffer s e => NodeCore.insertData P cb buffer s e
  | .sendData buffer s e => some (DataPlane.sendData P cb buffer s e).2
  | .sendDataHeader s e => some (DataPlane.sendDataHeader P cb s e)
  | .parseData seg header => some (DataPlane.parseData cb seg header)
  | .recv maxBufSize => some (NodeCore.recv cb maxBufSize).2
  | .flush => NodeCore.flush P cb
  | .update => NodeCore.update P cb
  | .cacheInsert name s e dataBuf =>
    (BlockCache.insert cb.cache name s e dataBuf).map fun cache => { cb with cache := cache }
  | .cacheRead name s e =>
    some { cb with cache := (BlockCache.read cb.cache name s e fun _ => 0).cache }

def Op.step (op : Op nameLen) (cb : IntcpTransCB F nameLen) : Option (IntcpTransCB F nameLen) :=
  if cb.state = -1 then some cb else op.act P cb

end NodeCore
