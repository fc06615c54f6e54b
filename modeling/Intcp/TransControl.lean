import Intcp.BlockCache

/-!
# The transport control block

The data model of ikcp.h in the shipped configuration (CUT_PAYLOAD, USE_CACHE,
HBH_CC, LARGE_SENDQ; no USE_PIT, no REORDER): constants, segments, ranges, holes
and the state of one `IntcpTransCB`, with the cache and the name of the session
that its callbacks reach. Fields that only this build leaves unused (the
packet-level bounds, `intHoles`, `rttQueue`, `rcvBufItrs`) and counters that are
only printed are left out.

`History` collects what left the node; no function of the node reads it.
-/

namespace TransControl

open Words BlockCache

universe u

def intcpOverhead : UInt32 := 23
def intcpMtu : UInt32 := 1472
def intcpMss : UInt32 := intcpMtu - intcpOverhead
def intcpIntRangeLimit : UInt32 := intcpMss
def intcpUpdateInterval : UInt32 := 1
def intcpDeadlink : UInt32 := 8
def intcpCmdInt : UInt8 := 80
def intcpCmdPush : UInt8 := 81
def intcpRtoDef : UInt32 := 10000
def intcpHoleWait : UInt32 := 10
def intcpSnholeTimeout : UInt32 := 200
def intcpSsthreshInit : UInt32 := 100
def intcpRtt0 : UInt32 := 30
def hrttMinWnd : UInt32 := 10000
def intcpSndqMax : UInt32 := 5 * intcpMss
def intcpIntbMax : UInt32 := 20000 * intcpMss

inductive Role where
  | requester
  | responder
  | midnode
  deriving DecidableEq, Repr

structure IntcpSeg where
  cmd : UInt8
  wnd : Int16
  ts : UInt32
  sn : UInt32
  len : UInt32
  rangeStart : UInt32
  rangeEnd : UInt32
  xmit : UInt32
  data : List UInt8
  dataLen : data.length = len.toNat
  deriving DecidableEq

structure ByteRange where
  startByte : UInt32
  endByte : UInt32
  ts : UInt32
  deriving DecidableEq, Repr

structure Hole where
  startByte : UInt32
  endByte : UInt32
  ts : UInt32
  count : Int32
  deriving DecidableEq, Repr

/-- What the program takes from the machine: the readings of `_getMillisec()` in
order, words of fresh memory, the front of an empty `hrttQueue`, and arithmetic on
`double`. A `float` operation is the `double` one followed by `single`. -/
structure Platform (F : Type u) where
  clock : Nat → UInt32
  raw : UInt32
  emptyBack : UInt32
  ofInt : Int → F
  /-- `decimal n k` is the constant `n / 10 ^ k`. -/
  decimal : Nat → Nat → F
  add : F → F → F
  sub : F → F → F
  mul : F → F → F
  div : F → F → F
  pow : F → F → F
  lt : F → F → Bool
  le : F → F → Bool
  eq : F → F → Bool
  single : F → F
  toInt : F → Int32
  toUInt : F → UInt32
  toInt16 : F → Int16

/-- A platform to evaluate with: exact rational arithmetic and whole exponents. -/
def Platform.exact (clock : Nat → UInt32) : Platform Rat where
  clock := clock
  raw := 0
  emptyBack := 0
  ofInt := fun n => n
  decimal := fun n k => (n : Rat) / (10 : Rat) ^ k
  add := fun a b => a + b
  sub := fun a b => a - b
  mul := fun a b => a * b
  div := fun a b => a / b
  pow := fun a b => a ^ b.floor.toNat
  lt := fun a b => decide (a < b)
  le := fun a b => decide (a ≤ b)
  eq := fun a b => decide (a = b)
  single := fun a => a
  toInt := fun a => Int32.ofInt (a.num.tdiv a.den)
  toUInt := fun a => UInt32.ofInt (a.num.tdiv a.den)
  toInt16 := fun a => Int16.ofInt (a.num.tdiv a.den)

/-- The clock gains a millisecond at every reading. -/
def freeClock : Platform Rat := Platform.exact fun n => UInt32.ofNat n

inductive CcState where
  | slowStart
  | congAvoid
  deriving DecidableEq, Repr

/-- Hop-by-hop congestion control and its measurements. -/
structure CongControl (F : Type u) where
  ccState : CcState
  ccDataLen : Int32
  cwnd : F
  hopSrtt : Int32
  hopRttvar : Int32
  lastThrpUpdateTs : UInt32
  recvedBytesLastHRTT : Int32
  recvedBytesThisHRTT : Int32
  thrpLastPeriod : F
  hasLossEvent : Bool
  hrttQueue : List (UInt32 × Int32)
  lastCwndDecrTs : UInt32

structure History where
  /-- Datagrams passed to `outputFunc` for the requester and for the responder. -/
  toRequester : List (List UInt8)
  toResponder : List (List UInt8)
  /-- Segments put into `sndQueue`. -/
  queued : List IntcpSeg
  /-- Ranges that `request` put into `intQueue`, and those it refused with -1. -/
  accepted : List ByteRange
  refused : List ByteRange
  /-- A list node was used after it had been erased. -/
  erasedUse : Bool

structure IntcpTransCB (F : Type u) (nameLen : Nat) where
  nodeRole : Role
  /-- -1 once the link is dead and the process has exited. -/
  state : Int32
  updated : UInt32
  nextFlushTs : UInt32
  lastFlushTs : UInt32
  lastPrintTs : UInt32
  intQueue : List ByteRange
  intBuf : List IntcpSeg
  rcvBuf : List IntcpSeg
  rcvNxt : UInt32
  rcvQueue : List IntcpSeg
  pendingInts : List ByteRange
  sndQueue : List IntcpSeg
  srtt : Int32
  rto : Int32
  conseqTimeout : Int32
  dataNextSn : UInt32
  intNextSn : UInt32
  dataHoles : List Hole
  dataNextRangeStart : UInt32
  rmt_sndq_rest : Int32
  intOutputLimit : Int32
  intHopOwd : Int32
  cc : CongControl F
  lastSendIntTs : UInt32
  sndQueueBytes : Int32
  intBufBytes : Int32
  rmtSendRate : F
  dataOutputLimit : Int32
  /-- `sess->nameChars` and `*sess->cachePtr` of the session behind `user`. -/
  nameChars : Vector UInt8 nameLen
  cache : Cache nameLen
  /-- The number of clock readings taken. -/
  reads : Nat
  history : History

variable {F : Type u} {nameLen : Nat}

/-- The constructor. -/
def IntcpTransCB.create (P : Platform F) (nodeRole : Role) (nameChars : Vector UInt8 nameLen)
    (cache : Cache nameLen) : IntcpTransCB F nameLen where
  nodeRole := nodeRole
  state := 0
  updated := 0
  nextFlushTs := 0
  lastFlushTs := 0
  lastPrintTs := P.clock 1
  intQueue := []
  intBuf := []
  rcvBuf := []
  rcvNxt := 0
  rcvQueue := []
  pendingInts := []
  sndQueue := []
  srtt := 0
  rto := intcpRtoDef.toInt32
  conseqTimeout := 0
  dataNextSn := 0
  intNextSn := 0
  dataHoles := []
  dataNextRangeStart := 0
  rmt_sndq_rest := intcpSndqMax.toInt32
  intOutputLimit := intcpSndqMax.toInt32
  intHopOwd := -1
  cc := {
    ccState := .slowStart
    ccDataLen := 0
    cwnd := P.single (P.decimal 2 1)
    hopSrtt := 0
    hopRttvar := 0
    lastThrpUpdateTs := 0
    recvedBytesLastHRTT := 0
    recvedBytesThisHRTT := 0
    thrpLastPeriod := P.single (P.ofInt 0)
    hasLossEvent := false
    hrttQueue := []
    lastCwndDecrTs := 0 }
  lastSendIntTs := 0
  sndQueueBytes := 0
  intBufBytes := 0
  rmtSendRate := P.single (P.decimal 1 1)
  dataOutputLimit := intcpMss.toInt32
  nameChars := nameChars
  cache := cache
  reads := 2
  history := {
    toRequester := []
    toResponder := []
    queued := []
    accepted := []
    refused := []
    erasedUse := false }

/-- `_getMillisec()`: the next reading of the clock, which `tick` consumes. -/
def getMillisec (P : Platform F) (cb : IntcpTransCB F nameLen) : UInt32 := P.clock cb.reads

def tick (cb : IntcpTransCB F nameLen) : IntcpTransCB F nameLen :=
  { cb with reads := cb.reads + 1 }

/-- `output`: an empty buffer is not passed on. -/
def output (cb : IntcpTransCB F nameLen) (data : List UInt8) (dstRole : Role) :
    IntcpTransCB F nameLen :=
  if data.length = 0 then cb
  else match dstRole with
    | .requester => { cb with
        history := { cb.history with toRequester := cb.history.toRequester ++ [data] } }
    | _ => { cb with
        history := { cb.history with toResponder := cb.history.toResponder ++ [data] } }

/-- `sndQueue.push_back(seg); sndQueueBytes += (INTCP_OVERHEAD + seg->len)` -/
def enqueue (cb : IntcpTransCB F nameLen) (seg : IntcpSeg) : IntcpTransCB F nameLen :=
  { cb with
    sndQueue := cb.sndQueue ++ [seg]
    sndQueueBytes := cb.sndQueueBytes + (intcpOverhead + seg.len).toInt32
    history := { cb.history with queued := cb.history.queued ++ [seg] } }

end TransControl
