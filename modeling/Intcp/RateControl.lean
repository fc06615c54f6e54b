import Intcp.TransControl

/-!
# Hop-by-hop rate control

The RTT-based scheme of ikcp.cpp: hop RTT and throughput measurement, the
congestion window, and the rate that interests announce. Nothing outside this
module looks into `CongControl`, apart from `hopSrtt` and `hasLossEvent`.
-/

namespace RateControl

open Words BlockCache TransControl

universe u
variable {F : Type u} {nameLen : Nat} (P : Platform F)

def sendrateMin : F := P.single (P.decimal 1 1)
def sendrateMax : F := P.single (P.ofInt 300)
def cwndMin : F := P.single (P.decimal 2 1)
def queueingThreshold : F := P.single (P.ofInt 3000)

def fofInt (n : Int) : F := P.single (P.ofInt n)
def fadd (a b : F) : F := P.single (P.add a b)
def fsub (a b : F) : F := P.single (P.sub a b)
def fmul (a b : F) : F := P.single (P.mul a b)
def fdiv (a b : F) : F := P.single (P.div a b)

/-- `std::max` and `std::min` keep the first argument of an unordered pair. -/
def fmax (a b : F) : F := if P.lt a b then b else a
def fmin (a b : F) : F := if P.lt b a then b else a

def bytesToMbit (bytes : Int32) : F := fdiv P (fofInt P bytes.toInt) (fofInt P 125000)
def mbitToBytes (mbit : F) : Int32 := P.toInt (fmul P mbit (fofInt P 125000))

/-- `cwnd * INTCP_MSS` -/
def cwndBytes (cwnd : F) : F := fmul P cwnd (fofInt P intcpMss.toNat)

def updateHopRTT (cc : CongControl F) (hop_rtt : Int32) : CongControl F :=
  if cc.hopSrtt = 0 then { cc with hopSrtt := hop_rtt, hopRttvar := hop_rtt / 2 }
  else
    let delta := (hop_rtt - cc.hopSrtt).toInt.natAbs
    let hopSrtt := (7 * cc.hopSrtt + hop_rtt) / 8
    { cc with
      hopRttvar := Int32.ofInt (((3 * cc.hopRttvar).toInt + delta).tdiv 4)
      hopSrtt := if hopSrtt < 1 then 1 else hopSrtt }

/-- The throughput part of `input`. -/
def measureThroughput (cc : CongControl F) (current len : UInt32) : CongControl F :=
  if cc.hopSrtt = 0 then cc
  else
    let received := cc.recvedBytesThisHRTT + (intcpOverhead + len).toInt32
    let since := if cc.lastThrpUpdateTs = 0 then current else cc.lastThrpUpdateTs
    if itimediff current since > cc.hopSrtt.toInt then
      { cc with
        recvedBytesLastHRTT := received
        thrpLastPeriod := fmul P (fdiv P (bytesToMbit P received)
          (fofInt P (current - since).toNat)) (fofInt P 1000)
        recvedBytesThisHRTT := 0
        lastThrpUpdateTs := current }
    else { cc with recvedBytesThisHRTT := received, lastThrpUpdateTs := since }

def allow_cwnd_increase (cc : CongControl F) : Bool :=
  if P.eq cc.thrpLastPeriod (fofInt P 0) || P.eq cc.cwnd (fofInt P 0) then true
  else
    let rate := fmul P (fdiv P (bytesToMbit P (P.toInt (cwndBytes P cc.cwnd)))
      (fofInt P cc.hopSrtt.toInt)) (fofInt P 1000)
    !P.lt cc.thrpLastPeriod (fdiv P rate (fofInt P 2))

def allow_cwnd_decrease (cc : CongControl F) (current : UInt32) : Bool :=
  if cc.lastCwndDecrTs = 0 ∨ cc.hopSrtt = 0 then true
  else !decide (itimediff current cc.lastCwndDecrTs < (cc.hopSrtt * 2).toInt)

/-- The samples of the last `HrttMinWnd`, with the current one if half a hop RTT has passed. -/
def sampleHrtt (cc : CongControl F) (current : UInt32) : List (UInt32 × Int32) :=
  let recent := cc.hrttQueue.dropWhile fun pr => decide (current - pr.1 > hrttMinWnd)
  let back := (recent.getLast?.map Prod.fst).getD P.emptyBack
  if current > back + (cc.hopSrtt / 2).toUInt32 then recent ++ [(current, cc.hopSrtt)] else recent

def minHrtt (start : Int32) (hrttQueue : List (UInt32 × Int32)) : Int32 :=
  hrttQueue.foldl (fun m pr => if pr.2 < m then pr.2 else m) start

def congSignal (cc : CongControl F) (least : Int32) : Bool :=
  if P.eq cc.thrpLastPeriod (fofInt P (-1)) then false
  else P.lt (queueingThreshold P)
    (fofInt P (mbitToBytes P cc.thrpLastPeriod * (cc.hopSrtt - least) / 1000).toInt)

def slowStart (cc : CongControl F) (signal : Bool) : CongControl F :=
  if signal || P.le (fofInt P intcpSsthreshInit.toNat) cc.cwnd then
    { cc with ccDataLen := P.toInt (cwndBytes P cc.cwnd), ccState := .congAvoid }
  else
    let segs := P.ofInt (cc.ccDataLen.toUInt32 / intcpMss).toNat
    let exponent := fmin P (P.decimal 5 0) (P.div (P.ofInt cc.hopSrtt.toInt) (P.ofInt intcpRtt0.toNat))
    { cc with cwnd := P.single (P.mul segs (P.sub (P.pow (P.ofInt 2) exponent) (P.ofInt 1))) }

def congAvoid (cc : CongControl F) (current : UInt32) (signal : Bool) (least : Int32) :
    CongControl F :=
  if signal then
    let perHrtt := fdiv P (fmul P (fdiv P (fofInt P (mbitToBytes P cc.thrpLastPeriod).toInt)
      (fofInt P 1000)) (fofInt P least.toInt)) (fofInt P intcpMss.toNat)
    let cwndNew := P.single (P.mul perHrtt (P.decimal 8 1))
    { cc with cwnd := fmax P cwndNew (cwndMin P), lastCwndDecrTs := current, ccDataLen := 0 }
  else
    let allowInc := allow_cwnd_increase P cc
    let dataLen := fofInt P cc.ccDataLen.toInt
    let tenth := fdiv P (cwndBytes P cc.cwnd) (fofInt P 10)
    let half := fdiv P (fmul P (fmul P (fofInt P 5) cc.cwnd) (fofInt P intcpMss.toNat)) (fofInt P 10)
    if P.lt tenth dataLen && allowInc then
      { cc with cwnd := fadd P cc.cwnd (fofInt P 1), ccDataLen := 0 }
    else if P.lt half dataLen && !allowInc then
      { cc with
        cwnd := fmax P (cwndMin P) (fsub P cc.cwnd (P.single (P.decimal 1 1))), ccDataLen := 0 }
    else cc

def updateCwnd (cb : IntcpTransCB F nameLen) (dataLen : UInt32) : IntcpTransCB F nameLen :=
  let current := getMillisec P cb
  let cb := tick cb
  let queue := sampleHrtt P cb.cc current
  let cc : CongControl F := { cb.cc with hrttQueue := queue }
  let least := minHrtt 99999999 queue
  let signal := congSignal P cc least
  let cc : CongControl F := { cc with ccDataLen := cc.ccDataLen + dataLen.toInt32 }
  let cc := if cc.ccState = .slowStart then slowStart P cc signal else cc
  let cc := if cc.ccState = .congAvoid ∧ allow_cwnd_decrease cc current then
    congAvoid P cc current signal least else cc
  { cb with cc := cc }

def getDataSendRate (cb : IntcpTransCB F nameLen) : Int16 :=
  let rate :=
    if cb.cc.hopSrtt = 0 then sendrateMin P
    else
      let least := minHrtt 999999 cb.cc.hrttQueue
      let rate := fmul P (fdiv P (bytesToMbit P (P.toInt (cwndBytes P cb.cc.cwnd)))
        (fofInt P least.toInt)) (fofInt P 1000)
      let room := fsub P (bytesToMbit P intcpSndqMax.toInt32) (bytesToMbit P cb.sndQueueBytes)
      let rateForQueue := fadd P (fmul P (fdiv P room (fofInt P cb.cc.hopSrtt.toInt))
        (fofInt P 1000)) cb.rmtSendRate
      let rate := if cb.nodeRole ≠ .requester then fmin P rate rateForQueue else rate
      fmax P rate (sendrateMin P)
  P.toInt16 (fmul P (fmin P rate (sendrateMax P)) (fofInt P 100))

/-- The distance of the send queue from `INTCP_SNDQ_MAX`, in segments. -/
def getIntDev (cb : IntcpTransCB F nameLen) : Int16 :=
  (intcpSndqMax / intcpMss).toUInt16.toInt16 -
    (cb.sndQueueBytes.toUInt32 / intcpMss).toUInt16.toInt16

end RateControl
