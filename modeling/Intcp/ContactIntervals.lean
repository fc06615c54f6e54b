import Intcp.Dicts
import Intcp.MaximalRuns
import Mathlib.Data.Rat.Defs
import Mathlib.Algebra.Order.Ring.Rat

/-!
# Bandwidth over a contact

`get_trace.py`: the bandwidth of an access link follows the time that its satellite stays
in contact. `get_complete_trace` finds the contacts from the changes of the first and the
last satellite, the relay-only variant by a pass forwards and one backwards over the
pairs of each step. Numbers are exact here and `round` stands for rounding to two
decimals; an index or a key that is not there, or a division by zero, ends the call.
-/

namespace ContactIntervals

open MaximalRuns Dicts

/-- A step of a trace. -/
structure LinksParam where
  topo : List Int
  rtt : List Rat
  loss : List Rat
  bw : List Rat

structure Trace where
  maxMidnodeNum : Nat
  totalMidnodeNum : Nat
  isls : List (Int × Int)
  linksParams : List LinksParam

def getBw (round : Rat → Rat) (bwMax : Rat) (startTs endTs currentTs : Int) : Option Rat :=
  if endTs - startTs = 0 then none
  else
    let c := 2 * bwMax / ((endTs - startTs : Int) : Rat) ^ 2
    let meanBw := round (c * (endTs - currentTs : Int) * (currentTs - startTs : Int)) + bwMax / 2
    if meanBw > 5 then
      if currentTs % 2 = 0 then some (meanBw + 1 / 2) else some (meanBw - 1 / 2)
    else some meanBw

/-- `l[i] = x`. -/
def put (l : List Rat) (i : Nat) (x : Rat) : Option (List Rat) :=
  if i < l.length then some (l.set i x) else none

/-- `l[-k] = x`. -/
def putBack (l : List Rat) (k : Nat) (x : Rat) : Option (List Rat) :=
  if k ≤ l.length then some (l.set (l.length - k) x) else none

structure Rates where
  uplinkBw : Rat := 5
  downlinkBw : Rat := 20
  islBw : Rat := 20
  groundLinkBw : Rat := 20
  uplinkLoss : Rat := 1 / 10
  downlinkLoss : Rat := 1 / 10
  islLoss : Rat := 1 / 10
  groundLinkLoss : Rat := 0
  groundLinkRtt : Rat := 50

structure Changes where
  downlinkChangeTs : List Nat
  uplinkChangeTs : List Nat
  prevDownlinkSatId : Int
  prevUplinkSatId : Int

def noteChanges (idx : Nat) (c : Changes) (topo : List Int) : Option Changes := do
  let downlinkSatId ← topo.head?
  let uplinkSatId ← topo.getLast?
  let c := if downlinkSatId ≠ c.prevDownlinkSatId then
    { c with
      downlinkChangeTs := c.downlinkChangeTs ++ [idx]
      prevDownlinkSatId := downlinkSatId }
    else c
  some (if uplinkSatId ≠ c.prevUplinkSatId then
    { c with
      uplinkChangeTs := c.uplinkChangeTs ++ [idx]
      prevUplinkSatId := uplinkSatId }
    else c)

def groundRtt (groundLinkRtt : Rat) (rtt : List Rat) : Option (List Rat) := do
  let rtt ← put rtt 0 groundLinkRtt
  putBack rtt 1 groundLinkRtt

def completeStep (r : Rates) (lp : LinksParam) : Option LinksParam := do
  let sats := lp.topo.length
  let loss := [r.groundLinkLoss, r.downlinkLoss] ++ List.replicate (sats - 1) r.islLoss ++
    [r.uplinkLoss, r.groundLinkLoss]
  let bw := [r.groundLinkBw, r.downlinkBw] ++ List.replicate (sats - 1) r.islBw ++
    [r.uplinkBw, r.groundLinkBw]
  let rtt ← groundRtt r.groundLinkRtt lp.rtt
  some { lp with rtt := rtt, loss := loss, bw := bw }

def completeSteps (r : Rates) :
    Nat → Changes → List LinksParam → Option (Changes × List LinksParam)
  | _, c, [] => some (c, [])
  | idx, c, lp :: lps => do
    let c ← noteChanges idx c lp.topo
    let lp ← completeStep r lp
    let (c, lps) ← completeSteps r (idx + 1) c lps
    some (c, lp :: lps)

/-- The access links, `bw[1]` and `bw[-2]`. -/
inductive Access where
  | downlink
  | uplink

def Access.put : Access → List Rat → Rat → Option (List Rat)
  | .downlink, bw, x => ContactIntervals.put bw 1 x
  | .uplink, bw, x => putBack bw 2 x

def fillTs (round : Rat → Rat) (access : Access) (bwMax : Rat) (startTs endTs : Nat) :
    List Nat → List LinksParam → Option (List LinksParam)
  | [], lps => some lps
  | j :: ts, lps => do
    let x ← getBw round bwMax startTs endTs j
    let lp ← lps[j]?
    let bw ← access.put lp.bw x
    fillTs round access bwMax startTs endTs ts (lps.set j { lp with bw := bw })

def fillChanges (round : Rat → Rat) (access : Access) (bwMax : Rat) :
    List Nat → List LinksParam → Option (List LinksParam)
  | startTs :: endTs :: changeTs, lps => do
    let lps ← fillTs round access bwMax startTs endTs (List.range' startTs (endTs - startTs)) lps
    fillChanges round access bwMax (endTs :: changeTs) lps
  | _, lps => some lps

def addBwFluct (round : Rat → Rat) (lps : List LinksParam) (downlinkChangeTs : List Nat)
    (downlinkBw : Rat) (uplinkChangeTs : List Nat) (uplinkBw : Rat) :
    Option (List LinksParam) := do
  let lps ← fillChanges round .downlink downlinkBw downlinkChangeTs lps
  fillChanges round .uplink uplinkBw uplinkChangeTs lps

def getCompleteTrace (round : Rat → Rat) (r : Rates) (bwFluctuation : Bool) (origin : Trace) :
    Option Trace := do
  let (c, lps) ← completeSteps r 0 ⟨[], [], -2, -2⟩ origin.linksParams
  let lps ← if bwFluctuation then
      addBwFluct round lps (c.downlinkChangeTs ++ [lps.length]) r.downlinkBw
        (c.uplinkChangeTs ++ [lps.length]) r.uplinkBw
    else some lps
  some { origin with linksParams := lps }

/-- The downlinks of a step, from a ground station to a satellite, with their contact. -/
abbrev DownlinkInfo := List ((Int × Int) × (Int × Int))

def notePairs (topo : List Int) : List Nat → DownlinkInfo → Option DownlinkInfo
  | [], info => some info
  | i :: is, info =>
    if i % 2 = 1 then do
      let gs ← topo[i]?
      let sat ← topo[i + 1]?
      notePairs topo is (assign info (gs, sat) (-1, -1))
    else notePairs topo is info

def downlinkInfo (topo : List Int) : Option DownlinkInfo := do
  let first ← topo[0]?
  notePairs topo (List.range topo.length) (assign [] (0, first) (-1, -1))

/-- `prev` is the step before, filled already. -/
def startOf (prev : Option DownlinkInfo) (i : Nat) (pair : Int × Int) : Int :=
  match prev.bind (get? · pair) with
  | none => i
  | some earlier => earlier.1

def fillStart : Option DownlinkInfo → Nat → List DownlinkInfo → List DownlinkInfo
  | _, _, [] => []
  | prev, i, info :: infos =>
    let info := info.map fun item => (item.1, (startOf prev i item.1, item.2.2))
    info :: fillStart (some info) (i + 1) infos

def endOf (next : Option DownlinkInfo) (i : Nat) (pair : Int × Int) : Int :=
  match next.bind (get? · pair) with
  | none => i + 1
  | some later => later.2

def fillEnd : Nat → List DownlinkInfo → List DownlinkInfo
  | _, [] => []
  | i, info :: infos =>
    let later := fillEnd (i + 1) infos
    info.map (fun item => (item.1, (item.2.1, endOf later.head? i item.1))) :: later

def fillPairs (round : Rat → Rat) (downlinkBw : Rat) (info : DownlinkInfo) (topo : List Int)
    (i : Nat) : List Nat → List Rat → Option (List Rat)
  | [], bw => some bw
  | j :: js, bw =>
    if j % 2 = 1 then do
      let gs ← topo[j]?
      let sat ← topo[j + 1]?
      let (startTs, endTs) ← get? info (gs, sat)
      let x ← getBw round downlinkBw startTs endTs i
      let bw ← put bw (j + 2) x
      fillPairs round downlinkBw info topo i js bw
    else fillPairs round downlinkBw info topo i js bw

def fillRelayStep (round : Rat → Rat) (downlinkBw : Rat) (i : Nat) (info : DownlinkInfo)
    (lp : LinksParam) : Option LinksParam := do
  let first ← lp.topo[0]?
  let (startTs, endTs) ← get? info (0, first)
  let x ← getBw round downlinkBw startTs endTs i
  let bw ← put lp.bw 1 x
  let bw ← fillPairs round downlinkBw info lp.topo i (List.range lp.topo.length) bw
  some { lp with bw := bw }

def fillRelaySteps (round : Rat → Rat) (downlinkBw : Rat) :
    Nat → List DownlinkInfo → List LinksParam → Option (List LinksParam)
  | _, _, [] => some []
  | _, [], _ :: _ => none
  | i, info :: infos, lp :: lps => do
    let lp ← fillRelayStep round downlinkBw i info lp
    let lps ← fillRelaySteps round downlinkBw (i + 1) infos lps
    some (lp :: lps)

def downlinkInfos (lps : List LinksParam) : Option (List DownlinkInfo) := do
  let infos ← lps.mapM (downlinkInfo ·.topo)
  some (fillEnd 0 (fillStart none 0 infos))

def addBwFluctRelayOnly (round : Rat → Rat) (lps : List LinksParam) (downlinkBw : Rat) :
    Option (List LinksParam) := do
  let infos ← downlinkInfos lps
  fillRelaySteps round downlinkBw 0 infos lps

def completeRelayStep (r : Rates) (lp : LinksParam) : Option LinksParam := do
  let midnodes := lp.topo.length
  let sats := (midnodes + 1) / 2
  let loss := [r.groundLinkLoss] ++
    (List.replicate sats [r.downlinkLoss, r.uplinkLoss]).flatten ++ [r.groundLinkLoss]
  let bw := [r.groundLinkBw] ++
    (List.replicate sats [r.downlinkBw, r.uplinkBw]).flatten ++ [r.groundLinkBw]
  let rtt ← groundRtt r.groundLinkRtt lp.rtt
  some { lp with rtt := rtt, loss := loss, bw := bw }

/-- Its `groundLinkRtt` is 20 unless it is given. -/
def getCompleteRelayOnlyTrace (round : Rat → Rat) (r : Rates) (bwFluctuation : Bool)
    (origin : Trace) : Option Trace := do
  let lps ← origin.linksParams.mapM (completeRelayStep r)
  let lps ← if bwFluctuation then addBwFluctRelayOnly round lps r.downlinkBw else some lps
  some { origin with linksParams := lps }

/-- What `get_trace` builds. -/
structure OriginTrace extends Trace where
  steps : linksParams ≠ []
  visited : ∀ lp ∈ linksParams, lp.topo ≠ []
  ids : ∀ lp ∈ linksParams, ∀ id ∈ lp.topo, 1 ≤ id
  rtts : ∀ lp ∈ linksParams, lp.rtt.length = lp.topo.length + 3

/-- Between two satellites there is a ground station. -/
structure RelayTrace extends OriginTrace where
  odd : ∀ lp ∈ linksParams, lp.topo.length % 2 = 1

end ContactIntervals
