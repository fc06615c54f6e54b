import Intcp.DataPlane

/-!
# Data holes

The receive cursor `dataNextRangeStart` and the list of byte ranges that were
skipped. A segment behind the cursor cuts its bytes out of the list; one ahead
of it opens a hole, unless it is too far ahead or the cursor is still 0, and a
midnode announces the hole downstream.
-/

namespace HoleTracking

open Words BlockCache TransControl DataPlane

universe u
variable {F : Type u} {nameLen : Nat} (P : Platform F)

def insertDataHole (cb : IntcpTransCB F nameLen) (rangeStart rangeEnd : UInt32) :
    IntcpTransCB F nameLen :=
  let current := getMillisec P cb
  let cb := tick cb
  let newHole : Hole := { startByte := rangeStart, endByte := rangeEnd, ts := current, count := 0 }
  { cb with dataHoles := cb.dataHoles ++ [newHole] }

/-- The loop of `deleteDataHole`. -/
def cutHoles (rangeStart rangeEnd : UInt32) : List Hole → List Hole
  | [] => []
  | hole :: rest =>
    if hole.startByte ≥ rangeEnd then hole :: rest
    else if hole.endByte ≤ rangeStart then hole :: cutHoles rangeStart rangeEnd rest
    else if hole.endByte ≤ rangeEnd then
      if hole.startByte ≥ rangeStart then cutHoles rangeStart rangeEnd rest
      else { hole with endByte := rangeStart } :: cutHoles rangeStart rangeEnd rest
    else if hole.startByte ≥ rangeStart then
      { hole with startByte := rangeEnd } :: cutHoles rangeStart rangeEnd rest
    else
      { hole with endByte := rangeStart } :: { hole with startByte := rangeEnd } ::
        cutHoles rangeStart rangeEnd rest

def deleteDataHole (cb : IntcpTransCB F nameLen) (rangeStart rangeEnd : UInt32) :
    IntcpTransCB F nameLen :=
  { cb with dataHoles := cutHoles rangeStart rangeEnd cb.dataHoles }

/-- A range that starts too far ahead, or before anything was received. -/
def AbnormalHole (dataNextRangeStart rangeStart : UInt32) : Prop :=
  dataNextRangeStart = 0 ∨ rangeStart - dataNextRangeStart > 100 * intcpMss

instance (a b : UInt32) : Decidable (AbnormalHole a b) := inferInstanceAs (Decidable (_ ∨ _))

def detectDataHole (cb : IntcpTransCB F nameLen) (rangeStart rangeEnd : UInt32) :
    Bool × IntcpTransCB F nameLen :=
  if rangeStart = cb.dataNextRangeStart then
    (false, { cb with dataNextRangeStart := rangeEnd })
  else if rangeStart < cb.dataNextRangeStart then
    -- retransmission packet: the cursor stays
    (false, deleteDataHole cb rangeStart rangeEnd)
  else if AbnormalHole cb.dataNextRangeStart rangeStart then
    (false, { cb with dataNextRangeStart := rangeEnd })
  else
    let holeStart := cb.dataNextRangeStart
    let cb := insertDataHole P cb holeStart rangeStart
    let cb := if cb.nodeRole = .midnode then sendDataHeader P cb holeStart rangeStart else cb
    (true, { cb with dataNextRangeStart := rangeEnd })

end HoleTracking
