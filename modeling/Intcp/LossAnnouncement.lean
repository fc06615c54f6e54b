import Intcp.DataFifo
import Intcp.HoleInvariants
import Intcp.GapRelay

/-!
# Hop-local loss announcement

A midnode forwards what it receives and announces the holes it opens. Whoever
receives what it forwards, in order, keeps the same cursor and never opens a hole:
the midnode is a relay, and `input` of the next node follows it.
-/

namespace LossAnnouncement

open GapRelay Words BlockCache TransControl SegmentCodec DataPlane HoleTracking InterestPlane NodeCore
  CallRules InputLoop DataFifo HoleInvariants

universe u v
variable {F : Type u} {nameLen : Nat} {P : Platform F}

def range (s : IntcpSeg) : UInt32 × UInt32 := (s.rangeStart, s.rangeEnd)

/-- The segments that a step put into `sndQueue`, each with the cursor it stands for: the
last with the cursor behind the step, a header with the start of the segment `s` that
revealed the hole. -/
def stepQueued (before after : IntcpTransCB F nameLen) (s : IntcpSeg) : List (IntcpSeg × UInt32) :=
  let queued := after.history.queued.drop before.history.queued.length
  queued.dropLast.map (fun seg => (seg, s.rangeStart)) ++
    queued.getLast?.toList.map fun seg => (seg, after.dataNextRangeStart)

def queuedBySegs (P : Platform F) : IntcpTransCB F nameLen → List IntcpSeg →
    List (IntcpSeg × UInt32)
  | _, [] => []
  | cb, s :: rest =>
    stepQueued cb (handle P cb s).2 s ++ queuedBySegs P (handle P cb s).2 rest

/-- What a node queues as it receives a series of datagrams. -/
def queuedBy (P : Platform F) : IntcpTransCB F nameLen → List (List UInt8) →
    List (IntcpSeg × UInt32)
  | _, [] => []
  | cb, data :: rest =>
    queuedBySegs P cb (decode P.raw data).2 ++ queuedBy P (input P cb data).2 rest

def cursorsBySegs (P : Platform F) : IntcpTransCB F nameLen → List IntcpSeg →
    List (UInt32 × List Hole)
  | _, [] => []
  | cb, s :: rest =>
    let after := (handle P cb s).2
    (after.dataNextRangeStart, after.dataHoles) :: cursorsBySegs P after rest

/-- The cursor and the holes of a node after each segment of a series of datagrams. -/
def cursorsBy (P : Platform F) : IntcpTransCB F nameLen → List (List UInt8) →
    List (UInt32 × List Hole)
  | _, [] => []
  | cb, data :: rest =>
    cursorsBySegs P cb (decode P.raw data).2 ++ cursorsBy P (input P cb data).2 rest

/-- The part of the state that forwarding depends on. -/
def SameForward (cb cb' : IntcpTransCB F nameLen) : Prop :=
  cb'.nodeRole = cb.nodeRole ∧ SameHoles cb cb' ∧ cb'.history.queued = cb.history.queued

lemma measureHop_sameForward (cb : IntcpTransCB F nameLen) (current : UInt32) (s : IntcpSeg) :
    SameForward cb (measureHop P cb current s) := by
  have hself : SameForward cb cb := ⟨rfl, ⟨rfl, rfl⟩, rfl⟩
  apply measureHop_rule (SameForward cb) _ _ _ hself
  · intro cb h
    exact h
  · intro cb cc rest h
    exact h
  · intro cb h _
    rw [outputInt_eq]
    exact h

/-- A midnode announces exactly the gaps. -/
lemma detectDataHole_queued (cb : IntcpTransCB F nameLen) (rangeStart rangeEnd : UInt32) :
    (detectDataHole P cb rangeStart rangeEnd).2.nodeRole = cb.nodeRole ∧
    (cb.nodeRole = .midnode →
      (detectDataHole P cb rangeStart rangeEnd).2.history.queued = cb.history.queued ++
        if Opens AbnormalHole cb.dataNextRangeStart (rangeStart, rangeEnd) then
          [pushSeg P cb.dataNextRangeStart rangeStart 0 [] length_header] else []) := by
  simp only [detectDataHole]
  by_cases heq : rangeStart = cb.dataNextRangeStart
  · have hnone : ¬ Opens AbnormalHole cb.dataNextRangeStart (rangeStart, rangeEnd) :=
      fun h => not_lt_self _ (heq ▸ h.1)
    simp only [if_pos heq, if_neg hnone, List.append_nil, implies_true, and_self]
  · by_cases hlt : rangeStart < cb.dataNextRangeStart
    · have hnone : ¬ Opens AbnormalHole cb.dataNextRangeStart (rangeStart, rangeEnd) :=
        fun h => UInt32.lt_asymm h.1 hlt
      simp only [if_neg heq, if_pos hlt, if_neg hnone, deleteDataHole, List.append_nil, implies_true,
        and_self]
    · by_cases habnormal : AbnormalHole cb.dataNextRangeStart rangeStart
      · have hnone : ¬ Opens AbnormalHole cb.dataNextRangeStart (rangeStart, rangeEnd) :=
          fun h => h.2 habnormal
        simp only [if_neg heq, if_neg hlt, if_pos habnormal, if_neg hnone, List.append_nil,
          implies_true, and_self]
      · have hopens : Opens AbnormalHole cb.dataNextRangeStart (rangeStart, rangeEnd) :=
          ⟨by grind, habnormal⟩
        rw [if_neg heq, if_neg hlt, if_neg habnormal, if_pos hopens]
        have hrole : (insertDataHole P cb cb.dataNextRangeStart rangeStart).nodeRole =
          cb.nodeRole := rfl
        rw [hrole]
        by_cases hmid : cb.nodeRole = .midnode
        · simp only [if_pos hmid, sendDataHeader, enqueue, insertDataHole, tick, implies_true, and_self]
        · simp only [if_neg hmid, insertDataHole, tick, true_and]
          exact fun h => absurd h hmid

/-- The cursor moves as a relay's does; a gap is all that can open a hole. -/
lemma detectDataHole_moved (cb : IntcpTransCB F nameLen) (rangeStart rangeEnd : UInt32) :
    (detectDataHole P cb rangeStart rangeEnd).2.dataNextRangeStart =
        moved cb.dataNextRangeStart (rangeStart, rangeEnd) ∧
      (cb.dataHoles = [] → ¬ Opens AbnormalHole cb.dataNextRangeStart (rangeStart, rangeEnd) →
        (detectDataHole P cb rangeStart rangeEnd).2.dataHoles = []) := by
  rw [moved]
  rcases detectDataHole_cases (P := P) cb rangeStart rangeEnd with ⟨hs, hholes, hcursor⟩ |
    ⟨hback, hholes, hcursor⟩ | ⟨hahead, _, hholes, hcursor⟩ | ⟨hahead, hnormal, hholes, hcursor⟩
  · rw [if_neg (hs ▸ not_lt_self rangeStart), hholes]
    exact ⟨hcursor, fun h _ => h⟩
  · rw [if_pos hback, hholes]
    refine ⟨hcursor, ?_⟩
    intro hnil _
    rw [hnil, cutHoles]
  · rw [if_neg (UInt32.lt_asymm hahead), hholes]
    exact ⟨hcursor, fun h _ => h⟩
  · rw [if_neg (UInt32.lt_asymm hahead)]
    exact ⟨hcursor, fun _ hnone => absurd ⟨hahead, hnormal⟩ hnone⟩

/-- A whole segment goes through hole detection and is forwarded. -/
lemma handle_whole (cb : IntcpTransCB F nameLen) {s : IntcpSeg} (whole : Whole s) :
    ∃ m cc header, SameForward cb m ∧ handle P cb s =
      (true, parseData { (detectDataHole P m s.rangeStart s.rangeEnd).2 with cc := cc }
        (rebuilt P s) header) := by
  have hint : s.cmd ≠ intcpCmdInt := by
    rw [whole.1]
    decide
  have hsame : SameForward cb (measureHop P (tick cb) (getMillisec P cb) s) :=
    measureHop_sameForward (tick cb) _ s
  simp only [handle, if_neg hint, inputPush, detect]
  by_cases hlen : s.len = 0
  · rw [if_pos hlen]
    exact ⟨_, _, true, hsame, rfl⟩
  · have hrange : s.rangeEnd - s.rangeStart = s.len := whole.2.resolve_left hlen
    rw [if_neg hlen, if_neg (not_not.mpr hrange)]
    exact ⟨_, _, false, hsame, rfl⟩

lemma parseData_forward (cb : IntcpTransCB F nameLen) (seg : IntcpSeg) (header : Bool) :
    (parseData cb seg header).nodeRole = cb.nodeRole ∧ SameHoles cb (parseData cb seg header) ∧
      (cb.nodeRole = .midnode →
        (parseData cb seg header).history.queued = cb.history.queued ++ [seg]) := by
  have hmid : Role.midnode ≠ Role.requester := by decide
  simp only [parseData]
  cases header with
  | true =>
    simp only [if_true]
    split
    · exact ⟨rfl, ⟨rfl, rfl⟩, fun _ => rfl⟩
    · rename_i hrole
      exact ⟨rfl, ⟨rfl, rfl⟩, fun h => absurd (h ▸ hmid) hrole⟩
  | false =>
    simp only [Bool.false_eq_true, if_false, moveToRcvQueue]
    split
    · exact ⟨rfl, ⟨rfl, rfl⟩, fun _ => rfl⟩
    · rename_i hrole
      exact ⟨rfl, ⟨rfl, rfl⟩, fun h => absurd (h ▸ hmid) hrole⟩

/-- What handling a whole segment does to cursor and holes. -/
lemma handle_cursor (cb : IntcpTransCB F nameLen) {s : IntcpSeg} (whole : Whole s) :
    (handle P cb s).2.dataNextRangeStart = moved cb.dataNextRangeStart (range s) ∧
      (cb.dataHoles = [] → ¬ Opens AbnormalHole cb.dataNextRangeStart (range s) →
        (handle P cb s).2.dataHoles = []) := by
  obtain ⟨m, cc, header, ⟨_, ⟨hholes, hcursor⟩, _⟩, hhandle⟩ := handle_whole (P := P) cb whole
  obtain ⟨hmoved, hnone⟩ := detectDataHole_moved (P := P) m s.rangeStart s.rangeEnd
  obtain ⟨_, ⟨hparsed, hkept⟩, _⟩ := parseData_forward
    { (detectDataHole P m s.rangeStart s.rangeEnd).2 with cc := cc } (rebuilt P s) header
  rw [hhandle]
  simp only [hparsed, hkept]
  rw [hholes, hcursor] at hnone
  rw [hcursor] at hmoved
  exact ⟨hmoved, hnone⟩

lemma stepQueued_eq {before after : IntcpTransCB F nameLen} {s seg : IntcpSeg}
    {headers : List IntcpSeg}
    (h : after.history.queued = before.history.queued ++ (headers ++ [seg])) :
    stepQueued before after s = headers.map (fun header => (header, s.rangeStart)) ++
      [(seg, after.dataNextRangeStart)] := by
  rw [stepQueued, h, List.drop_left]
  simp

/-- What handling a whole segment puts into the queue of a midnode. -/
lemma handle_queued (cb : IntcpTransCB F nameLen) {s : IntcpSeg} (whole : Whole s)
    (mid : cb.nodeRole = .midnode) :
    (handle P cb s).2.nodeRole = .midnode ∧
      (stepQueued cb (handle P cb s).2 s).map (fun p => (range p.1, p.2)) =
        relay AbnormalHole cb.dataNextRangeStart (range s) ∧
      ∀ p ∈ stepQueued cb (handle P cb s).2 s, Whole p.1 := by
  obtain ⟨m, cc, header, ⟨hrole, ⟨_, hcursor⟩, hqueued⟩, hhandle⟩ := handle_whole (P := P) cb whole
  obtain ⟨hdetectRole, hdetect⟩ := detectDataHole_queued (P := P) m s.rangeStart s.rangeEnd
  obtain ⟨hparsedRole, _, hparsed⟩ := parseData_forward
    { (detectDataHole P m s.rangeStart s.rangeEnd).2 with cc := cc } (rebuilt P s) header
  have hmid : m.nodeRole = .midnode := hrole.trans mid
  have hafter : (handle P cb s).2.history.queued = cb.history.queued ++
      ((if Opens AbnormalHole cb.dataNextRangeStart (range s) then
        [pushSeg P cb.dataNextRangeStart s.rangeStart 0 [] length_header] else []) ++ [rebuilt P s]) := by
    rw [hhandle, hparsed (hdetectRole.trans hmid), hdetect hmid, hqueued, hcursor, List.append_assoc]
    rfl
  have hwhole : Whole (rebuilt P s) := whole
  refine ⟨?_, ?_, ?_⟩
  · rw [hhandle]
    exact hparsedRole.trans (hdetectRole.trans hmid)
  · rw [stepQueued_eq hafter, (handle_cursor cb whole).1, relay]
    split
    · rfl
    · rfl
  · rw [stepQueued_eq hafter]
    intro p hp
    rcases List.mem_append.mp hp with hp | hp
    · obtain ⟨seg, hseg, rfl⟩ := List.mem_map.mp hp
      split at hseg
      · obtain rfl := List.mem_singleton.mp hseg
        exact ⟨rfl, Or.inl rfl⟩
      · cases hseg
    · obtain rfl := List.mem_singleton.mp hp
      exact hwhole

lemma queuedBySegs_relay (cb : IntcpTransCB F nameLen) (mid : cb.nodeRole = .midnode)
    {segs : List IntcpSeg} (whole : ∀ s ∈ segs, Whole s) :
    (handleAll P cb segs).2.nodeRole = .midnode ∧
      (handleAll P cb segs).2.dataNextRangeStart =
        movedAll cb.dataNextRangeStart (segs.map range) ∧
      (queuedBySegs P cb segs).map (fun p => (range p.1, p.2)) =
        relayAll AbnormalHole cb.dataNextRangeStart (segs.map range) ∧
      ∀ p ∈ queuedBySegs P cb segs, Whole p.1 := by
  induction segs generalizing cb with
  | nil => exact ⟨mid, rfl, rfl, by simp [queuedBySegs]⟩
  | cons s rest ih =>
    have hs := whole s List.mem_cons_self
    obtain ⟨hrole, hqueued, hwhole⟩ := handle_queued (P := P) cb hs mid
    obtain ⟨hroles, hcursor, hrest, hwholes⟩ := ih (handle P cb s).2 hrole
      fun x hx => whole x (List.mem_cons_of_mem _ hx)
    have hflag : (handle P cb s).1 = true := (handle_flag cb s).mpr (Or.inr hs.2)
    have hmoved := (handle_cursor (P := P) cb hs).1
    simp only [handleAll, hflag, if_true, List.map_cons, queuedBySegs, relayAll, List.map_append]
    rw [hmoved] at hrest hcursor
    refine ⟨hroles, hcursor, ?_, ?_⟩
    · rw [hqueued, hrest]
    · intro p hp
      rcases List.mem_append.mp hp with hp | hp
      · exact hwhole p hp
      · exact hwholes p hp

lemma queuedBy_relay (cb : IntcpTransCB F nameLen) (mid : cb.nodeRole = .midnode)
    {arrivals : List (List UInt8)}
    (whole : ∀ data ∈ arrivals, ∀ s ∈ (decode P.raw data).2, Whole s) :
    (queuedBy P cb arrivals).map (fun p => (range p.1, p.2)) =
        relayAll AbnormalHole cb.dataNextRangeStart
          ((arrivals.flatMap fun data => (decode P.raw data).2).map range) ∧
      ∀ p ∈ queuedBy P cb arrivals, Whole p.1 := by
  induction arrivals generalizing cb with
  | nil => exact ⟨rfl, by simp [queuedBy]⟩
  | cons data rest ih =>
    obtain ⟨hrole, hcursor, hqueued, hwhole⟩ := queuedBySegs_relay (P := P) cb mid
      (whole data List.mem_cons_self)
    obtain ⟨n, hinput⟩ := input_handleAll (P := P) cb data
    obtain ⟨hrest, hwholes⟩ := ih (input P cb data).2 (by rw [hinput]; exact hrole)
      fun x hx => whole x (List.mem_cons_of_mem _ hx)
    have hnext : (input P cb data).2.dataNextRangeStart =
        movedAll cb.dataNextRangeStart ((decode P.raw data).2.map range) := by
      rw [hinput]
      exact hcursor
    rw [hnext] at hrest
    constructor
    · rw [queuedBy, List.map_append, hqueued, hrest, List.flatMap_cons, List.map_append,
        relayAll_append]
    · intro p hp
      rcases List.mem_append.mp hp with hp | hp
      · exact hwhole p hp
      · exact hwholes p hp

/-- Where no gap opens, a node follows the trail and has no holes. -/
lemma cursorsBySegs_trail (cb : IntcpTransCB F nameLen) (noHoles : cb.dataHoles = [])
    {segs : List IntcpSeg} (whole : ∀ s ∈ segs, Whole s)
    (smooth : Smooth AbnormalHole cb.dataNextRangeStart (segs.map range)) :
    (handleAll P cb segs).2.dataHoles = [] ∧
      (handleAll P cb segs).2.dataNextRangeStart =
        movedAll cb.dataNextRangeStart (segs.map range) ∧
      cursorsBySegs P cb segs =
        (trail cb.dataNextRangeStart (segs.map range)).map fun cursor => (cursor, []) := by
  induction segs generalizing cb with
  | nil => exact ⟨noHoles, rfl, rfl⟩
  | cons s rest ih =>
    have hs := whole s List.mem_cons_self
    obtain ⟨hnone, hsmooth⟩ := smooth
    obtain ⟨hmoved, hkept⟩ := handle_cursor (P := P) cb hs
    have hholes := hkept noHoles hnone
    obtain ⟨hrest, hcursor, htrail⟩ := ih (handle P cb s).2 hholes
      (fun x hx => whole x (List.mem_cons_of_mem _ hx)) (hmoved ▸ hsmooth)
    have hflag : (handle P cb s).1 = true := (handle_flag cb s).mpr (Or.inr hs.2)
    simp only [handleAll, hflag, if_true, List.map_cons, cursorsBySegs, trail]
    rw [hmoved] at htrail hcursor
    refine ⟨hrest, hcursor, ?_⟩
    rw [htrail, hmoved, hholes]

lemma cursorsBy_trail (cb : IntcpTransCB F nameLen) (noHoles : cb.dataHoles = [])
    {deliveries : List (List UInt8)}
    (whole : ∀ data ∈ deliveries, ∀ s ∈ (decode P.raw data).2, Whole s)
    (smooth : Smooth AbnormalHole cb.dataNextRangeStart
      ((deliveries.flatMap fun data => (decode P.raw data).2).map range)) :
    cursorsBy P cb deliveries =
      (trail cb.dataNextRangeStart
        ((deliveries.flatMap fun data => (decode P.raw data).2).map range)).map
          fun cursor => (cursor, []) := by
  induction deliveries generalizing cb with
  | nil => rfl
  | cons data rest ih =>
    rw [List.flatMap_cons, List.map_append, smooth_append] at smooth
    obtain ⟨hholes, hcursor, htrail⟩ := cursorsBySegs_trail (P := P) cb noHoles
      (whole data List.mem_cons_self) smooth.1
    obtain ⟨n, hinput⟩ := input_handleAll (P := P) cb data
    have hnext : (input P cb data).2.dataNextRangeStart =
        movedAll cb.dataNextRangeStart ((decode P.raw data).2.map range) := by
      rw [hinput]
      exact hcursor
    have hrest := ih (input P cb data).2 (by rw [hinput]; exact hholes)
      (fun x hx => whole x (List.mem_cons_of_mem _ hx)) (hnext ▸ smooth.2)
    rw [hnext] at hrest
    rw [cursorsBy, htrail, hrest, List.flatMap_cons, List.map_append, trail_append, List.map_append]

lemma Forwarded.range {role : Role} {got seg : IntcpSeg} (forwarded : Forwarded role got seg) :
    range got = range seg := by
  rw [LossAnnouncement.range, forwarded.rangeStart, forwarded.rangeEnd]
  rfl

lemma forall₂_ranges {role : Role} {got segs : List IntcpSeg}
    (forwarded : List.Forall₂ (Forwarded role) got segs) (whole : ∀ seg ∈ segs, Whole seg) :
    got.map range = segs.map range ∧ ∀ s ∈ got, Whole s := by
  induction forwarded with
  | nil => exact ⟨rfl, by simp⟩
  | cons h _ ih =>
    obtain ⟨hranges, hwhole⟩ := ih fun seg hseg => whole seg (List.mem_cons_of_mem _ hseg)
    constructor
    · rw [List.map_cons, List.map_cons, hranges, Forwarded.range h]
    · intro s hs
      rcases List.mem_cons.mp hs with rfl | hs
      · exact h.whole (whole _ List.mem_cons_self)
      · exact hwhole s hs

/-- A node that receives what a midnode forwards is, after each segment, at the cursor
that the midnode had when it queued the segment, and never opens a hole. -/
theorem follower_lockstep {G : Type v} {nameLen' : Nat} (P : Platform F) (Q : Platform G)
    (name : Vector UInt8 nameLen) (cache : Cache nameLen) (role : Role)
    (name' : Vector UInt8 nameLen') (cache' : Cache nameLen')
    (arrivals deliveries : List (List UInt8))
    (whole : ∀ data ∈ arrivals, ∀ s ∈ (decode P.raw data).2, Whole s)
    (delivered : List.Forall₂ (Forwarded .midnode)
      (deliveries.flatMap fun data => (decode Q.raw data).2)
      ((queuedBy P (IntcpTransCB.create P .midnode name cache) arrivals).map Prod.fst)) :
    cursorsBy Q (IntcpTransCB.create Q role name' cache') deliveries =
      (queuedBy P (IntcpTransCB.create P .midnode name cache) arrivals).map
        fun p => (p.2, []) := by
  generalize hqueue : queuedBy P (IntcpTransCB.create P .midnode name cache) arrivals = queue
  obtain ⟨hrelay, hwhole⟩ := queuedBy_relay (P := P)
    (IntcpTransCB.create P .midnode name cache) rfl whole
  have hstart : (IntcpTransCB.create P .midnode name cache).dataNextRangeStart = 0 := rfl
  rw [hqueue, hstart] at hrelay
  rw [hqueue] at hwhole delivered
  obtain ⟨hranges, hgot⟩ := forall₂_ranges delivered (by
    intro seg hseg
    obtain ⟨p, hp, rfl⟩ := List.mem_map.mp hseg
    exact hwhole p hp)
  have hfst : (queue.map Prod.fst).map range = ((queue.map fun p => (range p.1, p.2)).map Prod.fst) := by
    rw [List.map_map, List.map_map]
    rfl
  have hsnd : queue.map Prod.snd = (queue.map fun p => (range p.1, p.2)).map Prod.snd := by
    rw [List.map_map]
    rfl
  have hcreate : (IntcpTransCB.create Q role name' cache').dataNextRangeStart = 0 := rfl
  have hgots : ∀ data ∈ deliveries, ∀ s ∈ (decode Q.raw data).2, Whole s :=
    fun data hd s hs => hgot s (List.mem_flatMap.mpr ⟨data, hd, hs⟩)
  rw [cursorsBy_trail _ rfl hgots, hcreate, hranges, hfst, hrelay, relayAll_trail, ← hrelay, ← hsnd,
    List.map_map]
  · rfl
  · rw [hcreate, hranges, hfst, hrelay]
    exact relayAll_smooth _ _ _

def header (rangeStart rangeEnd : UInt32) : IntcpSeg :=
  pushSeg freeClock rangeStart rangeEnd 0 [] length_header

def lastByte : IntcpSeg := pushSeg freeClock 300 301 1 [5] rfl

/-- The loss of [100, 200), which the midnode announces by a header of its own. -/
theorem follower_lockstep_gap :
    cursorsBy freeClock (IntcpTransCB.create freeClock .requester #v[110] (Cache.fresh fun _ _ => 0))
        [frame (header 0 100) ++ frame (header 100 200), frame (header 200 300), frame lastByte] =
      (queuedBy freeClock (IntcpTransCB.create freeClock .midnode #v[110]
        (Cache.fresh fun _ _ => 0))
        [frame (header 0 100), frame (header 200 300) ++ frame lastByte]).map fun p => (p.2, []) :=
  follower_lockstep _ _ _ _ _ _ _ _ _ (by decide +kernel) (by decide +kernel)

end LossAnnouncement
