import Intcp.ContactRuns
import Intcp.TraceHistory

/-!
# From the forwarding state to the testbed

`Instance.py` completes the trace that `get_trace` returns and hands it to the testbed,
whose update thread goes through its steps round after round. In every round packets take
the path that the forwarding state of the step gives, node for node.
-/

namespace TracePlayback

open ContactIntervals ContactRuns Dicts HopWalks Numbering PointerWalks StepRuns TestbedRoutes
open TraceGeneration TraceHistory TraceRouting

inductive RouteAlgorithm where
  | withIsl
  | relayOnly
  deriving DecidableEq

/-- The arguments of `Instance.py` are the rates. -/
def dynamicTrace (round : Rat → Rat) (r : Rates) (bwFluctuation : Bool) (origin : Trace) :
    RouteAlgorithm → Option Trace
  | .withIsl => getCompleteTrace round r bwFluctuation origin
  | .relayOnly => getCompleteRelayOnlyTrace round r bwFluctuation origin

/-- The same tuple; a trace with a step has a path of three nodes, so nothing is cut off. -/
def toTrace (g : Generated) : Trace :=
  ⟨g.maxMidnodeNum.toNat, g.totalMidnodeNum, g.isls, g.linksParams⟩

section Relays

variable {net : Constellation} {timeNs : Int}

/-- Without links between satellites each hop goes up to a satellite or down from one. -/
lemma hopLength_relay (noIsls : net.listIsls = []) {a b : Int}
    (h : (hopLength net timeNs a b).isSome) : a < net.satellites ↔ ¬ b < net.satellites := by
  by_cases ha : a < net.satellites
  · by_cases hb : b < net.satellites
    · rw [hopLength, if_pos ⟨ha, hb⟩] at h
      cases hd : net.distanceMBetweenSatellites a b timeNs <;> simp [hd, noIsls] at h
    · simp [ha, hb]
  · by_cases hb : b < net.satellites
    · simp [ha, hb]
    · rw [hopLength, if_neg (fun both => ha both.1), if_neg (fun both => hb both.2),
        if_neg (fun both => ha both.1)] at h
      cases h

/-- So a path between two ground stations has an odd number of nodes. -/
lemma relay_odd {up : Int → Prop} {a z : Int} {path : List Int}
    (chain : (a :: path).IsChain fun a b => up a ↔ ¬ up b) (hz : (a :: path).getLast? = some z) :
    (up a ↔ up z) ↔ (a :: path).length % 2 = 1 := by
  induction path generalizing a with
  | nil =>
    obtain rfl : a = z := by simpa using hz
    simp
  | cons b path ih =>
    obtain ⟨hab, hrest⟩ := List.isChain_cons_cons.mp chain
    have later := ih hrest (by simpa using hz)
    rw [List.length_cons] at later ⊢
    by_cases hb : up b
    · by_cases hz : up z <;> simp [hab, hb, hz] at later ⊢ <;> omega
    · by_cases hz : up z <;> simp [hab, hb, hz] at later ⊢ <;> omega

end Relays

section Completed

variable {net : Constellation} {files : Files} {round : Rat → Rat} {src dst : Int}
  {times : List Int} {s : TraceState}

/-- The result of a state. -/
def returned (s : TraceState) : Generated :=
  ⟨s.maxPathLength - 2, s.globalMidnodeId, s.isls, s.linksParams⟩

lemma recorded_mem (h : Traced net files round src dst times s) {lp : LinksParam}
    (hlp : lp ∈ s.linksParams) : ∃ timeNs fstate path,
      Records net round timeNs fstate src dst s.midnodeIdMapDict path lp ∧ OnLinks s.isls lp.topo := by
  obtain ⟨k, hk⟩ := List.mem_iff_getElem?.mp hlp
  have inside := (List.getElem?_eq_some_iff.mp hk).1
  rw [h.length] at inside
  obtain ⟨fstate, path, -, records, on⟩ :=
    h.records k _ lp (List.getElem?_eq_getElem inside) hk
  exact ⟨_, fstate, path, records, on⟩

/-- What `get_complete_trace` assumes of a trace, `get_trace` provides. -/
lemma exists_origin (h : Traced net files round src dst times s) (steps : s.linksParams ≠ []) :
    ∃ origin : OriginTrace, origin.toTrace = toTrace (returned s) := by
  refine ⟨⟨toTrace (returned s), steps, fun lp hlp => ?_, fun lp hlp id hid => ?_,
    fun lp hlp => ?_⟩, rfl⟩
  · obtain ⟨_, _, _, records, -⟩ := recorded_mem h hlp
    exact records.visited
  · obtain ⟨_, _, _, records, -⟩ := recorded_mem h hlp
    exact (records.bounds h.numbered id hid).1
  · obtain ⟨_, _, _, records, -⟩ := recorded_mem h hlp
    exact records.rtts

/-- Without links between satellites, what the relay-only variant assumes as well. -/
lemma recorded_odd (h : Traced net files round src dst times s) (noIsls : net.listIsls = [])
    (hsrc : net.satellites ≤ src) (hdst : net.satellites ≤ dst) :
    ∀ lp ∈ s.linksParams, lp.topo.length % 2 = 1 := by
  intro lp hlp
  obtain ⟨timeNs, fstate, path, records, -⟩ := recorded_mem h hlp
  have chain : path.IsChain fun a b : Int => a < net.satellites ↔ ¬ b < net.satellites :=
    records.hops.imp fun _ _ => hopLength_relay noIsls
  have length := records.length
  have last := records.given.leads.getLast?
  obtain ⟨rest, rfl⟩ := List.head?_eq_some_iff.mp records.given.head
  have odd := (relay_odd chain last).mp (by omega)
  omega

lemma dynamicTrace_isls {round : Rat → Rat} {r : Rates} {bwFluctuation : Bool}
    {alg : RouteAlgorithm} {origin done : Trace}
    (h : dynamicTrace round r bwFluctuation origin alg = some done) : done.isls = origin.isls := by
  cases alg with
  | withIsl =>
    simp only [dynamicTrace, getCompleteTrace, Option.bind_eq_bind, Option.bind_eq_some_iff] at h
    obtain ⟨_, -, h⟩ := h
    split at h
    · obtain ⟨_, -, h⟩ := Option.bind_eq_some_iff.mp h
      exact Option.some.inj h ▸ rfl
    · obtain ⟨_, -, h⟩ := Option.bind_eq_some_iff.mp h
      exact Option.some.inj h ▸ rfl
  | relayOnly =>
    simp only [dynamicTrace, getCompleteRelayOnlyTrace, Option.bind_eq_bind,
      Option.bind_eq_some_iff] at h
    obtain ⟨_, -, h⟩ := h
    split at h
    · obtain ⟨_, -, h⟩ := Option.bind_eq_some_iff.mp h
      exact Option.some.inj h ▸ rfl
    · obtain ⟨_, -, h⟩ := Option.bind_eq_some_iff.mp h
      exact Option.some.inj h ▸ rfl

lemma completeStep_rtt {r : Rates} {lp out : LinksParam} (h : completeStep r lp = some out) :
    groundRtt r.groundLinkRtt lp.rtt = some out.rtt := by
  obtain ⟨rtt, hrtt, h⟩ := Option.bind_eq_some_iff.mp h
  rw [hrtt, ← Option.some.inj h]

lemma completeRelayStep_rtt {r : Rates} {lp out : LinksParam}
    (h : completeRelayStep r lp = some out) : groundRtt r.groundLinkRtt lp.rtt = some out.rtt := by
  obtain ⟨rtt, hrtt, h⟩ := Option.bind_eq_some_iff.mp h
  rw [hrtt, ← Option.some.inj h]

/-- The step with an entry for each link, and new round trips for the links to the hosts. -/
structure Completes (r : Rates) (lp out : LinksParam) : Prop extends Complete lp out where
  ground : groundRtt r.groundLinkRtt lp.rtt = some out.rtt

lemma completeSteps_completes {r : Rates} {origin : OriginTrace} {c : Changes}
    {lps : List LinksParam}
    (done : completeSteps r 0 ⟨[], [], -2, -2⟩ origin.linksParams = some (c, lps)) {i : Nat}
    {lp base : LinksParam} (hlp : origin.linksParams[i]? = some lp) (hbase : lps[i]? = some base) :
    Completes r lp base := by
  obtain ⟨_, _, done', each, -⟩ :=
    completeSteps_spec r origin.visited origin.rtts 0 ⟨[], [], -2, -2⟩
  obtain ⟨rfl, rfl⟩ := Prod.mk.inj (Option.some.inj (done.symm.trans done'))
  obtain ⟨inside, rfl⟩ := List.getElem?_eq_some_iff.mp hlp
  obtain ⟨inside', rfl⟩ := List.getElem?_eq_some_iff.mp hbase
  obtain ⟨hstep, complete⟩ := (List.forall₂_iff_get.mp each).2 i inside inside'
  exact ⟨complete, completeStep_rtt hstep⟩

lemma completeRelay_ground {round : Rat → Rat} {r : Rates} {origin plain : Trace}
    (done : getCompleteRelayOnlyTrace round r false origin = some plain) {i : Nat}
    {lp base : LinksParam} (hlp : origin.linksParams[i]? = some lp)
    (hbase : plain.linksParams[i]? = some base) :
    groundRtt r.groundLinkRtt lp.rtt = some base.rtt := by
  obtain ⟨lps, hlps, h⟩ := Option.bind_eq_some_iff.mp done
  obtain rfl := Option.some.inj h
  have hstep := congrArg (·[i]?) (map_of_mapM hlps)
  simp only [List.getElem?_map, hlp, hbase, Option.map_some, Option.some.injEq] at hstep
  exact completeRelayStep_rtt hstep

/-- The completed trace keeps the links and the topologies, with an entry for each link. -/
lemma dynamicTrace_completes (round : Rat → Rat) (r : Rates) (bwFluctuation : Bool)
    (alg : RouteAlgorithm) (origin : OriginTrace)
    (relay : alg = .relayOnly → ∀ lp ∈ origin.linksParams, lp.topo.length % 2 = 1) :
    ∃ done, dynamicTrace round r bwFluctuation origin.toTrace alg = some done ∧
      done.isls = origin.isls ∧ done.linksParams.length = origin.linksParams.length ∧
      ∀ (i : Nat) lp, origin.linksParams[i]? = some lp → ∃ out, done.linksParams[i]? = some out ∧
        Completes r lp out := by
  have keeps : ∀ done, dynamicTrace round r bwFluctuation origin.toTrace alg = some done →
      done.isls = origin.isls := fun _ => dynamicTrace_isls
  have filled : ∀ {lp base out : LinksParam}, SameLinks base out → Completes r lp base →
      Completes r lp out := by
    intro lp base out same completes
    exact ⟨same.complete completes.toComplete, same.rtt ▸ completes.ground⟩
  cases alg with
  | withIsl =>
    obtain ⟨c, plain, fluct, hplain, hfluct, steps, length, length', each⟩ :=
      getCompleteTrace_contacts round r origin
    cases bwFluctuation with
    | false =>
      refine ⟨plain, hplain, keeps plain hplain, length, fun i lp hlp => ?_⟩
      obtain ⟨base, -, hbase, -⟩ := each i lp hlp
      exact ⟨base, hbase, completeSteps_completes steps hlp hbase⟩
    | true =>
      refine ⟨fluct, hfluct, keeps fluct hfluct, length', fun i lp hlp => ?_⟩
      obtain ⟨base, out, hbase, hout, -, access⟩ := each i lp hlp
      exact ⟨out, hout, filled access.toSameLinks (completeSteps_completes steps hlp hbase)⟩
  | relayOnly =>
    obtain ⟨infos, plain, fluct, hplain, hfluct, -, length, length', each⟩ :=
      getCompleteRelayOnlyTrace_contacts round r { origin with odd := relay rfl }
    cases bwFluctuation with
    | false =>
      refine ⟨plain, hplain, keeps plain hplain, length, fun i lp hlp => ?_⟩
      obtain ⟨_, base, -, -, hbase, -, complete, -⟩ := each i lp hlp
      exact ⟨base, hbase, complete, completeRelay_ground hplain hlp hbase⟩
    | true =>
      refine ⟨fluct, hfluct, keeps fluct hfluct, length', fun i lp hlp => ?_⟩
      obtain ⟨_, base, out, -, hbase, hout, complete, -, access⟩ := each i lp hlp
      exact ⟨out, hout, filled access.toSameLinks
        ⟨complete, completeRelay_ground hplain hlp hbase⟩⟩

/-- Where a trace comes from `get_trace`, what each completed step holds. -/
structure Completed (net : Constellation) (files : Files) (round : Rat → Rat) (r : Rates)
    (src dst : Int) (times : List Int) (s : TraceState) (done : Trace) : Prop where
  isls : done.isls = s.isls
  length : done.linksParams.length = times.length
  each : ∀ (k : Nat) lp, done.linksParams[k]? = some lp → ∃ timeNs fstate path base,
    times[k]? = some timeNs ∧ fstateAfter files (times.take (k + 1)) = some fstate ∧
    Records net round timeNs fstate src dst s.midnodeIdMapDict path base ∧
    OnLinks done.isls lp.topo ∧ Completes r base lp

lemma exists_completed (h : Traced net files round src dst times s) (steps : s.linksParams ≠ [])
    (decimals : Rat → Rat) (r : Rates) (bwFluctuation : Bool) (alg : RouteAlgorithm)
    (relay : alg = .relayOnly → net.listIsls = [] ∧ net.satellites ≤ src ∧ net.satellites ≤ dst) :
    ∃ done, dynamicTrace decimals r bwFluctuation (toTrace (returned s)) alg = some done ∧
      Completed net files round r src dst times s done := by
  obtain ⟨origin, horigin⟩ := exists_origin h steps
  have hlps : origin.linksParams = s.linksParams := congrArg Trace.linksParams horigin
  have hisls : origin.isls = s.isls := congrArg Trace.isls horigin
  obtain ⟨done, hdone, isls, length, each⟩ := dynamicTrace_completes decimals r bwFluctuation alg
    origin fun halg => by
      obtain ⟨noIsls, hsrc, hdst⟩ := relay halg
      exact hlps ▸ recorded_odd h noIsls hsrc hdst
  rw [hlps] at length each
  rw [hisls] at isls
  refine ⟨done, horigin ▸ hdone, isls, length.trans h.length, fun k lp hlp => ?_⟩
  have inside := (List.getElem?_eq_some_iff.mp hlp).1
  rw [length] at inside
  obtain ⟨out, hout, completes⟩ := each k _ (List.getElem?_eq_getElem inside)
  obtain rfl : out = lp := Option.some.inj (hout.symm.trans hlp)
  have hk := List.getElem?_eq_getElem (h.length ▸ inside)
  obtain ⟨fstate, path, before, records, on⟩ :=
    h.records k _ _ hk (List.getElem?_eq_getElem inside)
  exact ⟨_, fstate, path, _, hk, before, records, by rwa [isls, completes.topo], completes⟩

lemma Completed.onLinks {r : Rates} {done : Trace}
    (h : Completed net files round r src dst times s done) :
    ∀ lp ∈ done.linksParams, OnLinks done.isls lp.topo := by
  intro lp hlp
  obtain ⟨k, hk⟩ := List.mem_iff_getElem?.mp hlp
  obtain ⟨_, _, _, _, -, -, -, on, -⟩ := h.each k lp hk
  exact on

end Completed

/-- The testbed after some rounds of the update thread and the first steps of another. -/
def playback (trace : Trace) (rounds steps : Nat) : Option Testbed := do
  let first ← trace.linksParams.head?
  let topos := trace.linksParams.map LinksParam.topo
  runUpdates trace.isls first.topo ((List.replicate rounds topos).flatten ++ topos.take steps)

section Playing

variable {isls : List (Int × Int)} {topo : List Int}

/-- Packets for h1 keep to the path wherever it lies. -/
lemma current_visits {testbed : Testbed} (on : OnLinks isls topo)
    (current : Current isls topo testbed) :
    Visits (forward (createAllLinks isls) testbed.tables ⟨1, 1⟩) (pathNodes topo).reverse ∧
      (Avoids isls topo →
        Visits (forward (createAllLinks isls) testbed.tables ⟨100, 2⟩) (pathNodes topo)) := by
  obtain ⟨segs, joined, hset⟩ := setRoute_onLinks on
  have htables : testbed.tables = routesOn (pathNodes topo) segs :=
    Option.some.inj (current.exactly.symm.trans hset)
  rw [htables]
  exact ⟨visits_h1 on.simple joined, visits_h2 on.simple joined⟩

/-- In any round the routes of a step are those of its topology. -/
lemma playback_current {trace : Trace} (on : ∀ lp ∈ trace.linksParams, OnLinks trace.isls lp.topo)
    (rounds : Nat) {k : Nat} {lp : LinksParam} (hlp : trace.linksParams[k]? = some lp) :
    ∃ testbed, playback trace rounds (k + 1) = some testbed ∧
      Current trace.isls lp.topo testbed := by
  obtain ⟨first, rest, hlps⟩ : ∃ first rest, trace.linksParams = first :: rest := by
    cases hlps : trace.linksParams with
    | nil => simp [hlps] at hlp
    | cons first rest => exact ⟨first, rest, rfl⟩
  let topos := trace.linksParams.map LinksParam.topo
  let played := (List.replicate rounds topos).flatten ++ topos.take (k + 1)
  have inside : ∀ topo ∈ played, OnLinks trace.isls topo := by
    intro topo htopo
    have known : topo ∈ topos := by
      rcases List.mem_append.mp htopo with hround | hnow
      · obtain ⟨round, hround, hmem⟩ := List.mem_flatten.mp hround
        rwa [List.eq_of_mem_replicate hround] at hmem
      · exact List.mem_of_mem_take hnow
    obtain ⟨lp, hmem, rfl⟩ := List.mem_map.mp known
    exact on lp hmem
  obtain ⟨testbed, hrun, current⟩ := runUpdates_current (on first (by simp [hlps])) inside
  have last : played.getLastD first.topo = lp.topo := by
    have now : topos[k]? = some lp.topo := by simp [topos, hlp]
    simp only [played]
    rw [List.take_add_one, now, Option.toList_some, ← List.append_assoc, List.getLastD_concat]
  rw [last] at current
  refine ⟨testbed, ?_, current⟩
  have head : trace.linksParams.head? = some first := by rw [hlps, List.head?_cons]
  rw [playback, head]
  exact hrun

/-- A trace of at most 98 links does not reach the segment of gs2 and h2. -/
lemma avoids_of_short (short : isls.length ≤ 98) : Avoids isls topo := by
  intro isl hisl
  rw [List.getElem?_eq_none short] at hisl
  cases hisl

end Playing

variable {net : Constellation} {files : Files} {fuel : Nat} {g : Generated}
  {city1 city2 startTsS durationS intervalMs : Int}

/-- The nodes that carry the packets of a step are those of the path in its forwarding state. -/
theorem getTrace_playsState (round decimals : Rat → Rat) (r : Rates) (bwFluctuation : Bool)
    (alg : RouteAlgorithm)
    (h : getTrace net files round fuel city1 city2 startTsS durationS intervalMs = some g)
    (addressable : Addressable g.isls) (steps : g.linksParams ≠ [])
    (relay : alg = .relayOnly → net.listIsls = [] ∧ net.satellites ≤ city1 + 1584 ∧
      net.satellites ≤ city2 + 1584) :
    ∃ times names done,
      rangeOf (startTsS * 1000 * 1000 * 1000) ((startTsS + durationS) * 1000 * 1000 * 1000)
        (intervalMs * 1000 * 1000) = some times ∧
      Numbered names g.totalMidnodeNum ∧
      dynamicTrace decimals r bwFluctuation (toTrace g) alg = some done ∧
      done.linksParams.length = times.length ∧
      ∀ (rounds k : Nat) lp, done.linksParams[k]? = some lp → ∃ fstate path testbed,
        fstateAfter files (times.take (k + 1)) = some fstate ∧
        PathOf fstate (city1 + 1584) (city2 + 1584) path ∧
        (midnodes path).map (get? names) = lp.topo.map some ∧
        lp.rtt.length = (pathNodes lp.topo).length - 1 ∧
        lp.loss.length = (pathNodes lp.topo).length - 1 ∧
        lp.bw.length = (pathNodes lp.topo).length - 1 ∧
        Accepted done.isls lp.topo ∧
        playback done rounds (k + 1) = some testbed ∧
        Current done.isls lp.topo testbed ∧
        (Avoids done.isls lp.topo → FollowsTrace done.isls lp.topo testbed) := by
  obtain ⟨times, s, htimes, rfl, traced⟩ := getTrace_traced h
  obtain ⟨done, hdone, completed⟩ := exists_completed traced steps decimals r bwFluctuation alg relay
  refine ⟨times, s.midnodeIdMapDict, done, htimes, traced.numbered, hdone, completed.length,
    fun rounds k lp hlp => ?_⟩
  obtain ⟨timeNs, fstate, path, base, -, before, records, on, completes⟩ := completed.each k lp hlp
  obtain ⟨testbed, hplayed, current⟩ := playback_current completed.onLinks rounds hlp
  have entries : (pathNodes lp.topo).length - 1 = base.topo.length + 3 := by
    simp [pathNodes, completes.topo]
  obtain ⟨toH1, toH2⟩ := current_visits on current
  have accepted := accepted_of_onLinks (completed.isls ▸ addressable) on
  refine ⟨fstate, path, testbed, before, records.given, ?_, ?_, ?_, ?_, accepted, hplayed, current,
    fun avoids => ⟨current, toH2 avoids, toH1⟩⟩
  · rw [completes.topo]
    exact records.named
  · exact completes.rtt.trans entries.symm
  · exact completes.loss.trans entries.symm
  · exact completes.bw.trans entries.symm

/-- After two rounds the third step is on its way again, over the satellite numbered last. -/
theorem getTrace_playsState_handover :
    ∃ g done testbed, getTrace threeSatellites handover id 7 0 1 0 3 1000 = some g ∧
      dynamicTrace id {} true (toTrace g) .withIsl = some done ∧
      playback done 2 3 = some testbed ∧
      Visits (forward (createAllLinks done.isls) testbed.tables ⟨100, 2⟩)
        [.h1, .gs1, .m 3, .m 2, .gs2, .h2] := by
  have hreturns : ((getTrace threeSatellites handover id 7 0 1 0 3 1000).bind fun g =>
      (dynamicTrace id {} true (toTrace g) .withIsl).map fun done =>
        (g.linksParams.length, g.isls.length, done.isls.length,
          done.linksParams.map LinksParam.topo)) =
      some (3, 7, 7, [[1, 2], [2, 1], [3, 2]]) := by
    decide +kernel
  obtain ⟨g, hg, hdone⟩ := Option.bind_eq_some_iff.mp hreturns
  obtain ⟨done, hdone, hshape⟩ := Option.map_eq_some_iff.mp hdone
  simp only [Prod.mk.injEq] at hshape
  obtain ⟨hsteps, hfound, hlinks, htopos⟩ := hshape
  have steps : g.linksParams ≠ [] := List.length_pos_iff.mp (by omega)
  obtain ⟨_, _, done', -, -, hdone', -, each⟩ := getTrace_playsState id id {} true .withIsl hg
    (by simp [Addressable, hfound]) steps (fun h => absurd h (by decide))
  obtain rfl : done = done' := Option.some.inj (hdone.symm.trans hdone')
  have third : (done.linksParams.map LinksParam.topo)[2]? = some [3, 2] := by rw [htopos]; rfl
  rw [List.getElem?_map] at third
  obtain ⟨lp, hlp, htopo⟩ := Option.map_eq_some_iff.mp third
  obtain ⟨_, _, testbed, -, -, -, -, -, -, -, hplayed, -, follows⟩ := each 2 2 lp hlp
  refine ⟨g, done, testbed, hg, hdone, hplayed, ?_⟩
  have visits := (follows (avoids_of_short (by omega))).toH2
  rwa [htopo] at visits

end TracePlayback
