import Intcp.TraceGeneration

/-!
# What a generated trace records

Whatever the files hold, a call of `get_trace` that returns has recorded the path of each
step under numbers that never change, and has listed the links of all steps once each. So a
generated trace is one that `get_complete_trace` and the testbed can work with.
-/

namespace TraceHistory

open ContactIntervals Dicts Numbering PointerWalks StepRuns TestbedRoutes TraceGeneration
open TraceRouting

/-- The forwarding state read from the files of these times, each over the one before. -/
def fstateAfter (files : Files) (times : List Int) : Option ForwardState :=
  times.foldlM (fun fstate timeNs => (files timeNs).map (merge fstate)) []

lemma fstateAfter_snoc {files : Files} {times : List Int} {timeNs : Int}
    {fstate lines : ForwardState} (before : fstateAfter files times = some fstate)
    (now : files timeNs = some lines) :
    fstateAfter files (times ++ [timeNs]) = some (merge fstate lines) := by
  rw [fstateAfter] at before ⊢
  simp [before, now]

/-- A step of the trace is the path of a forwarding state, its nodes numbered. -/
structure Records (net : Constellation) (round : Rat → Rat) (timeNs : Int) (fstate : ForwardState)
    (src dst : Int) (names : List (Int × Int)) (path : List Int) (lp : LinksParam) : Prop where
  given : PathOf fstate src dst path
  named : (midnodes path).map (get? names) = lp.topo.map some
  visited : lp.topo ≠ []
  rtt : ∃ rtts, hopRttMsList net timeNs round path = some rtts ∧ lp.rtt = 50 :: (rtts ++ [50])

section Steps

variable {net : Constellation} {round : Rat → Rat} {timeNs : Int} {fstate : ForwardState}
  {src dst : Int} {names : List (Int × Int)} {path : List Int} {lp : LinksParam} {total : Nat}

lemma Records.mono (h : Records net round timeNs fstate src dst names path lp)
    {names' : List (Int × Int)}
    (kept : ∀ node id, get? names node = some id → get? names' node = some id) :
    Records net round timeNs fstate src dst names' path lp := by
  refine ⟨h.given, ?_, h.visited, h.rtt⟩
  rw [← h.named]
  refine List.map_congr_left fun node hnode => ?_
  have found : get? names node ∈ lp.topo.map some := h.named ▸ List.mem_map_of_mem hnode
  obtain ⟨id, -, hid⟩ := List.mem_map.mp found
  rw [← hid, kept node id hid.symm]

/-- Every number of the topology is that of a node of the path. -/
lemma Records.named_mem (h : Records net round timeNs fstate src dst names path lp) {id : Int}
    (hid : id ∈ lp.topo) : ∃ node ∈ midnodes path, get? names node = some id := by
  have hsome : some id ∈ (midnodes path).map (get? names) := h.named ▸ List.mem_map_of_mem hid
  exact List.mem_map.mp hsome

lemma Records.length (h : Records net round timeNs fstate src dst names path lp) :
    path.length = lp.topo.length + 2 := by
  have same := congrArg List.length h.named
  have pos := List.length_pos_iff.mpr h.visited
  simp only [midnodes, List.length_map, List.length_dropLast, List.length_tail] at same
  omega

lemma Records.hops (h : Records net round timeNs fstate src dst names path lp) :
    path.IsChain fun a b => (hopLength net timeNs a b).isSome := by
  obtain ⟨rtts, hrtts, -⟩ := h.rtt
  exact (hopRttMsList_hops hrtts).2

lemma Records.rtts (h : Records net round timeNs fstate src dst names path lp) :
    lp.rtt.length = lp.topo.length + 3 := by
  obtain ⟨rtts, hrtts, hlp⟩ := h.rtt
  have hops := (hopRttMsList_hops hrtts).1
  rw [h.length] at hops
  simp only [hlp, List.length_cons, List.length_append, List.length_nil]
  omega

lemma Records.bounds (h : Records net round timeNs fstate src dst names path lp)
    (numbered : Numbered names total) : ∀ id ∈ lp.topo, 1 ≤ id ∧ id ≤ total := by
  intro id hid
  obtain ⟨node, -, found⟩ := h.named_mem hid
  exact numbered.bounds found

/-- A path never comes back to a node, and numbers keep nodes apart. -/
lemma Records.simple (h : Records net round timeNs fstate src dst names path lp)
    (numbered : Numbered names total) : lp.topo.Nodup := by
  have nodes : (midnodes path).Nodup :=
    h.given.leads.nodup.sublist ((List.dropLast_sublist _).trans (List.tail_sublist _))
  have distinct : ((midnodes path).map (get? names)).Nodup := by
    refine nodes.map_on fun a ha b _ same => ?_
    have found : get? names a ∈ lp.topo.map some := h.named ▸ List.mem_map_of_mem ha
    obtain ⟨id, -, hid⟩ := List.mem_map.mp found
    exact numbered.injective hid.symm (same ▸ hid.symm)
  rw [h.named] at distinct
  exact distinct.of_map

end Steps

/-- What the steps at these times have recorded. -/
structure Traced (net : Constellation) (files : Files) (round : Rat → Rat) (src dst : Int)
    (times : List Int) (s : TraceState) : Prop where
  fstate : fstateAfter files times = some s.fstate
  numbered : Numbered s.midnodeIdMapDict s.globalMidnodeId
  links : Links s.isls s.globalMidnodeId
  length : s.linksParams.length = times.length
  records : ∀ k timeNs lp, times[k]? = some timeNs → s.linksParams[k]? = some lp →
    ∃ fstate path, fstateAfter files (times.take (k + 1)) = some fstate ∧
      Records net round timeNs fstate src dst s.midnodeIdMapDict path lp ∧ OnLinks s.isls lp.topo
  met : ∀ node ∈ keys s.midnodeIdMapDict, ∃ lp ∈ s.linksParams, ∃ id ∈ lp.topo,
    get? s.midnodeIdMapDict node = some id
  used : ∀ isl ∈ s.isls, ∃ lp ∈ s.linksParams, [isl.1, isl.2] <:+: 0 :: (lp.topo ++ [-1])
  within : ∀ lp ∈ s.linksParams, lp.topo.length + 2 ≤ s.maxPathLength
  reached : s.maxPathLength = 0 ∨ ∃ lp ∈ s.linksParams, lp.topo.length + 2 = s.maxPathLength

section Runs

variable {net : Constellation} {files : Files} {round : Rat → Rat} {fuel : Nat}
  {src dst timeNs : Int} {s t : TraceState} {times : List Int}

lemma traced_new : Traced net files round src dst [] .new where
  fstate := rfl
  numbered := .empty
  links := ⟨List.nodup_nil, by simp [TraceState.new], by simp [TraceState.new],
    by simp [TraceState.new]⟩
  length := rfl
  records := by simp
  met := by simp [TraceState.new, keys]
  used := by simp [TraceState.new]
  within := by simp [TraceState.new]
  reached := Or.inl rfl

lemma onLinks_mono {isls isls' : List (Int × Int)} {topo : List Int} (h : OnLinks isls topo)
    (more : ∀ isl ∈ isls, isl ∈ isls') : OnLinks isls' topo where
  nonempty := h.nonempty
  simple := h.simple
  satellites := h.satellites
  up first hfirst := more _ (h.up first hfirst)
  across := h.across.imp fun _ _ => Or.imp (more _) (more _)
  down last hlast := more _ (h.down last hlast)

/-- The links listed for a topology: all that were listed before, and its own. -/
lemma listed {isls : List (Int × Int)} {total : Nat} {topo : List Int} {first last : Int}
    (links : Links isls total) (simple : topo.Nodup)
    (hosts : ∀ id ∈ topo, 1 ≤ id ∧ id ≤ total)
    (hfirst : topo.head? = some first) (hlast : topo.getLast? = some last) :
    let isls' := noteIsls topo (noteGround (last, -1) (noteGround (0, first) isls))
    Links isls' total ∧ OnLinks isls' topo ∧ (∀ isl ∈ isls, isl ∈ isls') ∧
      ∀ isl ∈ isls', isl ∈ isls ∨ [isl.1, isl.2] <:+: 0 :: (topo ++ [-1]) := by
  have hfirst' := hosts first (List.mem_of_head? hfirst)
  have hlast' := hosts last (List.mem_of_getLast? hlast)
  have up : Links (noteGround (0, first) isls) total := by
    refine links.noteGround ?_ (fun back => ?_) (Or.inl rfl) (Or.inr hfirst')
    · show (0 : Int) ≠ first
      omega
    · rcases links.right _ back with hright | hright
      · cases hright
      · simp at hright
  have down : Links (noteGround (last, -1) (noteGround (0, first) isls)) total := by
    refine up.noteGround ?_ (fun back => ?_) (Or.inr hlast') (Or.inl rfl)
    · show last ≠ -1
      omega
    · rcases up.left _ back with hleft | hleft
      · cases hleft
      · simp at hleft
  have kept : ∀ isl, isl ∈ isls ∨ isl = (0, first) ∨ isl = (last, -1) →
      isl ∈ noteIsls topo (noteGround (last, -1) (noteGround (0, first) isls)) := by
    intro isl hisl
    apply mem_noteIsls_of_mem
    rw [mem_noteGround, mem_noteGround, or_assoc]
    exact hisl
  refine ⟨down.noteIsls simple hosts, ⟨?_, simple, ?_, ?_, noteIsls_joins _ _, ?_⟩,
    fun isl hisl => kept isl (Or.inl hisl), ?_⟩
  · rintro rfl
    cases hfirst
  · intro num hnum
    have := hosts num hnum
    omega
  · intro head hhead
    obtain rfl : first = head := Option.some.inj (hfirst.symm.trans hhead)
    exact kept _ (Or.inr (Or.inl rfl))
  · intro final hfinal
    obtain rfl : last = final := Option.some.inj (hlast.symm.trans hfinal)
    exact kept _ (Or.inr (Or.inr rfl))
  · intro isl hisl
    rcases mem_of_mem_noteIsls hisl with hnoted | hinside
    · rw [mem_noteGround, mem_noteGround, or_assoc] at hnoted
      rcases hnoted with hold | rfl | rfl
      · exact Or.inl hold
      · obtain ⟨rest, rfl⟩ : ∃ rest, topo = first :: rest := List.head?_eq_some_iff.mp hfirst
        exact Or.inr (List.prefix_append [0, first] (rest ++ [-1])).isInfix
      · obtain ⟨rest, rfl⟩ : ∃ rest, topo = rest ++ [last] := List.getLast?_eq_some_iff.mp hlast
        refine Or.inr (List.IsSuffix.isInfix ⟨0 :: rest, ?_⟩)
        simp
    · refine Or.inr (hinside.trans ?_)
      exact ⟨[0], [-1], rfl⟩

/-- Another step records its own path and keeps the others. -/
theorem traced_step (h : Traced net files round src dst times s)
    (hstep : traceStep net files round fuel src dst timeNs s = some t) :
    Traced net files round src dst (times ++ [timeNs]) t := by
  obtain ⟨lines, path, rtts, topo, first, last, hlines, hpath, hrtts, hfirst, hlast, hnamed, rfl⟩ :=
    traceStep_cases hstep
  have named := named_foldl (s := { s with
    fstate := merge s.fstate lines
    maxPathLength := max s.maxPathLength path.length }) h.numbered (midnodes path)
  generalize (midnodes path).foldl nameNode _ = u at named hnamed
  have hsome : topo ≠ [] := by
    rintro rfl
    cases hfirst
  have hnames := map_of_mapM hnamed
  have recorded : Records net round timeNs (merge s.fstate lines) src dst u.midnodeIdMapDict path
      ⟨topo, 50 :: (rtts ++ [50]), [], []⟩ := ⟨hpath, hnames, hsome, rtts, hrtts, rfl⟩
  obtain ⟨links, onLinks, kept, new⟩ := listed ((h.links.more named.more))
    (recorded.simple named.numbered) (recorded.bounds named.numbered) hfirst hlast
  have now := fstateAfter_snoc h.fstate hlines
  rw [named.isls, named.linksParams]
  have hmax : u.maxPathLength = max s.maxPathLength (topo.length + 2) :=
    recorded.length ▸ named.maxPathLength
  exact {
    fstate := by rwa [named.fstate]
    numbered := named.numbered
    links := links
    length := by simp [h.length]
    records := by
      intro k timeNs' lp htime hlp
      rcases Nat.lt_or_ge k times.length with hold | hlast
      · rw [List.getElem?_append_left hold] at htime
        rw [List.getElem?_append_left (h.length.symm ▸ hold)] at hlp
        obtain ⟨fstate, path', before, records, on⟩ := h.records k timeNs' lp htime hlp
        rw [List.take_append_of_le_length hold]
        refine ⟨fstate, path', before, records.mono named.kept, onLinks_mono on fun isl hisl => ?_⟩
        exact kept isl hisl
      · have hk : k = times.length := by
          have inside := (List.getElem?_eq_some_iff.mp htime).1
          rw [List.length_append, List.length_singleton] at inside
          omega
        subst hk
        obtain rfl : timeNs = timeNs' := by simpa using htime
        obtain rfl : _ = lp := by simpa [← h.length] using hlp
        rw [List.take_of_length_le (by simp)]
        exact ⟨_, path, now, recorded, onLinks⟩
    met := by
      intro node hnode
      rcases (named.known node).mp hnode with hold | hnow
      · obtain ⟨lp, hlp, id, hid, found⟩ := h.met node hold
        exact ⟨lp, List.mem_append_left _ hlp, id, hid, named.kept node id found⟩
      · have found : get? u.midnodeIdMapDict node ∈ topo.map some :=
          hnames ▸ List.mem_map_of_mem hnow
        obtain ⟨id, hid, same⟩ := List.mem_map.mp found
        exact ⟨_, List.mem_append_right _ List.mem_cons_self, id, hid, same.symm⟩
    used := by
      intro isl hisl
      rcases new isl hisl with hold | hinside
      · obtain ⟨lp, hlp, hinside⟩ := h.used isl hold
        exact ⟨lp, List.mem_append_left _ hlp, hinside⟩
      · exact ⟨_, List.mem_append_right _ List.mem_cons_self, hinside⟩
    within := by
      intro lp hlp
      rw [hmax]
      rcases List.mem_append.mp hlp with hold | hnew
      · exact (h.within lp hold).trans (Nat.le_max_left _ _)
      · obtain rfl := List.mem_singleton.mp hnew
        exact Nat.le_max_right _ _
    reached := by
      right
      rw [hmax]
      rcases Nat.le_total (topo.length + 2) s.maxPathLength with hless | hmore
      · rcases h.reached with hnone | ⟨lp, hlp, same⟩
        · omega
        · exact ⟨lp, List.mem_append_left _ hlp, same.trans (Nat.max_eq_left hless).symm⟩
      · exact ⟨_, List.mem_append_right _ List.mem_cons_self, (Nat.max_eq_right hmore).symm⟩ }

/-- The run lemma. -/
theorem run_traced
    (hrun : run (traceStep net files round fuel src dst) .new times = some s) :
    Traced net files round src dst times s := by
  induction times using List.reverseRecOn generalizing s with
  | nil =>
    obtain rfl := Option.some.inj hrun
    exact traced_new
  | append_singleton times timeNs ih =>
    rw [run_snoc] at hrun
    obtain ⟨s', hrun, hstep⟩ := Option.bind_eq_some_iff.mp hrun
    exact traced_step (ih hrun) hstep

lemma getTrace_traced {city1 city2 startTsS durationS intervalMs : Int} {g : Generated}
    (h : getTrace net files round fuel city1 city2 startTsS durationS intervalMs = some g) :
    ∃ times s, rangeOf (startTsS * 1000 * 1000 * 1000)
        ((startTsS + durationS) * 1000 * 1000 * 1000) (intervalMs * 1000 * 1000) = some times ∧
      g = ⟨s.maxPathLength - 2, s.globalMidnodeId, s.isls, s.linksParams⟩ ∧
      Traced net files round (city1 + 1584) (city2 + 1584) times s := by
  simp only [getTrace, Option.bind_eq_bind, Option.bind_eq_some_iff] at h
  obtain ⟨times, htimes, s, hrun, h⟩ := h
  exact ⟨times, s, htimes, (Option.some.inj h).symm, run_traced hrun⟩

/-- Whatever is returned records the paths of the forwarding states at the times asked for, with
the links they use and no others, and the most nodes one of them has between its ends. -/
theorem getTrace_records {city1 city2 startTsS durationS intervalMs : Int} {g : Generated}
    (h : getTrace net files round fuel city1 city2 startTsS durationS intervalMs = some g) :
    ∃ times names, rangeOf (startTsS * 1000 * 1000 * 1000)
        ((startTsS + durationS) * 1000 * 1000 * 1000) (intervalMs * 1000 * 1000) = some times ∧
      Numbered names g.totalMidnodeNum ∧ Links g.isls g.totalMidnodeNum ∧
      g.linksParams.length = times.length ∧
      (∀ k timeNs lp, times[k]? = some timeNs → g.linksParams[k]? = some lp → ∃ fstate path,
        fstateAfter files (times.take (k + 1)) = some fstate ∧
        Records net round timeNs fstate (city1 + 1584) (city2 + 1584) names path lp ∧
        OnLinks g.isls lp.topo) ∧
      (∀ node ∈ keys names, ∃ lp ∈ g.linksParams, ∃ id ∈ lp.topo, get? names node = some id) ∧
      (∀ isl ∈ g.isls, ∃ lp ∈ g.linksParams, [isl.1, isl.2] <:+: 0 :: (lp.topo ++ [-1])) ∧
      (∀ lp ∈ g.linksParams, (lp.topo.length : Int) ≤ g.maxMidnodeNum) ∧
      (times ≠ [] → ∃ lp ∈ g.linksParams, (lp.topo.length : Int) = g.maxMidnodeNum) := by
  obtain ⟨times, s, htimes, rfl, traced⟩ := getTrace_traced h
  refine ⟨times, s.midnodeIdMapDict, htimes, traced.numbered, traced.links, traced.length,
    traced.records, traced.met, traced.used, fun lp hlp => ?_, fun nonempty => ?_⟩
  · have := traced.within lp hlp
    simp only
    omega
  · rcases traced.reached with hzero | ⟨lp, hlp, hmost⟩
    · obtain ⟨lp, hlp⟩ := List.exists_mem_of_length_pos
        (traced.length ▸ List.length_pos_iff.mpr nonempty)
      have := traced.within lp hlp
      omega
    · refine ⟨lp, hlp, ?_⟩
      simp only
      omega

end Runs

/-- Three satellites between the first two cities. -/
def threeSatellites : Constellation where
  satellites := 1584
  listIsls := [(0, 1), (1, 2)]
  maxGslLengthM := 1000
  maxIslLengthM := 1000
  distanceMBetweenSatellites _ _ _ := some 300
  distanceMGroundStationToSatellite _ _ _ := some 600

/-- The two satellites of the path change places, and later a third one leads to the second. -/
def handover : Files := fun timeNs =>
  if timeNs = 0 then
    some [((1584, 1585), 0), ((0, 1585), 1), ((1, 1585), 1585),
      ((1585, 1584), 1), ((1, 1584), 0), ((0, 1584), 1584)]
  else if timeNs = 1000000000 then
    some [((1584, 1585), 1), ((1, 1585), 0), ((0, 1585), 1585),
      ((1585, 1584), 0), ((0, 1584), 1), ((1, 1584), 1584)]
  else some [((1584, 1585), 2), ((2, 1585), 1), ((1, 1585), 1585)]

theorem getTrace_records_handover :
    ∃ g times, ∃ names : List (Int × Int),
      getTrace threeSatellites handover id 7 0 1 0 3 1000 = some g ∧
      g.isls = [(0, 1), (2, -1), (1, 2), (0, 2), (1, -1), (0, 3), (3, 2)] ∧
      rangeOf 0 3000000000 1000000000 = some times ∧ Numbered names g.totalMidnodeNum ∧
      g.linksParams.length = times.length := by
  have hreturns : (getTrace threeSatellites handover id 7 0 1 0 3 1000).map Generated.isls =
      some [(0, 1), (2, -1), (1, 2), (0, 2), (1, -1), (0, 3), (3, 2)] := by
    decide +kernel
  obtain ⟨g, hg, hisls⟩ := Option.map_eq_some_iff.mp hreturns
  obtain ⟨times, names, htimes, numbered, -, length, -⟩ := getTrace_records hg
  exact ⟨g, times, names, hg, hisls, htimes, numbered, length⟩

end TraceHistory
