import Intcp.ContactIntervals
import Intcp.Numbering
import Intcp.PointerWalks
import Intcp.StepRuns
import Intcp.TraceRouting

/-!
# Generating a trace

`get_trace.py` and `get_path`: the forwarding state of every step is read over that of the
one before, and the path it gives between the two ground stations becomes the topology of
the step. Nodes are numbered in the order in which the paths first use them, and each link
is listed once. The files, and the distances, which an astronomy package computes, are
parameters; numbers are exact. An error ends the call, as does a path that never arrives.
-/

namespace TraceGeneration

open ContactIntervals Dicts Numbering PointerWalks StepRuns TestbedRoutes TraceRouting

/-- The next hop from a node to a destination. -/
abbrev ForwardState := List ((Int × Int) × Int)

/-- `none` is an error or a loop without end, `some none` the answer that no path exists. -/
def getPath (fuel : Nat) (src dst : Int) (forwardState : ForwardState) :
    Option (Option (List Int)) := do
  let first ← get? forwardState (src, dst)
  if first = -1 then some none
  else (pursue (fun curr => get? forwardState (curr, dst)) dst fuel src).map some

/-- The distances are `none` where there is no such satellite or ground station. -/
structure Constellation where
  satellites : Nat
  listIsls : List (Int × Int)
  maxGslLengthM : Rat
  maxIslLengthM : Rat
  distanceMBetweenSatellites : (sat sat' timeNs : Int) → Option Rat
  distanceMGroundStationToSatellite : (gid sat timeNs : Int) → Option Rat

section Lengths

variable (net : Constellation) (timeNs : Int)

def hopLength (fromNodeId toNodeId : Int) : Option Rat :=
  if fromNodeId < net.satellites ∧ toNodeId < net.satellites then do
    let satDistanceM ← net.distanceMBetweenSatellites fromNodeId toNodeId timeNs
    if satDistanceM > net.maxIslLengthM ∨
        (¬ net.listIsls.contains (toNodeId, fromNodeId) ∧
          ¬ net.listIsls.contains (fromNodeId, toNodeId)) then none
    else some satDistanceM
  else if net.satellites ≤ fromNodeId ∧ toNodeId < net.satellites then do
    let distanceM ← net.distanceMGroundStationToSatellite (fromNodeId - net.satellites) toNodeId
      timeNs
    if distanceM > net.maxGslLengthM then none else some distanceM
  else if fromNodeId < net.satellites ∧ net.satellites ≤ toNodeId then do
    let distanceM ← net.distanceMGroundStationToSatellite (toNodeId - net.satellites) fromNodeId
      timeNs
    if distanceM > net.maxGslLengthM then none else some distanceM
  else none

def addHops : Rat → List Int → Option Rat
  | pathLengthM, node :: next :: path => do
    let hop ← hopLength net timeNs node next
    addHops (pathLengthM + hop) (next :: path)
  | pathLengthM, _ => some pathLengthM

def computePathLengthWithoutGraph (path : List Int) : Option Rat := addHops net timeNs 0 path

/-- The lengths of both paths go into a list that nothing reads; their errors count. -/
def pathLengths (pathThere pathBack : Option (List Int)) : Option (Rat × Rat) :=
  match pathThere, pathBack with
  | some there, some back => do
    let lengthSrcToDstM ← computePathLengthWithoutGraph net timeNs there
    let lengthDstToSrcM ← computePathLengthWithoutGraph net timeNs back
    some (lengthSrcToDstM, lengthDstToSrcM)
  | _, _ => some (0, 0)

/-- `round` is to two decimals. -/
def hopRttMsList (round : Rat → Rat) : List Int → Option (List Rat)
  | node1 :: node2 :: path => do
    let there ← computePathLengthWithoutGraph net timeNs [node1, node2]
    let back ← computePathLengthWithoutGraph net timeNs [node2, node1]
    let hopRttNs := (there + back) * 1000000000 / 299792458
    let more ← hopRttMsList round (node2 :: path)
    some (round (hopRttNs / 1000000) :: more)
  | _ => some []

end Lengths

def noteGround (isl : Int × Int) (isls : List (Int × Int)) : List (Int × Int) :=
  if isls.contains isl then isls else isls ++ [isl]

def noteIsl (a b : Int) (isls : List (Int × Int)) : List (Int × Int) :=
  if ¬ isls.contains (a, b) ∧ ¬ isls.contains (b, a) then isls ++ [(a, b)] else isls

def noteIsls : List Int → List (Int × Int) → List (Int × Int)
  | a :: b :: topo, isls => noteIsls (b :: topo) (noteIsl a b isls)
  | _, isls => isls

structure TraceState where
  fstate : ForwardState
  maxPathLength : Nat
  linksParams : List LinksParam
  midnodeIdMapDict : List (Int × Int)
  globalMidnodeId : Nat
  isls : List (Int × Int)

def TraceState.new : TraceState := ⟨[], 0, [], [], 0, []⟩

/-- `current_path[1:-1]` -/
def midnodes (path : List Int) : List Int := path.tail.dropLast

def nameNode (s : TraceState) (node : Int) : TraceState :=
  if node ∈ keys s.midnodeIdMapDict then s
  else { s with
    globalMidnodeId := s.globalMidnodeId + 1
    midnodeIdMapDict := assign s.midnodeIdMapDict node ((s.globalMidnodeId + 1 : Nat) : Int) }

/-- The lines of the file of each time, in order. -/
abbrev Files := (timeNs : Int) → Option ForwardState

def traceStep (net : Constellation) (files : Files) (round : Rat → Rat) (fuel : Nat)
    (src dst timeNs : Int) (s : TraceState) : Option TraceState := do
  let lines ← files timeNs
  let fstate := merge s.fstate lines
  let pathThere ← getPath fuel src dst fstate
  let pathBack ← getPath fuel dst src fstate
  let _ ← pathLengths net timeNs pathThere pathBack
  -- the new path is asked for once more, and `None` has no length
  let currentPath ← pathThere
  let s := (midnodes currentPath).foldl nameNode
    { s with
      fstate := fstate
      maxPathLength := max s.maxPathLength currentPath.length }
  let rtts ← hopRttMsList net timeNs round currentPath
  let renamed ← (midnodes currentPath).mapM fun node => get? s.midnodeIdMapDict node
  let first ← renamed.head?
  let last ← renamed.getLast?
  some { s with
    isls := noteIsls renamed (noteGround (last, -1) (noteGround (0, first) s.isls))
    linksParams := s.linksParams ++ [⟨renamed, 50 :: (rtts ++ [50]), [], []⟩] }

/-- `range(start, stop, step)` -/
def rangeOf (start stop step : Int) : Option (List Int) :=
  if step = 0 then none
  else some ((List.range (-((start - stop).fdiv step)).toNat).map fun i : Nat => start + i * step)

structure Generated where
  maxMidnodeNum : Int
  totalMidnodeNum : Nat
  isls : List (Int × Int)
  linksParams : List LinksParam

/-- City numbers follow the 1584 satellites. -/
def getTrace (net : Constellation) (files : Files) (round : Rat → Rat) (fuel : Nat)
    (city1 city2 startTsS durationS intervalMs : Int) : Option Generated := do
  let times ← rangeOf (startTsS * 1000 * 1000 * 1000) ((startTsS + durationS) * 1000 * 1000 * 1000)
    (intervalMs * 1000 * 1000)
  let s ← run (traceStep net files round fuel (city1 + 1584) (city2 + 1584)) TraceState.new times
  some ⟨s.maxPathLength - 2, s.globalMidnodeId, s.isls, s.linksParams⟩

/-- The path that the forwarding state gives. -/
structure PathOf (fstate : ForwardState) (src dst : Int) (path : List Int) : Prop where
  leads : Leads (fun curr => get? fstate (curr, dst)) dst path
  head : path.head? = some src

lemma getPath_some {fuel : Nat} {src dst : Int} {fstate : ForwardState} {path : List Int}
    (h : getPath fuel src dst fstate = some (some path)) : PathOf fstate src dst path := by
  simp only [getPath, Option.bind_eq_bind, Option.bind_eq_some_iff] at h
  obtain ⟨first, -, h⟩ := h
  split at h
  · cases Option.some.inj h
  · obtain ⟨path', walked, same⟩ := Option.map_eq_some_iff.mp h
    obtain rfl := Option.some.inj same
    obtain ⟨leads, head, -⟩ := pursue_iff.mp walked
    exact ⟨leads, head⟩

/-- Either the loop ends within a pass for each entry of the forwarding state, or it never
does: the state leads to the destination by a path that meets no node twice, or nowhere. -/
theorem getPath_ends (src dst : Int) (fstate : ForwardState) :
    (∀ fuel answer, getPath fuel src dst fstate = some answer →
      getPath (fstate.length + 1) src dst fstate = some answer) ∧
    ∀ path, (∃ fuel, getPath fuel src dst fstate = some (some path)) ↔
      (∃ hop, get? fstate (src, dst) = some hop ∧ hop ≠ -1) ∧
        PathOf fstate src dst path ∧ path.Nodup := by
  have known : ∀ a, (get? fstate (a, dst)).isSome →
      a ∈ fstate.map fun entry => entry.1.1 := by
    intro a h
    obtain ⟨entry, hmem, same⟩ := List.mem_map.mp (get?_isSome.mp h)
    exact List.mem_map.mpr ⟨entry, hmem, congrArg Prod.fst same⟩
  constructor
  · intro fuel answer h
    simp only [getPath, Option.bind_eq_bind, Option.bind_eq_some_iff] at h ⊢
    obtain ⟨first, hfirst, h⟩ := h
    refine ⟨first, hfirst, ?_⟩
    split at h
    · rename_i unreachable
      rwa [if_pos unreachable]
    · rename_i reachable
      rw [if_neg reachable]
      obtain ⟨path, walked, rfl⟩ := Option.map_eq_some_iff.mp h
      have enough := pursue_enough known walked
      rw [List.length_map] at enough
      rw [enough, Option.map_some]
  · intro path
    constructor
    · rintro ⟨fuel, h⟩
      refine ⟨?_, getPath_some h, (getPath_some h).leads.nodup⟩
      simp only [getPath, Option.bind_eq_bind, Option.bind_eq_some_iff] at h
      obtain ⟨first, hfirst, h⟩ := h
      refine ⟨first, hfirst, fun unreachable => ?_⟩
      rw [if_pos unreachable] at h
      cases Option.some.inj h
    · rintro ⟨⟨first, hfirst, reachable⟩, given, -⟩
      refine ⟨path.length, ?_⟩
      have walked : pursue (fun curr => get? fstate (curr, dst)) dst path.length src = some path :=
        pursue_iff.mpr ⟨given.leads, given.head, le_rfl⟩
      simp only [getPath, hfirst, Option.bind_eq_bind, Option.bind_some, if_neg reachable, walked,
        Option.map_some]

/-- Two satellites that hand the packet to each other, and an entry that leads past them. -/
example : getPath 4 9 8 [((9, 8), 1), ((1, 8), 2), ((2, 8), 1)] = none ∧
    getPath 4 9 8 [((9, 8), 3), ((1, 8), 2), ((3, 8), 8)] = some (some [9, 3, 8]) := by
  decide

variable {net : Constellation} {files : Files} {round : Rat → Rat} {fuel : Nat}
  {src dst timeNs : Int} {s t : TraceState}

/-- All that a step that returns has read and written. -/
theorem traceStep_cases (h : traceStep net files round fuel src dst timeNs s = some t) :
    ∃ lines path rtts topo first last,
      files timeNs = some lines ∧ PathOf (merge s.fstate lines) src dst path ∧
      hopRttMsList net timeNs round path = some rtts ∧
      topo.head? = some first ∧ topo.getLast? = some last ∧
      let named := (midnodes path).foldl nameNode { s with
        fstate := merge s.fstate lines, maxPathLength := max s.maxPathLength path.length }
      (midnodes path).mapM (fun node => get? named.midnodeIdMapDict node) = some topo ∧
      t = { named with
        isls := noteIsls topo (noteGround (last, -1) (noteGround (0, first) named.isls))
        linksParams := named.linksParams ++ [⟨topo, 50 :: (rtts ++ [50]), [], []⟩] } := by
  simp only [traceStep, Option.bind_eq_bind, Option.bind_eq_some_iff] at h
  obtain ⟨lines, hlines, there, hthere, back, -, -, -, path, rfl, rtts, hrtts, topo, htopo, first,
    hfirst, last, hlast, h⟩ := h
  exact ⟨lines, path, rtts, topo, first, last, hlines, getPath_some hthere, hrtts, hfirst, hlast,
    htopo, (Option.some.inj h).symm⟩

lemma map_of_mapM {A B : Type} {f : A → Option B} {l : List A} {bs : List B}
    (h : l.mapM f = some bs) : l.map f = bs.map some := by
  induction l generalizing bs with
  | nil =>
    obtain rfl : [] = bs := by simpa using h
    rfl
  | cons a l ih =>
    simp only [List.mapM_cons, Option.bind_eq_bind, Option.bind_eq_some_iff] at h
    obtain ⟨b, here, bs', rest, h⟩ := h
    obtain rfl := Option.some.inj h
    rw [List.map_cons, List.map_cons, here, ih rest]

/-- Each hop of the path has a length. -/
lemma hopRttMsList_hops {path : List Int} {rtts : List Rat}
    (h : hopRttMsList net timeNs round path = some rtts) :
    rtts.length + 1 = max path.length 1 ∧
      path.IsChain fun a b => (hopLength net timeNs a b).isSome := by
  induction path generalizing rtts with
  | nil =>
    obtain rfl : [] = rtts := by simpa [hopRttMsList] using h
    exact ⟨rfl, List.isChain_nil⟩
  | cons a path ih =>
    cases path with
    | nil =>
      obtain rfl : [] = rtts := by simpa [hopRttMsList] using h
      exact ⟨rfl, List.isChain_singleton a⟩
    | cons b path =>
      simp only [hopRttMsList, computePathLengthWithoutGraph, addHops, Option.bind_eq_bind,
        Option.bind_eq_some_iff] at h
      obtain ⟨there, ⟨hop, hhop, -⟩, back, -, more, hmore, h⟩ := h
      obtain rfl := Option.some.inj h
      obtain ⟨length, chain⟩ := ih hmore
      refine ⟨?_, List.isChain_cons_cons.mpr ⟨by simp [hhop], chain⟩⟩
      simp only [List.length_cons] at length ⊢
      omega

/-- What naming nodes does to a state. -/
structure Named (nodes : List Int) (s t : TraceState) : Prop where
  numbered : Numbered t.midnodeIdMapDict t.globalMidnodeId
  kept : ∀ node id, get? s.midnodeIdMapDict node = some id → get? t.midnodeIdMapDict node = some id
  known : ∀ node, node ∈ keys t.midnodeIdMapDict ↔ node ∈ keys s.midnodeIdMapDict ∨ node ∈ nodes
  more : s.globalMidnodeId ≤ t.globalMidnodeId
  fstate : t.fstate = s.fstate
  maxPathLength : t.maxPathLength = s.maxPathLength
  linksParams : t.linksParams = s.linksParams
  isls : t.isls = s.isls

lemma Named.refl (numbered : Numbered s.midnodeIdMapDict s.globalMidnodeId) : Named [] s s :=
  ⟨numbered, fun _ _ h => h, by simp, le_rfl, rfl, rfl, rfl, rfl⟩

lemma Named.trans {u : TraceState} {nodes nodes' : List Int} (h : Named nodes s t)
    (h' : Named nodes' t u) : Named (nodes ++ nodes') s u where
  numbered := h'.numbered
  kept node id found := h'.kept node id (h.kept node id found)
  known node := by rw [h'.known, h.known, List.mem_append, or_assoc]
  more := h.more.trans h'.more
  fstate := h'.fstate.trans h.fstate
  maxPathLength := h'.maxPathLength.trans h.maxPathLength
  linksParams := h'.linksParams.trans h.linksParams
  isls := h'.isls.trans h.isls

lemma named_nameNode (numbered : Numbered s.midnodeIdMapDict s.globalMidnodeId) (node : Int) :
    Named [node] s (nameNode s node) := by
  unfold nameNode
  split
  · rename_i old
    refine ⟨numbered, fun _ _ h => h, fun other => ?_, le_rfl, rfl, rfl, rfl, rfl⟩
    constructor
    · exact Or.inl
    · rintro (h | h)
      · exact h
      · obtain rfl := List.mem_singleton.mp h
        exact old
  · rename_i fresh
    refine ⟨numbered.extend fresh, fun other id found => ?_, fun other => ?_, Nat.le_succ _, rfl,
      rfl, rfl, rfl⟩
    · have apart : node ≠ other := by
        rintro rfl
        exact fresh (get?_isSome.mp (by simp [found]))
      exact (get?_assign_other _ apart _).trans found
    · rw [List.mem_singleton]
      exact mem_keys_assign

lemma named_foldl (numbered : Numbered s.midnodeIdMapDict s.globalMidnodeId) (nodes : List Int) :
    Named nodes s (nodes.foldl nameNode s) := by
  induction nodes generalizing s with
  | nil => exact .refl numbered
  | cons node nodes ih =>
    have first := named_nameNode numbered node
    exact first.trans (ih first.numbered)

/-- Every link is listed once, in one direction, and joins hosts that there are. -/
structure Links (isls : List (Int × Int)) (total : Nat) : Prop where
  once : isls.Nodup
  oneWay : ∀ isl ∈ isls, isl.swap ∉ isls
  left : ∀ isl ∈ isls, isl.1 = 0 ∨ 1 ≤ isl.1 ∧ isl.1 ≤ total
  right : ∀ isl ∈ isls, isl.2 = -1 ∨ 1 ≤ isl.2 ∧ isl.2 ≤ total

section Listing

variable {isls : List (Int × Int)} {total : Nat}

lemma Links.more (h : Links isls total) {total' : Nat} (le : total ≤ total') :
    Links isls total' where
  once := h.once
  oneWay := h.oneWay
  left isl hmem := (h.left isl hmem).imp_right fun ⟨one, last⟩ => ⟨one, by omega⟩
  right isl hmem := (h.right isl hmem).imp_right fun ⟨one, last⟩ => ⟨one, by omega⟩

lemma Links.snoc (h : Links isls total) {isl : Int × Int} (new : isl ∉ isls)
    (newBack : isl.swap ∉ isls) (apart : isl.1 ≠ isl.2)
    (left : isl.1 = 0 ∨ 1 ≤ isl.1 ∧ isl.1 ≤ total)
    (right : isl.2 = -1 ∨ 1 ≤ isl.2 ∧ isl.2 ≤ total) : Links (isls ++ [isl]) total where
  once := List.Nodup.append h.once (List.nodup_singleton isl) (by simpa using new)
  oneWay := by
    intro isl' hmem hback
    rcases List.mem_append.mp hmem with hmem | hmem
    · rcases List.mem_append.mp hback with hback | hback
      · exact h.oneWay isl' hmem hback
      · exact newBack (List.mem_singleton.mp hback ▸ by simpa using hmem)
    · obtain rfl := List.mem_singleton.mp hmem
      rcases List.mem_append.mp hback with hback | hback
      · exact newBack hback
      · exact apart (congrArg Prod.snd (List.mem_singleton.mp hback))
  left isl' hmem := by
    rcases List.mem_append.mp hmem with hmem | hmem
    · exact h.left isl' hmem
    · rwa [List.mem_singleton.mp hmem]
  right isl' hmem := by
    rcases List.mem_append.mp hmem with hmem | hmem
    · exact h.right isl' hmem
    · rwa [List.mem_singleton.mp hmem]

lemma mem_noteGround {isl isl' : Int × Int} :
    isl' ∈ noteGround isl isls ↔ isl' ∈ isls ∨ isl' = isl := by
  unfold noteGround
  split
  · rename_i old
    constructor
    · exact Or.inl
    · rintro (h | rfl)
      · exact h
      · exact List.contains_iff_mem.mp old
  · simp

lemma Links.noteGround (h : Links isls total) {isl : Int × Int} (apart : isl.1 ≠ isl.2)
    (back : isl.swap ∉ isls) (left : isl.1 = 0 ∨ 1 ≤ isl.1 ∧ isl.1 ≤ total)
    (right : isl.2 = -1 ∨ 1 ≤ isl.2 ∧ isl.2 ≤ total) :
    Links (TraceGeneration.noteGround isl isls) total := by
  unfold TraceGeneration.noteGround
  split
  · exact h
  · rename_i new
    exact h.snoc (mt List.contains_iff_mem.mpr new) back apart left right

lemma mem_noteIsl_of_mem {a b : Int} {isl : Int × Int} (h : isl ∈ isls) : isl ∈ noteIsl a b isls := by
  unfold noteIsl
  split
  · exact List.mem_append_left _ h
  · exact h

lemma noteIsl_joins (a b : Int) (isls : List (Int × Int)) :
    (a, b) ∈ noteIsl a b isls ∨ (b, a) ∈ noteIsl a b isls := by
  unfold noteIsl
  split
  · simp
  · rename_i old
    rwa [not_and_or, not_not, not_not, List.contains_iff_mem, List.contains_iff_mem] at old

lemma mem_of_mem_noteIsl {a b : Int} {isl : Int × Int} (h : isl ∈ noteIsl a b isls) :
    isl ∈ isls ∨ isl = (a, b) := by
  unfold noteIsl at h
  split at h
  · simpa using h
  · exact Or.inl h

lemma mem_noteIsls_of_mem {topo : List Int} {isl : Int × Int} (h : isl ∈ isls) :
    isl ∈ noteIsls topo isls := by
  fun_induction noteIsls topo isls with
  | case1 a b topo isls ih => exact ih (mem_noteIsl_of_mem h)
  | case2 => exact h

/-- Afterwards every two neighbours are joined. -/
lemma noteIsls_joins (topo : List Int) (isls : List (Int × Int)) :
    topo.IsChain fun a b => (a, b) ∈ noteIsls topo isls ∨ (b, a) ∈ noteIsls topo isls := by
  fun_induction noteIsls topo isls with
  | case1 a b topo isls ih =>
    refine List.isChain_cons_cons.mpr ⟨?_, ih⟩
    exact (noteIsl_joins a b isls).imp mem_noteIsls_of_mem mem_noteIsls_of_mem
  | case2 topo isls short =>
    rcases topo with _ | ⟨a, _ | ⟨b, topo⟩⟩
    · exact List.isChain_nil
    · exact List.isChain_singleton a
    · exact absurd rfl (short a b topo)

lemma mem_of_mem_noteIsls {topo : List Int} {isl : Int × Int} (h : isl ∈ noteIsls topo isls) :
    isl ∈ isls ∨ [isl.1, isl.2] <:+: topo := by
  fun_induction noteIsls topo isls with
  | case1 a b topo isls ih =>
    rcases ih h with hmem | hlater
    · rcases mem_of_mem_noteIsl hmem with hold | rfl
      · exact Or.inl hold
      · exact Or.inr (List.prefix_append [a, b] topo).isInfix
    · exact Or.inr (hlater.trans (List.suffix_cons a (b :: topo)).isInfix)
  | case2 => exact Or.inl h

lemma Links.noteIsls (h : Links isls total) {topo : List Int} (simple : topo.Nodup)
    (hosts : ∀ id ∈ topo, 1 ≤ id ∧ id ≤ total) :
    Links (TraceGeneration.noteIsls topo isls) total := by
  fun_induction TraceGeneration.noteIsls topo isls with
  | case1 a b topo isls ih =>
    refine ih ?_ (List.nodup_cons.mp simple).2 fun id hid => hosts id (List.mem_cons_of_mem a hid)
    unfold noteIsl
    split
    · rename_i new
      have apart : a ≠ b := fun same => (List.nodup_cons.mp simple).1 (same ▸ List.mem_cons_self)
      exact h.snoc (mt List.contains_iff_mem.mpr new.1) (mt List.contains_iff_mem.mpr new.2) apart
        (Or.inr (hosts a (by simp))) (Or.inr (hosts b (by simp)))
    · exact h
  | case2 => exact h

end Listing

end TraceGeneration
