import Intcp.TestbedRoutes
import Mathlib.Data.List.Nodup

/-!
# Routing follows the trace

Deleting the routes of a topology leaves none, so after any number of updates
the tables are those of the current topology alone. Along its path they name the
neighbours in both directions, except that link 98 of `isls` has the segment
reserved for gs2 and h2: a node at either end of it takes h2's address for its own
link's.
-/

namespace TraceRouting

open HopWalks TestbedRoutes

variable {isls : List (Int × Int)} {topo : List Int}

/-- What the lines say of one host. -/
def linesOf (lines : List (Node × Route)) (node : Node) : List Route :=
  (lines.filter fun line => line.1 = node).map Prod.snd

lemma linesOf_cons (line : Node × Route) (lines : List (Node × Route)) (node : Node) :
    linesOf (line :: lines) node =
      if line.1 = node then line.2 :: linesOf lines node else linesOf lines node := by
  by_cases h : line.1 = node <;> simp [linesOf, h]

lemma mem_linesOf {lines : List (Node × Route)} {node : Node} {route : Route} :
    route ∈ linesOf lines node ↔ (node, route) ∈ lines := by
  simp [linesOf]

lemma foldl_routeAdd (lines : List (Node × Route)) (tables : Tables) (node : Node) :
    lines.foldl routeAdd tables node = tables node ++ linesOf lines node := by
  induction lines generalizing tables with
  | nil => simp [linesOf]
  | cons line lines ih =>
    rw [List.foldl_cons, ih, linesOf_cons]
    by_cases h : line.1 = node
    · subst h
      simp [routeAdd]
    · simp [routeAdd, Function.update_of_ne (Ne.symm h), h]

lemma foldl_routeDel (lines : List (Node × Route)) (tables : Tables) (node : Node) :
    lines.foldl routeDel tables node = (tables node).diff (linesOf lines node) := by
  induction lines generalizing tables with
  | nil => simp [linesOf]
  | cons line lines ih =>
    rw [List.foldl_cons, ih, linesOf_cons]
    by_cases h : line.1 = node
    · subst h
      simp [routeDel]
    · simp [routeDel, Function.update_of_ne (Ne.symm h), h]

lemma diff_same (routes : List Route) : routes.diff routes = [] := by
  induction routes with
  | nil => rfl
  | cons route routes ih => rw [List.diff_cons, List.erase_cons_head, ih]

/-- `clearRoute` takes back exactly what `setRoute` wrote. -/
theorem clearRoute_undoes {topo : Option (List Int)} {tables : Tables}
    (h : setRoute isls topo noRoutes = some tables) :
    clearRoute isls topo tables = some noRoutes := by
  cases topo with
  | none => exact h.symm
  | some topo =>
    obtain ⟨segs, hsegs, rfl⟩ := Option.map_eq_some_iff.mp h
    simp only [clearRoute, hsegs, Option.map_some, Option.some.injEq]
    funext node
    rw [foldl_routeDel, foldl_routeAdd, noRoutes, List.nil_append, diff_same]

lemma find?_of_all {α : Type} {l : List α} {p : α → Bool} {Q : α → Prop} {x : α} (hx : x ∈ l)
    (found : p x = true) (all : ∀ y ∈ l, p y = true → Q y) : ∃ y, l.find? p = some y ∧ Q y := by
  obtain ⟨y, hy⟩ := Option.isSome_iff_exists.mp (List.find?_isSome.mpr ⟨x, hx, found⟩)
  exact ⟨y, hy, all y (List.mem_of_find?_eq_some hy) (List.find?_some hy)⟩

lemma find?_skip {α : Type} {l more : List α} {p : α → Bool} (miss : ∀ y ∈ l, p y = false) :
    (l ++ more).find? p = more.find? p := by
  rw [List.find?_append, List.find?_eq_none.mpr fun y hy => by simp [miss y hy], Option.none_or]

/-- The interfaces of the numbered links. -/
def islLinks (isls : List (Int × Int)) : List Intf :=
  isls.zipIdx.flatMap fun isl => addIsl isl.1 isl.2

lemma createAllLinks_eq (isls : List (Int × Int)) :
    createAllLinks isls = islLinks isls ++ groundLinks := rfl

/-- A numbered interface is the left or the right end of the link its segment names. -/
lemma mem_islLinks {i : Intf} : i ∈ islLinks isls ↔ ∃ isl k, isls[k]? = some isl ∧
    i.switch = (nameA isl.1, nameB isl.2) ∧
    (i.node = nameA isl.1 ∧ i.ip = ⟨k + 2, 1⟩ ∨ i.node = nameB isl.2 ∧ i.ip = ⟨k + 2, 2⟩) := by
  simp only [islLinks, List.mem_flatMap, List.mem_zipIdx_iff_getElem?, Prod.exists, addIsl,
    List.mem_cons, List.not_mem_nil, or_false]
  constructor
  · rintro ⟨a, b, k, hk, rfl | rfl⟩
    · exact ⟨a, b, k, hk, rfl, .inl ⟨rfl, rfl⟩⟩
    · exact ⟨a, b, k, hk, rfl, .inr ⟨rfl, rfl⟩⟩
  · rintro ⟨a, b, k, hk, hswitch, ⟨hnode, hip⟩ | ⟨hnode, hip⟩⟩
    · exact ⟨a, b, k, hk, .inl (by cases i; simp_all)⟩
    · exact ⟨a, b, k, hk, .inr (by cases i; simp_all)⟩

lemma nameA_ne_ground (num : Int) : nameA num ≠ .h1 ∧ nameA num ≠ .gs2 ∧ nameA num ≠ .h2 := by
  unfold nameA
  split <;> simp

lemma nameB_ne_ground (num : Int) : nameB num ≠ .h1 ∧ nameB num ≠ .gs1 ∧ nameB num ≠ .h2 := by
  unfold nameB
  split <;> simp

lemma switch_ground {i : Intf} (hi : i ∈ groundLinks) : i.switch.1 = .h1 ∨ i.switch.1 = .gs2 := by
  simp only [groundLinks, List.mem_cons, List.not_mem_nil, or_false] at hi
  rcases hi with rfl | rfl | rfl | rfl <;> simp

lemma connected_isl {isl : Int × Int} {k : Nat} (hk : isls[k]? = some isl) {node : Node}
    (hnode : node = nameA isl.1 ∨ node = nameB isl.2) :
    ∃ out, connected (createAllLinks isls) node (k + 2) = some out ∧
      out.switch = (nameA isl.1, nameB isl.2) := by
  obtain ⟨host, hmem⟩ : ∃ host, ⟨node, (nameA isl.1, nameB isl.2), ⟨k + 2, host⟩⟩ ∈ islLinks isls := by
    rcases hnode with rfl | rfl
    · exact ⟨1, mem_islLinks.mpr ⟨isl, k, hk, rfl, .inl ⟨rfl, rfl⟩⟩⟩
    · exact ⟨2, mem_islLinks.mpr ⟨isl, k, hk, rfl, .inr ⟨rfl, rfl⟩⟩⟩
  have hall : ∀ i ∈ islLinks isls, decide (i.node = node ∧ i.ip.seg = k + 2) = true →
      i.switch = (nameA isl.1, nameB isl.2) := by
    intro i hi hp
    obtain ⟨-, hseg⟩ := of_decide_eq_true hp
    obtain ⟨isl', k', hk', hswitch, hend⟩ := mem_islLinks.mp hi
    obtain rfl : k' = k := by
      rcases hend with ⟨-, hip⟩ | ⟨-, hip⟩ <;> simpa [hip] using hseg
    obtain rfl : isl' = isl := Option.some.inj (hk'.symm.trans hk)
    exact hswitch
  obtain ⟨out, hout, hswitch⟩ := find?_of_all hmem (by simp) hall
  refine ⟨out, ?_, hswitch⟩
  rw [connected, createAllLinks_eq, List.find?_append, hout, Option.some_or]

lemma answers_isl {isl : Int × Int} {k : Nat} (hk : isls[k]? = some isl) {node : Node} {host : Nat}
    (hend : node = nameA isl.1 ∧ host = 1 ∨ node = nameB isl.2 ∧ host = 2) :
    ∃ i, answers (createAllLinks isls) (nameA isl.1, nameB isl.2) ⟨k + 2, host⟩ = some i ∧
      i.node = node := by
  have hmem : ⟨node, (nameA isl.1, nameB isl.2), ⟨k + 2, host⟩⟩ ∈ islLinks isls := by
    rcases hend with ⟨rfl, rfl⟩ | ⟨rfl, rfl⟩
    · exact mem_islLinks.mpr ⟨isl, k, hk, rfl, .inl ⟨rfl, rfl⟩⟩
    · exact mem_islLinks.mpr ⟨isl, k, hk, rfl, .inr ⟨rfl, rfl⟩⟩
  refine find?_of_all (List.mem_append_left _ hmem) (by simp) ?_
  intro i hi hp
  obtain ⟨hswitch, hip⟩ : i.switch = (nameA isl.1, nameB isl.2) ∧ i.ip = ⟨k + 2, host⟩ := by
    simpa using hp
  rcases List.mem_append.mp hi with hi | hi
  · obtain ⟨isl', k', hk', -, hend'⟩ := mem_islLinks.mp hi
    obtain rfl : k' = k := by
      rcases hend' with ⟨-, hip'⟩ | ⟨-, hip'⟩ <;> simp_all
    obtain rfl : isl' = isl := Option.some.inj (hk'.symm.trans hk)
    rcases hend with ⟨rfl, rfl⟩ | ⟨rfl, rfl⟩ <;> simp_all
  · have hground := switch_ground hi
    rw [hswitch] at hground
    rcases hground with h | h
    · exact absurd h (nameA_ne_ground isl.1).1
    · exact absurd h (nameA_ne_ground isl.1).2.1

/-- Both ends of a numbered link reach either end through it. -/
theorem handTo_isl {isl : Int × Int} {k : Nat} (hk : isls[k]? = some isl) {node : Node}
    (hnode : node = nameA isl.1 ∨ node = nameB isl.2) :
    handTo (createAllLinks isls) node ⟨k + 2, 1⟩ = .next (nameA isl.1) ∧
      handTo (createAllLinks isls) node ⟨k + 2, 2⟩ = .next (nameB isl.2) := by
  obtain ⟨out, hout, hswitch⟩ := connected_isl hk hnode
  obtain ⟨left, hleft, hleftNode⟩ := answers_isl hk (.inl ⟨rfl, rfl⟩)
  obtain ⟨right, hright, hrightNode⟩ := answers_isl hk (.inr ⟨rfl, rfl⟩)
  simp only [handTo, hout, Option.bind_some, hswitch, hleft, hright, hleftNode, hrightNode, and_self]

/-- Where no numbered interface of the host is in the segment, the ground links decide. -/
theorem handTo_ground {node : Node} {ip : Addr}
    (apart : ∀ i ∈ islLinks isls, i.node = node → i.ip.seg ≠ ip.seg) :
    handTo (createAllLinks isls) node ip = handTo groundLinks node ip := by
  have hconnected : connected (createAllLinks isls) node ip.seg = connected groundLinks node ip.seg :=
    find?_skip fun i hi => by simpa using apart i hi
  rw [handTo, handTo, hconnected]
  cases hout : connected groundLinks node ip.seg with
  | none => rfl
  | some out =>
    have hground := switch_ground (List.mem_of_find?_eq_some hout)
    have hanswers : answers (createAllLinks isls) out.switch ip = answers groundLinks out.switch ip := by
      refine find?_skip fun i hi => ?_
      obtain ⟨isl, -, -, hswitch, -⟩ := mem_islLinks.mp hi
      have hne : i.switch ≠ out.switch := by
        intro h
        rw [← h, hswitch] at hground
        rcases hground with h | h
        · exact (nameA_ne_ground isl.1).1 h
        · exact (nameA_ne_ground isl.1).2.1 h
      simp [hne]
    rw [Option.bind_some, Option.bind_some, hanswers]

/-- The topology is a simple path of satellites, and all its links occur in `isls`. -/
structure OnLinks (isls : List (Int × Int)) (topo : List Int) : Prop where
  nonempty : topo ≠ []
  simple : topo.Nodup
  satellites : ∀ num ∈ topo, num ≠ 0 ∧ num ≠ -1
  up : ∀ first ∈ topo.head?, (0, first) ∈ isls
  across : topo.IsChain fun a b => (a, b) ∈ isls ∨ (b, a) ∈ isls
  down : ∀ last ∈ topo.getLast?, (last, -1) ∈ isls

/-- No node of the path is at an end of the link whose segment is that of gs2 and h2. -/
def Avoids (isls : List (Int × Int)) (topo : List Int) : Prop :=
  ∀ isl ∈ isls[98]?, nameA isl.1 ∉ pathNodes topo ∧ nameB isl.2 ∉ pathNodes topo

instance (isls : List (Int × Int)) (topo : List Int) : Decidable (Avoids isls topo) :=
  inferInstanceAs (Decidable (∀ isl ∈ isls[98]?, nameA isl.1 ∉ pathNodes topo ∧
    nameB isl.2 ∉ pathNodes topo))

/-- The segment's left end is on `a`, its right end on `b`. -/
inductive Joins (isls : List (Int × Int)) : Seg → Node → Node → Prop
  | first : Joins isls ⟨1, 1⟩ .h1 .gs1
  | along {k : Nat} {isl : Int × Int} (hk : isls[k]? = some isl) :
    Joins isls ⟨k + 2, 1⟩ (nameA isl.1) (nameB isl.2)
  | against {k : Nat} {isl : Int × Int} (hk : isls[k]? = some isl) :
    Joins isls ⟨k + 2, 2⟩ (nameB isl.2) (nameA isl.1)
  | last : Joins isls ⟨100, 1⟩ .gs2 .h2

/-- Each segment joins the two nodes around it. -/
def Joined (isls : List (Int × Int)) : List Node → List Seg → Prop
  | [_], [] => True
  | a :: b :: nodes, seg :: segs => Joins isls seg a b ∧ Joined isls (b :: nodes) segs
  | _, _ => False

lemma joined_length {nodes : List Node} {segs : List Seg} (h : Joined isls nodes segs) :
    nodes.length = segs.length + 1 := by
  induction segs generalizing nodes with
  | nil =>
    match nodes, h with
    | [_], _ => rfl
  | cons seg segs ih =>
    match nodes, h with
    | _ :: _ :: _, h => simpa using ih h.2

lemma joined_getElem {nodes : List Node} {segs : List Seg} (h : Joined isls nodes segs) {i : Nat}
    (hi : i < segs.length) : Joins isls segs[i]! nodes[i]! nodes[i + 1]! := by
  induction segs generalizing nodes i with
  | nil => exact absurd hi (Nat.not_lt_zero i)
  | cons seg segs ih =>
    match nodes, h with
    | a :: b :: nodes, h =>
      cases i with
      | zero => exact h.1
      | succ i => simpa using ih h.2 (Nat.lt_of_succ_lt_succ hi)

lemma index_mem {isl : Int × Int} (h : isl ∈ isls) :
    ∃ k, index isls isl = some k ∧ isls[k]? = some isl := by
  obtain ⟨k, hk⟩ := Option.isSome_iff_exists.mp (List.isSome_idxOf?.mpr h)
  obtain ⟨hlt, heq, -⟩ := List.idxOf?_eq_some_iff.mp hk
  exact ⟨k, hk, by rw [List.getElem?_eq_getElem hlt, heq]⟩

lemma crossSegs_joined {a : Int} {rest : List Int} (sats : ∀ num ∈ a :: rest, num ≠ 0 ∧ num ≠ -1)
    (across : (a :: rest).IsChain fun a b => (a, b) ∈ isls ∨ (b, a) ∈ isls) :
    ∃ segs, crossSegs isls (a :: rest) = some segs ∧ ∀ last ∈ (a :: rest).getLast?,
      ∀ nodes more, Joined isls (.m last :: nodes) more →
        Joined isls ((a :: rest).map .m ++ nodes) (segs ++ more) := by
  induction rest generalizing a with
  | nil =>
    refine ⟨[], rfl, ?_⟩
    rintro last hlast nodes more joined
    obtain rfl : a = last := by simpa using hlast
    exact joined
  | cons b rest ih =>
    obtain ⟨hab, hrest⟩ := List.isChain_cons_cons.mp across
    obtain ⟨ha, hsats⟩ := List.forall_mem_cons.mp sats
    obtain ⟨hb, -⟩ := List.forall_mem_cons.mp hsats
    obtain ⟨segs, hsegs, hjoined⟩ := ih hsats hrest
    have hA : ∀ num : Int, num ≠ 0 → nameA num = .m num := fun num h => if_neg h
    have hB : ∀ num : Int, num ≠ -1 → nameB num = .m num := fun num h => if_neg h
    have hseg : ∃ seg, crossSegs isls (a :: b :: rest) = some (seg :: segs) ∧
        Joins isls seg (.m a) (.m b) := by
      by_cases hforward : (a, b) ∈ isls
      · obtain ⟨k, hk, hget⟩ := index_mem hforward
        refine ⟨⟨k + 2, 1⟩, by simp [crossSegs, hforward, hk, hsegs], ?_⟩
        rw [← hA a ha.1, ← hB b hb.2]
        exact .along hget
      · obtain ⟨k, hk, hget⟩ := index_mem (hab.resolve_left hforward)
        refine ⟨⟨k + 2, 2⟩, by simp [crossSegs, hforward, hk, hsegs], ?_⟩
        rw [← hA b hb.1, ← hB a ha.2]
        exact .against hget
    obtain ⟨seg, hcross, hjoins⟩ := hseg
    refine ⟨seg :: segs, hcross, fun last hlast nodes more joined => ?_⟩
    exact ⟨hjoins, hjoined last (by simpa using hlast) nodes more joined⟩

/-- The segments computed for the path are those of its links, in order. -/
theorem pathSegs_joined (h : OnLinks isls topo) :
    ∃ segs, pathSegs isls topo = some segs ∧ Joined isls (pathNodes topo) segs := by
  obtain ⟨a, rest, rfl⟩ := List.exists_cons_of_ne_nil h.nonempty
  obtain ⟨up, hup, hupGet⟩ := index_mem (h.up a rfl)
  obtain ⟨last, hlast⟩ := Option.isSome_iff_exists.mp
    (List.getLast?_isSome.mpr (List.cons_ne_nil a rest))
  obtain ⟨down, hdown, hdownGet⟩ := index_mem (h.down last hlast)
  obtain ⟨segs, hsegs, hjoined⟩ := crossSegs_joined h.satellites h.across
  have ha := h.satellites a List.mem_cons_self
  have hl := h.satellites last (List.mem_of_getLast? hlast)
  refine ⟨⟨1, 1⟩ :: ⟨up + 2, 1⟩ :: (segs ++ [⟨down + 2, 1⟩, ⟨100, 1⟩]), ?_, ?_⟩
  · simp [pathSegs, hup, hsegs, hlast, hdown]
  · have hfirst : Joins isls ⟨up + 2, 1⟩ .gs1 (.m a) := by
      simpa [nameA, nameB, ha.2] using Joins.along hupGet
    have hend : Joins isls ⟨down + 2, 1⟩ (.m last) .gs2 := by
      simpa [nameA, nameB, hl.1] using Joins.along hdownGet
    exact ⟨.first, hfirst, hjoined last hlast _ _ ⟨hend, .last, trivial⟩⟩

lemma mem_routeLines {nodes : List Node} {segs : List Seg} {node : Node} {route : Route} :
    (node, route) ∈ routeLines nodes segs ↔
      (∃ i, i + 1 < nodes.length ∧ nodes[i]! = node ∧ route = ⟨none, segs[i]!.rightEnd⟩) ∨
      (nodes[nodes.length - 1]! = node ∧ route = ⟨none, segs[segs.length - 1]!.leftEnd⟩) ∨
      ∃ i j, 2 ≤ i ∧ i + 1 < nodes.length ∧ j + 1 < i ∧ nodes[i]! = node ∧
        route = ⟨some segs[j]!.seg, segs[i - 1]!.leftEnd⟩ := by
  simp only [routeLines, List.mem_append, List.mem_map, List.mem_range, List.mem_singleton,
    List.mem_flatMap, List.mem_range'_1, Prod.mk.injEq, or_assoc]
  refine or_congr ?_ (or_congr ?_ ?_)
  · constructor
    · rintro ⟨i, hi, rfl, rfl⟩
      exact ⟨i, by omega, rfl, rfl⟩
    · rintro ⟨i, hi, rfl, rfl⟩
      exact ⟨i, by omega, rfl, rfl⟩
  · exact and_congr eq_comm Iff.rfl
  · constructor
    · rintro ⟨i, hi, j, hj, rfl, rfl⟩
      exact ⟨i, j, by omega, by omega, by omega, rfl, rfl⟩
    · rintro ⟨i, j, hi, hlt, hj, rfl, rfl⟩
      exact ⟨i, by omega, j, by omega, rfl, rfl⟩

lemma joins_valid (addressable : Addressable isls) {seg : Seg} {a b : Node}
    (h : Joins isls seg a b) : seg.leftEnd.Valid ∧ seg.rightEnd.Valid := by
  have inside : ∀ (k : Nat) isl, isls[k]? = some isl → k + 2 ≤ 255 := by
    intro k isl hk
    have := (List.getElem?_eq_some_iff.mp hk).1
    unfold Addressable at addressable
    omega
  cases h with
  | first => simp [Addr.Valid, Seg.leftEnd, Seg.rightEnd]
  | along hk => simp [Addr.Valid, Seg.leftEnd, Seg.rightEnd, inside _ _ hk]
  | against hk => simp [Addr.Valid, Seg.leftEnd, Seg.rightEnd, inside _ _ hk]
  | last => simp [Addr.Valid, Seg.leftEnd, Seg.rightEnd]

lemma joined_valid (addressable : Addressable isls) {nodes : List Node} {segs : List Seg}
    (joined : Joined isls nodes segs) (i : Nat) :
    segs[i]!.leftEnd.Valid ∧ segs[i]!.rightEnd.Valid := by
  by_cases hi : i < segs.length
  · exact joins_valid addressable (joined_getElem joined hi)
  · rw [getElem!_neg segs i hi]
    decide

/-- With at most 254 links no command for a topology on them is refused. -/
theorem accepted_of_onLinks (addressable : Addressable isls) (on : OnLinks isls topo) :
    Accepted isls topo := by
  constructor
  · intro i hi
    rcases List.mem_append.mp hi with hi | hi
    · obtain ⟨isl, k, hk, -, hend⟩ := mem_islLinks.mp hi
      have valid := joins_valid addressable (.along hk)
      rcases hend with ⟨-, hip⟩ | ⟨-, hip⟩
      · exact hip ▸ valid.1
      · exact hip ▸ valid.2
    · have ground : ∀ i ∈ groundLinks, i.ip.Valid := by decide
      exact ground i hi
  · intro segs hsegs line hline
    obtain ⟨segs', hsegs', joined⟩ := pathSegs_joined on
    obtain rfl : segs' = segs := Option.some.inj (hsegs'.symm.trans hsegs)
    have valid := joined_valid addressable joined
    rcases mem_routeLines.mp hline with ⟨i, -, -, hroute⟩ | ⟨-, hroute⟩ | ⟨i, j, -, -, -, -, hroute⟩
    · exact hroute ▸ ⟨nofun, (valid i).2⟩
    · exact hroute ▸ ⟨nofun, (valid _).1⟩
    · refine hroute ▸ ⟨fun seg hseg => ?_, (valid (i - 1)).1⟩
      obtain rfl : segs'[j]!.seg = seg := Option.some.inj hseg
      exact (valid j).1.1

lemma gateway_net {table : List Route} {dst gw : Addr} {route : Route} (hroute : route ∈ table)
    (hnet : route.net = some dst.seg)
    (all : ∀ r ∈ table, r.net = some dst.seg → r.gw = gw) : gateway table dst = some gw := by
  obtain ⟨r, hr, hgw⟩ := find?_of_all (p := fun r => r.net = some dst.seg) (Q := fun r => r.gw = gw)
    hroute (by simpa using hnet) fun r hr h => all r hr (by simpa using h)
  rw [gateway, hr, Option.some_or, Option.map_some, hgw]

lemma gateway_default {table : List Route} {dst gw : Addr} {route : Route} (hroute : route ∈ table)
    (hnet : route.net = none) (other : ∀ r ∈ table, r.net ≠ some dst.seg)
    (all : ∀ r ∈ table, r.net = none → r.gw = gw) : gateway table dst = some gw := by
  obtain ⟨r, hr, hgw⟩ := find?_of_all (p := fun r => r.net = none) (Q := fun r => r.gw = gw)
    hroute (by simpa using hnet) fun r hr h => all r hr (by simpa using h)
  rw [gateway, List.find?_eq_none.mpr fun r hr => by simpa using other r hr, Option.none_or, hr,
    Option.map_some, hgw]

/-- The routes of the topology on `nodes`, all on blank tables. -/
def routesOn (nodes : List Node) (segs : List Seg) : Tables :=
  (routeLines nodes segs).foldl routeAdd noRoutes

lemma mem_routesOn {nodes : List Node} {segs : List Seg} {node : Node} {route : Route} :
    route ∈ routesOn nodes segs node ↔ (node, route) ∈ routeLines nodes segs := by
  rw [routesOn, foldl_routeAdd, noRoutes, List.nil_append, mem_linesOf]

section Gateways

variable {nodes : List Node} {segs : List Seg} {i : Nat} {dst : Addr}

/-- All that the table of the node in place `i` holds: a default route, ahead or from the end back,
and on the nodes between gs1 and the end the nets of the links before the last one behind. -/
lemma mem_table (simple : nodes.Nodup) (hi : i < nodes.length) {route : Route} :
    route ∈ routesOn nodes segs nodes[i]! ↔
      (i + 1 < nodes.length ∧ route = ⟨none, segs[i]!.rightEnd⟩) ∨
      (i + 1 = nodes.length ∧ route = ⟨none, segs[segs.length - 1]!.leftEnd⟩) ∨
      ∃ j, j + 1 < i ∧ i + 1 < nodes.length ∧
        route = ⟨some segs[j]!.seg, segs[i - 1]!.leftEnd⟩ := by
  rw [mem_routesOn, mem_routeLines]
  refine or_congr ?_ (or_congr ?_ ?_)
  · constructor
    · rintro ⟨j, hj, hnode, rfl⟩
      obtain rfl := (List.getElem!_inj (by omega) hi simple).mp hnode
      exact ⟨hj, rfl⟩
    · exact fun ⟨hlt, hroute⟩ => ⟨i, hlt, rfl, hroute⟩
  · constructor
    · rintro ⟨hnode, rfl⟩
      have hplace := (List.getElem!_inj (by omega) hi simple).mp hnode
      exact ⟨by omega, rfl⟩
    · rintro ⟨hend, rfl⟩
      exact ⟨by rw [← hend, Nat.add_sub_cancel], rfl⟩
  · constructor
    · rintro ⟨k, j, -, hlt, hj, hnode, rfl⟩
      obtain rfl := (List.getElem!_inj (by omega) hi simple).mp hnode
      exact ⟨j, hj, hlt, rfl⟩
    · rintro ⟨j, hj, hlt, rfl⟩
      exact ⟨i, j, by omega, hlt, hj, rfl, rfl⟩

/-- Ahead lies the right end of the next link, unless an earlier link is in the segment. -/
lemma gateway_ahead (simple : nodes.Nodup) (hi : i + 1 < nodes.length)
    (later : ∀ j, j + 1 < i → segs[j]!.seg ≠ dst.seg) :
    gateway (routesOn nodes segs nodes[i]!) dst = some segs[i]!.rightEnd := by
  have hplace : i < nodes.length := by omega
  refine gateway_default ((mem_table simple hplace).mpr (.inl ⟨hi, rfl⟩)) rfl ?_ ?_
  · intro route hroute
    rcases (mem_table simple hplace).mp hroute with ⟨-, rfl⟩ | ⟨-, rfl⟩ | ⟨j, hj, -, rfl⟩
    · nofun
    · nofun
    · simpa using later j hj
  · intro route hroute hnet
    rcases (mem_table simple hplace).mp hroute with ⟨-, rfl⟩ | ⟨hend, -⟩ | ⟨j, -, -, rfl⟩
    · rfl
    · omega
    · cases hnet

/-- Behind, on the way to the first link, lies the left end of the link before. -/
lemma gateway_behind (simple : nodes.Nodup) (hi : 2 ≤ i) (hlt : i + 1 < nodes.length)
    (hfirst : segs[0]!.seg = dst.seg) :
    gateway (routesOn nodes segs nodes[i]!) dst = some segs[i - 1]!.leftEnd := by
  have hplace : i < nodes.length := by omega
  refine gateway_net ((mem_table simple hplace).mpr (.inr (.inr ⟨0, hi, hlt, rfl⟩)))
    (congrArg some hfirst) ?_
  intro route hroute hnet
  rcases (mem_table simple hplace).mp hroute with ⟨-, rfl⟩ | ⟨-, rfl⟩ | ⟨j, -, -, rfl⟩
  · cases hnet
  · cases hnet
  · rfl

/-- The last node has its default route only. -/
lemma gateway_end (simple : nodes.Nodup) (hi : i + 1 = nodes.length) :
    gateway (routesOn nodes segs nodes[i]!) dst = some segs[segs.length - 1]!.leftEnd := by
  have hplace : i < nodes.length := by omega
  refine gateway_default ((mem_table simple hplace).mpr (.inr (.inl ⟨hi, rfl⟩))) rfl ?_ ?_
  · intro route hroute
    rcases (mem_table simple hplace).mp hroute with ⟨-, rfl⟩ | ⟨-, rfl⟩ | ⟨j, -, hlt, -⟩
    · nofun
    · nofun
    · omega
  · intro route hroute hnet
    rcases (mem_table simple hplace).mp hroute with ⟨hlt, -⟩ | ⟨-, rfl⟩ | ⟨j, -, -, rfl⟩
    · omega
    · rfl
    · cases hnet

end Gateways

section Hops

variable {intfs : List Intf} {tables : Tables} {dst gw : Addr} {node : Node} {i : Intf}

lemma forward_deliver (hi : i ∈ intfs) (hnode : i.node = node) (hip : i.ip = dst) :
    forward intfs tables dst node = .deliver :=
  if_pos (List.mem_map.mpr ⟨i, hi, by rw [hnode, hip]⟩)

lemma forward_link (other : ∀ i ∈ intfs, i.node = node → i.ip ≠ dst) (hi : i ∈ intfs)
    (hnode : i.node = node) (hseg : i.ip.seg = dst.seg) :
    forward intfs tables dst node = handTo intfs node dst := by
  have hlocal : (node, dst) ∉ intfs.map fun i => (i.node, i.ip) := by
    simpa using other
  have hlinked : (connected intfs node dst.seg).isSome := by
    simpa [connected] using ⟨i, hi, hnode, hseg⟩
  rw [forward, if_neg hlocal, if_pos hlinked]

lemma forward_gateway (apart : ∀ i ∈ intfs, i.node = node → i.ip.seg ≠ dst.seg)
    (hgw : gateway (tables node) dst = some gw) :
    forward intfs tables dst node = handTo intfs node gw := by
  have hlocal : (node, dst) ∉ intfs.map fun i => (i.node, i.ip) := by
    simpa using fun i hi hnode hip => apart i hi hnode (congrArg Addr.seg hip)
  have hunlinked : ¬ (connected intfs node dst.seg).isSome := by
    simpa [connected] using apart
  simp only [forward, if_neg hlocal, if_neg hunlinked, hgw]

end Hops

/-- No numbered interface is in segment 1, and on a path that avoids link 98 none is in
segment 100. -/
lemma islLinks_seg {i : Intf} (hi : i ∈ islLinks isls) :
    i.ip.seg ≠ 1 ∧ ∀ topo, Avoids isls topo → i.node ∈ pathNodes topo → i.ip.seg ≠ 100 := by
  obtain ⟨isl, k, hk, -, hend⟩ := mem_islLinks.mp hi
  have hseg : i.ip.seg = k + 2 := by
    rcases hend with ⟨-, hip⟩ | ⟨-, hip⟩ <;> rw [hip]
  refine ⟨by omega, fun topo avoids hpath h => ?_⟩
  obtain rfl : k = 98 := by omega
  obtain ⟨hA, hB⟩ := avoids isl hk
  rcases hend with ⟨hnode, -⟩ | ⟨hnode, -⟩
  · exact hA (hnode ▸ hpath)
  · exact hB (hnode ▸ hpath)

lemma node_ground {i : Intf} (hi : i ∈ groundLinks) :
    (i.ip.seg = 1 → i.node = .h1 ∨ i.node = .gs1) ∧ (i.ip.seg = 100 → i.node = .gs2 ∨ i.node = .h2) ∧
      (i.ip = ⟨1, 1⟩ → i.node = .h1) ∧ (i.ip = ⟨100, 2⟩ → i.node = .h2) := by
  simp only [groundLinks, List.mem_cons, List.not_mem_nil, or_false] at hi
  rcases hi with rfl | rfl | rfl | rfl <;> simp

lemma node_one {i : Intf} (hi : i ∈ createAllLinks isls) (hseg : i.ip.seg = 1) :
    (i.node = .h1 ∨ i.node = .gs1) ∧ (i.ip = ⟨1, 1⟩ → i.node = .h1) := by
  rcases List.mem_append.mp hi with hi | hi
  · exact absurd hseg (islLinks_seg hi).1
  · exact ⟨(node_ground hi).1 hseg, (node_ground hi).2.2.1⟩

lemma node_hundred (avoids : Avoids isls topo) {i : Intf} (hi : i ∈ createAllLinks isls)
    (hpath : i.node ∈ pathNodes topo) (hseg : i.ip.seg = 100) :
    (i.node = .gs2 ∨ i.node = .h2) ∧ (i.ip = ⟨100, 2⟩ → i.node = .h2) := by
  rcases List.mem_append.mp hi with hi | hi
  · exact absurd hseg ((islLinks_seg hi).2 topo avoids hpath)
  · exact ⟨(node_ground hi).2.1 hseg, (node_ground hi).2.2.2⟩

lemma islLinks_node {i : Intf} (hi : i ∈ islLinks isls) : i.node ≠ .h1 ∧ i.node ≠ .h2 := by
  obtain ⟨isl, -, -, -, ⟨hnode, -⟩ | ⟨hnode, -⟩⟩ := mem_islLinks.mp hi
  · rw [hnode]
    exact ⟨(nameA_ne_ground isl.1).1, (nameA_ne_ground isl.1).2.2⟩
  · rw [hnode]
    exact ⟨(nameB_ne_ground isl.2).1, (nameB_ne_ground isl.2).2.2⟩

/-- From the right end of a segment its left end is reached. -/
lemma joins_left {seg : Seg} {a b : Node} (h : Joins isls seg a b) :
    handTo (createAllLinks isls) b seg.leftEnd = .next a := by
  cases h with
  | first =>
    exact (handTo_ground fun i hi _ => (islLinks_seg hi).1).trans (by decide)
  | along hk => exact (handTo_isl hk (.inr rfl)).1
  | against hk => exact (handTo_isl hk (.inl rfl)).2
  | last =>
    exact (handTo_ground fun i hi hnode => absurd hnode (islLinks_node hi).2).trans (by decide)

/-- From the left end its right end is, if link 98 is none of the left end's. -/
lemma joins_right (avoids : Avoids isls topo) {seg : Seg} {a b : Node} (h : Joins isls seg a b) :
    handTo (createAllLinks isls) a seg.rightEnd = .next b := by
  cases h with
  | first =>
    exact (handTo_ground fun i hi hnode => absurd hnode (islLinks_node hi).1).trans (by decide)
  | along hk => exact (handTo_isl hk (.inl rfl)).2
  | against hk => exact (handTo_isl hk (.inr rfl)).1
  | last =>
    have hpath : Node.gs2 ∈ pathNodes topo := by simp [pathNodes]
    exact (handTo_ground fun i hi hnode => (islLinks_seg hi).2 topo avoids (hnode ▸ hpath)).trans
      (by decide)

@[simp] lemma length_pathNodes (topo : List Int) : (pathNodes topo).length = topo.length + 4 := by
  simp [pathNodes]

lemma pathNodes_gs2 (topo : List Int) : (pathNodes topo)[topo.length + 2]! = .gs2 := by
  simp [pathNodes]

lemma pathNodes_h2 (topo : List Int) : (pathNodes topo)[topo.length + 3]! = .h2 := by
  simp [pathNodes]

lemma pathNodes_getLast? (topo : List Int) : (pathNodes topo).getLast? = some .h2 := by
  have hsplit : pathNodes topo = (.h1 :: .gs1 :: (topo.map .m ++ [.gs2])) ++ [.h2] := by
    simp [pathNodes]
  rw [hsplit, List.getLast?_concat]

lemma pathNodes_nodup (simple : topo.Nodup) : (pathNodes topo).Nodup := by
  have hmap : (topo.map Node.m).Nodup := List.Nodup.map (fun _ _ h => Node.m.inj h) simple
  simp [pathNodes, List.nodup_append, hmap]

lemma pathNodes_mem {i : Nat} (hi : i < (pathNodes topo).length) :
    (pathNodes topo)[i]! ∈ pathNodes topo := by
  rw [getElem!_pos _ i hi]
  exact List.getElem_mem hi

/-- The path begins with the link of h1 and gs1. -/
lemma first_seg {segs : List Seg} (joined : Joined isls (pathNodes topo) segs) :
    segs[0]!.seg = 1 := by
  have hlen := joined_length joined
  rw [length_pathNodes] at hlen
  have hjoins := joined_getElem joined (i := 0) (by omega)
  generalize hs : segs[0]! = seg at hjoins
  generalize ha : (pathNodes topo)[0]! = a at hjoins
  generalize (pathNodes topo)[0 + 1]! = b at hjoins
  obtain rfl : .h1 = a := ha
  generalize hh1 : Node.h1 = a at hjoins
  cases hjoins with
  | first => rfl
  | along hk => exact absurd hh1.symm (nameA_ne_ground _).1
  | against hk => exact absurd hh1.symm (nameB_ne_ground _).1
  | last => cases hh1

section Along

variable {segs : List Seg} (simple : topo.Nodup) (joined : Joined isls (pathNodes topo) segs)

include simple in
/-- A place on the path is known by its node. -/
lemma place_eq {i j : Nat} {node : Node} (hi : i < topo.length + 4) (hj : j < topo.length + 4)
    (hnode : (pathNodes topo)[i]! = node) (hplace : (pathNodes topo)[j]! = node) : i = j :=
  (List.getElem!_inj (by simpa using hi) (by simpa using hj) (pathNodes_nodup simple)).mp
    (hnode.trans hplace.symm)

include simple joined

/-- Only the last link of the path has segment 100. -/
lemma seg_ne_hundred (avoids : Avoids isls topo) {j : Nat} (hj : j < topo.length + 2) :
    segs[j]!.seg ≠ 100 := by
  have hlen := joined_length joined
  rw [length_pathNodes] at hlen
  have hjoins := joined_getElem joined (i := j) (by omega)
  have hpath : (pathNodes topo)[j]! ∈ pathNodes topo := pathNodes_mem (by simp; omega)
  intro hseg
  generalize hs : segs[j]! = seg at hjoins hseg
  generalize ha : (pathNodes topo)[j]! = a at hjoins hpath
  generalize (pathNodes topo)[j + 1]! = b at hjoins
  cases hjoins with
  | first => cases hseg
  | @along k isl hk =>
    obtain rfl : k = 98 := by simpa using hseg
    exact (avoids isl hk).1 hpath
  | @against k isl hk =>
    obtain rfl : k = 98 := by simpa using hseg
    exact (avoids isl hk).2 hpath
  | last =>
    have := place_eq simple (by omega) (by omega) ha (pathNodes_gs2 topo)
    omega

/-- Toward h2 every node hands the packet to the next one. -/
theorem forward_ahead (avoids : Avoids isls topo) {i : Nat} (hi : i + 1 < topo.length + 4) :
    forward (createAllLinks isls) (routesOn (pathNodes topo) segs) ⟨100, 2⟩ (pathNodes topo)[i]! =
      .next (pathNodes topo)[i + 1]! := by
  have hlen := joined_length joined
  rw [length_pathNodes] at hlen
  have hjoins := joined_getElem joined (i := i) (by omega)
  have hpath : (pathNodes topo)[i]! ∈ pathNodes topo := pathNodes_mem (by simp; omega)
  by_cases hground : i = topo.length + 2
  · -- gs2 has h2 on its own link
    subst hground
    rw [pathNodes_gs2] at hpath
    rw [pathNodes_gs2, pathNodes_h2]
    have other : ∀ x ∈ createAllLinks isls, x.node = .gs2 → x.ip ≠ ⟨100, 2⟩ := by
      intro x hx hnode hip
      have hh2 := (node_hundred avoids hx (hnode ▸ hpath) (congrArg Addr.seg hip)).2 hip
      cases hnode.symm.trans hh2
    have hown : ⟨.gs2, (.gs2, .h2), ⟨100, 1⟩⟩ ∈ createAllLinks isls :=
      List.mem_append_right _ (by simp [groundLinks])
    exact (forward_link other hown rfl rfl).trans (joins_right avoids .last)
  · have apart : ∀ x ∈ createAllLinks isls, x.node = (pathNodes topo)[i]! → x.ip.seg ≠ 100 := by
      intro x hx hnode hseg
      rcases (node_hundred avoids hx (hnode ▸ hpath) hseg).1 with h | h
      · have := place_eq simple (by omega) (by omega) (hnode.symm.trans h) (pathNodes_gs2 topo)
        omega
      · have := place_eq simple (by omega) (by omega) (hnode.symm.trans h) (pathNodes_h2 topo)
        omega
    have hgateway : gateway (routesOn (pathNodes topo) segs (pathNodes topo)[i]!) ⟨100, 2⟩ =
        some segs[i]!.rightEnd := by
      refine gateway_ahead (pathNodes_nodup simple) (by simpa using hi) fun j hj => ?_
      exact seg_ne_hundred simple joined avoids (by omega)
    rw [forward_gateway apart hgateway]
    exact joins_right avoids hjoins

/-- Toward h1 every node hands the packet to the one before. -/
theorem forward_behind {i : Nat} (hi : i + 1 < topo.length + 4) :
    forward (createAllLinks isls) (routesOn (pathNodes topo) segs) ⟨1, 1⟩ (pathNodes topo)[i + 1]! =
      .next (pathNodes topo)[i]! := by
  have hlen := joined_length joined
  rw [length_pathNodes] at hlen
  by_cases hground : i = 0
  · -- gs1 has h1 on its own link
    subst hground
    have other : ∀ x ∈ createAllLinks isls, x.node = .gs1 → x.ip ≠ ⟨1, 1⟩ := by
      intro x hx hnode hip
      cases hnode.symm.trans ((node_one hx (congrArg Addr.seg hip)).2 hip)
    have hown : ⟨.gs1, (.h1, .gs1), ⟨1, 2⟩⟩ ∈ createAllLinks isls :=
      List.mem_append_right _ (by simp [groundLinks])
    exact (forward_link other hown rfl rfl).trans (joins_left .first)
  · have apart : ∀ x ∈ createAllLinks isls, x.node = (pathNodes topo)[i + 1]! → x.ip.seg ≠ 1 := by
      intro x hx hnode hseg
      rcases (node_one hx hseg).1 with h | h
      · have := place_eq (j := 0) simple (by omega) (by omega) (hnode.symm.trans h) rfl
        omega
      · have := place_eq (j := 1) simple (by omega) (by omega) (hnode.symm.trans h) rfl
        omega
    have hgateway : gateway (routesOn (pathNodes topo) segs (pathNodes topo)[i + 1]!) ⟨1, 1⟩ =
        some segs[i]!.leftEnd := by
      by_cases hend : i + 2 = topo.length + 4
      · have hlast : segs.length - 1 = i := by omega
        rw [gateway_end (pathNodes_nodup simple) (by simpa using hend), hlast]
      · exact gateway_behind (pathNodes_nodup simple) (by omega) (by simp; omega) (first_seg joined)
    rw [forward_gateway apart hgateway]
    exact joins_left (joined_getElem joined (by omega))

/-- A packet from h1 keeps to the path. -/
theorem visits_h2 (avoids : Avoids isls topo) :
    Visits (forward (createAllLinks isls) (routesOn (pathNodes topo) segs) ⟨100, 2⟩)
      (pathNodes topo) := by
  refine visits_of_isChain (List.isChain_iff_getElem.mpr fun i hi => ?_)
    (pathNodes_getLast? topo) ?_
  · have hhop := forward_ahead simple joined avoids (i := i) (by simpa using hi)
    rwa [getElem!_pos _ i (by omega), getElem!_pos _ (i + 1) hi] at hhop
  · have hown : ⟨.h2, (.gs2, .h2), ⟨100, 2⟩⟩ ∈ createAllLinks isls :=
      List.mem_append_right _ (by simp [groundLinks])
    exact forward_deliver hown rfl rfl

/-- A packet from h2 takes it the other way, wherever the path lies. -/
theorem visits_h1 :
    Visits (forward (createAllLinks isls) (routesOn (pathNodes topo) segs) ⟨1, 1⟩)
      (pathNodes topo).reverse := by
  refine visits_reverse_of_isChain (List.isChain_iff_getElem.mpr fun i hi => ?_)
    (z := .h1) rfl ?_
  · have hhop := forward_behind simple joined (i := i) (by simpa using hi)
    rwa [getElem!_pos _ i (by omega), getElem!_pos _ (i + 1) hi] at hhop
  · exact forward_deliver (List.mem_append_right _ (List.mem_cons_self)) rfl rfl

end Along

/-- With any routes at all, a packet that keeps to a path meets no end of link 98 on it: such
an end has h2's address, or takes the other end for h2. -/
theorem avoids_of_visits {tables : Tables}
    (h : Visits (forward (createAllLinks isls) tables ⟨100, 2⟩) (pathNodes topo)) :
    Avoids isls topo := by
  intro isl hk
  -- a node of the path other than h2 has to hand the packet on
  have hkept : ∀ i ∈ createAllLinks isls, i.node ∈ pathNodes topo → i.node ≠ .h2 →
      i.ip ≠ ⟨100, 2⟩ := by
    intro i hi hmem hne hip
    have hdeliver := deliver_last h hmem (forward_deliver hi rfl hip)
    exact hne (Option.some.inj (hdeliver.symm.trans (pathNodes_getLast? topo)))
  have hright : ⟨nameB isl.2, (nameA isl.1, nameB isl.2), ⟨100, 2⟩⟩ ∈ createAllLinks isls :=
    List.mem_append_left _ (mem_islLinks.mpr ⟨isl, 98, hk, rfl, .inr ⟨rfl, rfl⟩⟩)
  have hleft : ⟨nameA isl.1, (nameA isl.1, nameB isl.2), ⟨100, 1⟩⟩ ∈ createAllLinks isls :=
    List.mem_append_left _ (mem_islLinks.mpr ⟨isl, 98, hk, rfl, .inl ⟨rfl, rfl⟩⟩)
  have hB : nameB isl.2 ∉ pathNodes topo := fun hmem =>
    hkept _ hright hmem (nameB_ne_ground isl.2).2.2 rfl
  refine ⟨fun hmem => hB (next_mem h hmem ?_), hB⟩
  have other : ∀ i ∈ createAllLinks isls, i.node = nameA isl.1 → i.ip ≠ ⟨100, 2⟩ := by
    intro i hi hnode
    exact hkept i hi (hnode ▸ hmem) (hnode ▸ (nameA_ne_ground isl.1).2.2)
  exact (forward_link other hleft rfl rfl).trans (handTo_isl hk (.inl rfl)).2

/-- The tables hold the routes of `topo` and no others. -/
structure Current (isls : List (Int × Int)) (topo : List Int) (net : Testbed) : Prop where
  previous : net.prevTopo = topo
  exactly : setRoute isls (some topo) noRoutes = some net.tables

/-- Moreover packets of both directions keep to the path of `topo`. -/
structure FollowsTrace (isls : List (Int × Int)) (topo : List Int) (net : Testbed) : Prop extends
    Current isls topo net where
  toH2 : Visits (forward (createAllLinks isls) net.tables ⟨100, 2⟩) (pathNodes topo)
  toH1 : Visits (forward (createAllLinks isls) net.tables ⟨1, 1⟩) (pathNodes topo).reverse

lemma setRoute_onLinks (h : OnLinks isls topo) :
    ∃ segs, Joined isls (pathNodes topo) segs ∧
      setRoute isls (some topo) noRoutes = some (routesOn (pathNodes topo) segs) := by
  obtain ⟨segs, hsegs, joined⟩ := pathSegs_joined h
  exact ⟨segs, joined, by simp [setRoute, hsegs, routesOn]⟩

/-- An update leaves the routes of the new topology alone. -/
lemma update_current {prev : List Int} {net : Testbed} (h : OnLinks isls topo)
    (current : Current isls prev net) :
    ∃ next, dynamicLinkUpdate isls topo net = some next ∧ Current isls topo next := by
  obtain ⟨segs, -, hset⟩ := setRoute_onLinks h
  by_cases hsame : topo = net.prevTopo
  · refine ⟨{ net with prevTopo := topo }, by simp [dynamicLinkUpdate, hsame], rfl, ?_⟩
    rw [hsame, current.previous]
    exact current.exactly
  · have hcleared := clearRoute_undoes current.exactly
    rw [← current.previous] at hcleared
    refine ⟨⟨routesOn (pathNodes topo) segs, topo⟩, ?_, rfl, hset⟩
    simp only [dynamicLinkUpdate, if_pos hsame, hcleared, Option.bind_eq_bind, Option.bind_some,
      hset]

theorem run_current {prev : List Int} {net : Testbed} {topos : List (List Int)}
    (later : ∀ topo ∈ topos, OnLinks isls topo) (current : Current isls prev net) :
    ∃ last, StepRuns.run (dynamicLinkUpdate isls) net topos = some last ∧
      Current isls (topos.getLastD prev) last := by
  induction topos generalizing prev net with
  | nil => exact ⟨net, rfl, current⟩
  | cons topo topos ih =>
    obtain ⟨htopo, hrest⟩ := List.forall_mem_cons.mp later
    obtain ⟨next, hnext, hcurrent⟩ := update_current htopo current
    obtain ⟨last, hlast, hfinal⟩ := ih hrest hcurrent
    refine ⟨last, ?_, by rwa [List.getLastD_cons]⟩
    rw [StepRuns.run, hnext, Option.bind_some, hlast]

/-- After any number of updates no route of an earlier topology remains. -/
theorem runUpdates_current {initial : List Int} {topos : List (List Int)}
    (first : OnLinks isls initial) (later : ∀ topo ∈ topos, OnLinks isls topo) :
    ∃ net, runUpdates isls initial topos = some net ∧
      Current isls (topos.getLastD initial) net := by
  obtain ⟨segs, -, hset⟩ := setRoute_onLinks first
  have start : Current isls initial ⟨routesOn (pathNodes initial) segs, initial⟩ := ⟨rfl, hset⟩
  obtain ⟨net, hnet, current⟩ := run_current later start
  exact ⟨net, by simp [runUpdates, createDynamicNet, hset, hnet], current⟩

/-- Routing follows the trace in both directions, exactly as long as the current path stays
away from both ends of the link whose segment h2 has. -/
theorem run_followsTrace_iff {initial : List Int} {topos : List (List Int)}
    (first : OnLinks isls initial) (later : ∀ topo ∈ topos, OnLinks isls topo) :
    (∃ net, runUpdates isls initial topos = some net ∧
      FollowsTrace isls (topos.getLastD initial) net) ↔ Avoids isls (topos.getLastD initial) := by
  have hlast : OnLinks isls (topos.getLastD initial) := by
    rcases List.eq_nil_or_concat topos with rfl | ⟨earlier, topo, rfl⟩
    · exact first
    · simpa using later topo (by simp)
  constructor
  · rintro ⟨net, -, follows⟩
    exact avoids_of_visits follows.toH2
  · intro avoids
    obtain ⟨net, hrun, current⟩ := runUpdates_current first later
    obtain ⟨segs, joined, hset⟩ := setRoute_onLinks hlast
    have htables : net.tables = routesOn (pathNodes (topos.getLastD initial)) segs :=
      Option.some.inj (current.exactly.symm.trans hset)
    refine ⟨net, hrun, current, ?_, ?_⟩
    · rw [htables]
      exact visits_h2 hlast.simple joined avoids
    · rw [htables]
      exact visits_h1 hlast.simple joined

/-- Two topologies in turn, with the link of satellites 3 and 4 entered the other way round. -/
theorem alternating_followsTrace :
    ∃ net, runUpdates [(0, 1), (1, 2), (2, -1), (0, 3), (4, 3), (4, -1)] [1, 2]
        [[1, 2], [3, 4], [1, 2], [3, 4]] = some net ∧
      FollowsTrace [(0, 1), (1, 2), (2, -1), (0, 3), (4, 3), (4, -1)] [3, 4] net := by
  have hlow : OnLinks [(0, 1), (1, 2), (2, -1), (0, 3), (4, 3), (4, -1)] [1, 2] := by
    constructor <;> decide
  have hhigh : OnLinks [(0, 1), (1, 2), (2, -1), (0, 3), (4, 3), (4, -1)] [3, 4] := by
    constructor <;> decide
  have later : ∀ topo ∈ [[1, 2], [3, 4], [1, 2], [3, 4]],
      OnLinks [(0, 1), (1, 2), (2, -1), (0, 3), (4, 3), (4, -1)] topo := by
    simp [hlow, hhigh]
  exact (run_followsTrace_iff hlow later).mpr (by decide)

/-- A trace whose 99th link is one of satellite 1, on none of its paths. -/
def crowded : List (Int × Int) :=
  [(0, 1), (1, -1)] ++ (List.range 96).map (fun k => ((k : Int) + 2, (k : Int) + 3)) ++ [(1, 99)]

/-- The packet for h2 goes from satellite 1 to satellite 99 and stays there. -/
theorem crowded_strays :
    crowded.Nodup ∧ (∀ isl ∈ crowded, isl.swap ∉ crowded) ∧ OnLinks crowded [1] ∧
      (∃ net, runUpdates crowded [1] [] = some net ∧
        Visits (forward (createAllLinks crowded) net.tables ⟨100, 2⟩) [.h1, .gs1, .m 1, .m 99]) ∧
      ¬ ∃ net, runUpdates crowded [1] [] = some net ∧ FollowsTrace crowded [1] net := by
  have hvisits : ∃ net, runUpdates crowded [1] [] = some net ∧
      Visits (forward (createAllLinks crowded) net.tables ⟨100, 2⟩) [.h1, .gs1, .m 1, .m 99] :=
    ⟨_, rfl, by decide +kernel⟩
  have hlinks : OnLinks crowded [1] := by constructor <;> decide
  refine ⟨by decide +kernel, by decide +kernel, hlinks, hvisits, ?_⟩
  rintro ⟨net, hnet, follows⟩
  obtain ⟨net', hnet', hpath⟩ := hvisits
  obtain rfl : net' = net := Option.some.inj (hnet'.symm.trans hnet)
  exact absurd (visits_unique hpath follows.toH2) (by decide)

end TraceRouting
