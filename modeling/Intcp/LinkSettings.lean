import Intcp.TracePlayback
import Mathlib.Tactic.Ring

/-!
# The links of a step

`DynamicLinkUpdate` also sets rate, delay and loss of the links on the path of each step: a
quarter of the round trip at either end in both directions, and the loss where packets for h1
leave a host. A packet is delayed by what the path of the forwarding state takes, at every
step of every round.
-/

namespace LinkSettings

open ContactIntervals HopWalks StepRuns TestbedRoutes TraceGeneration TraceHistory TracePlayback
open TraceRouting

/-- Where packets leave a host for a switch, or a switch for a host. -/
inductive Port where
  | ofHost (node : Node) (switch : Node × Node)
  | ofSwitch (switch : Node × Node) (node : Node)
  deriving DecidableEq

def Port.link : Port → Node × Node
  | .ofHost _ switch => switch
  | .ofSwitch switch _ => switch

/-- What `tc` was last asked for. -/
structure Setting where
  bw : Rat
  delay : Rat
  loss : Rat
  deriving DecidableEq

abbrev Settings := Port → Setting

/-- The defaults of `create_all_links`. -/
def initialSettings : Settings := fun _ => ⟨10, 10, 0⟩

/-- A number that is 0 counts as one that is not given. -/
def changeLinkConfig (settings : Settings) (intf : Port) (bw delay loss : Rat) : Settings :=
  let old := settings intf
  let delayed := if delay ≠ 0 ∨ loss ≠ 0 then { old with delay := delay, loss := loss } else old
  Function.update settings intf (if bw ≠ 0 then { delayed with bw := bw } else delayed)

/-- `connectionsTo(...)[0]`: the interface of the host, and that of the switch. -/
def connection (intfs : List Intf) (node : Node) (switch : Node × Node) : Option (Port × Port) :=
  if intfs.any fun i => i.node = node ∧ i.switch = switch then
    some (.ofHost node switch, .ofSwitch switch node)
  else none

-- The switch of a link between satellites has the name that the link has in `isls`.
def nameSwitch (isls : List (Int × Int)) (topo : List Int) (i : Nat) (nameA nameB : Node) :
    Option (Node × Node) :=
  if 1 < i ∧ i + 3 < (pathNodes topo).length then do
    let a ← topo[i - 2]?
    let b ← topo[i - 1]?
    some (if isls.contains (a, b) then (nameA, nameB) else (nameB, nameA))
  else some (nameA, nameB)

/-- What `splitLoss` gives is not used. -/
def setLink (isls : List (Int × Int)) (lp : LinksParam) (settings : Settings) (i : Nat) :
    Option Settings := do
  let nameA ← (pathNodes lp.topo)[i]?
  let nameB ← (pathNodes lp.topo)[i + 1]?
  let switch ← nameSwitch isls lp.topo i nameA nameB
  let loss ← lp.loss[i]?
  let (hostA, switchA) ← connection (createAllLinks isls) nameA switch
  let (hostB, switchB) ← connection (createAllLinks isls) nameB switch
  let bw ← lp.bw[i]?
  let rtt ← lp.rtt[i]?
  let settings := changeLinkConfig settings hostA bw (rtt / 4) 0
  let settings := changeLinkConfig settings switchA bw (rtt / 4) 0
  let settings := changeLinkConfig settings switchB bw (rtt / 4) 0
  some (changeLinkConfig settings hostB bw (rtt / 4) loss)

def setLinks (isls : List (Int × Int)) (lp : LinksParam) (settings : Settings) : Option Settings :=
  (List.range ((pathNodes lp.topo).length - 1)).foldlM (setLink isls lp) settings

structure LinkedTestbed extends Testbed where
  settings : Settings

/-- A pass of `DynamicLinkUpdate`. -/
def linkUpdate (isls : List (Int × Int)) (lp : LinksParam) (net : LinkedTestbed) :
    Option LinkedTestbed := do
  let settings ← setLinks isls lp net.settings
  let testbed ← dynamicLinkUpdate isls lp.topo net.toTestbed
  some ⟨testbed, settings⟩

/-- The testbed after some rounds of the update thread and the first steps of another. -/
def play (trace : Trace) (rounds steps : Nat) : Option LinkedTestbed := do
  let first ← trace.linksParams.head?
  let testbed ← createDynamicNet trace.isls first.topo
  run (linkUpdate trace.isls) ⟨testbed, initialSettings⟩
    ((List.replicate rounds trace.linksParams).flatten ++ trace.linksParams.take steps)

/-- The switch behind which `handTo` finds the next host, and that host. -/
def linkTo (intfs : List Intf) (node : Node) (ip : Addr) : Option ((Node × Node) × Node) :=
  (connected intfs node ip.seg).bind fun out =>
    (answers intfs out.switch ip).map fun i => (out.switch, i.node)

/-- The same for `forward`. -/
def outLink (intfs : List Intf) (tables : Tables) (dst : Addr) (node : Node) :
    Option ((Node × Node) × Node) :=
  if intfs.any fun i => i.node = node ∧ i.ip = dst then none
  else if (connected intfs node dst.seg).isSome then linkTo intfs node dst
  else (gateway (tables node) dst).bind (linkTo intfs node)

/-- Where a packet leaves a host and the switch behind it. -/
def portsOut (intfs : List Intf) (tables : Tables) (dst : Addr) (node : Node) : List Port :=
  match outLink intfs tables dst node with
  | some (switch, next) => [.ofHost node switch, .ofSwitch switch next]
  | none => []

/-- What is set where a packet passes that visits these hosts. -/
def passed (isls : List (Int × Int)) (net : LinkedTestbed) (dst : Addr) (nodes : List Node) :
    List Setting :=
  (nodes.flatMap (portsOut (createAllLinks isls) net.tables dst)).map net.settings

section Link

variable {isls : List (Int × Int)} {topo : List Int} {lp : LinksParam} {settings : Settings}
  {a b : Node} {switch : Node × Node}

/-- A switch of the testbed between these two hosts. -/
structure Between (isls : List (Int × Int)) (switch : Node × Node) (a b : Node) : Prop where
  ends : switch = (a, b) ∨ switch = (b, a)
  there : ∃ i ∈ createAllLinks isls, i.switch = switch

lemma switch_cases {i : Intf} (hi : i ∈ createAllLinks isls) :
    (i.node = i.switch.1 ∨ i.node = i.switch.2) ∧
      ((∃ isl ∈ isls, i.switch = (nameA isl.1, nameB isl.2)) ∨ i.switch = (.h1, .gs1) ∨
        i.switch = (.gs2, .h2)) := by
  rcases List.mem_append.mp hi with hi | hi
  · obtain ⟨isl, k, hk, hswitch, hend⟩ := mem_islLinks.mp hi
    rw [hswitch]
    exact ⟨hend.imp And.left And.left, Or.inl ⟨isl, List.mem_of_getElem? hk, rfl⟩⟩
  · simp only [groundLinks, List.mem_cons, List.not_mem_nil, or_false] at hi
    rcases hi with rfl | rfl | rfl | rfl <;> simp

/-- A switch has an interface of the host at either end. -/
lemma exists_intf {i : Intf} (hi : i ∈ createAllLinks isls) {node : Node}
    (hnode : node = i.switch.1 ∨ node = i.switch.2) :
    ∃ j ∈ createAllLinks isls, j.node = node ∧ j.switch = i.switch := by
  rcases List.mem_append.mp hi with hi | hi
  · obtain ⟨isl, k, hk, hswitch, -⟩ := mem_islLinks.mp hi
    rw [hswitch] at hnode ⊢
    rcases hnode with rfl | rfl
    · exact ⟨⟨nameA isl.1, _, ⟨k + 2, 1⟩⟩, List.mem_append_left _
        (mem_islLinks.mpr ⟨isl, k, hk, rfl, Or.inl ⟨rfl, rfl⟩⟩), rfl, rfl⟩
    · exact ⟨⟨nameB isl.2, _, ⟨k + 2, 2⟩⟩, List.mem_append_left _
        (mem_islLinks.mpr ⟨isl, k, hk, rfl, Or.inr ⟨rfl, rfl⟩⟩), rfl, rfl⟩
  · have ground : ∃ j ∈ groundLinks, j.node = node ∧ j.switch = i.switch := by
      simp only [groundLinks, List.mem_cons, List.not_mem_nil, or_false] at hi
      rcases hi with rfl | rfl | rfl | rfl <;> rcases hnode with rfl | rfl <;> decide
    obtain ⟨j, hj, hends⟩ := ground
    exact ⟨j, List.mem_append_right _ hj, hends⟩

lemma Between.connection (h : Between isls switch a b) {node : Node} (hnode : node = a ∨ node = b) :
    connection (createAllLinks isls) node switch =
      some (.ofHost node switch, .ofSwitch switch node) := by
  obtain ⟨i, hi, rfl⟩ := h.there
  have hends : node = i.switch.1 ∨ node = i.switch.2 := by
    rcases h.ends with hswitch | hswitch
    · rwa [hswitch]
    · rw [hswitch]
      exact hnode.symm
  obtain ⟨j, hj, hjnode, hjswitch⟩ := exists_intf hi hends
  exact if_pos (List.any_eq_true.mpr ⟨j, hj, by simp [hjnode, hjswitch]⟩)

lemma nameB_eq_nameA {x y : Int} (h : nameB x = nameA y) : x = y := by
  by_cases hx : x = -1
  · rw [nameB, if_pos hx] at h
    exact absurd h.symm (nameA_ne_ground y).2.1
  · by_cases hy : y = 0
    · rw [nameA, if_pos hy] at h
      exact absurd h (nameB_ne_ground x).2.1
    · rw [nameB, if_neg hx, nameA, if_neg hy] at h
      exact Node.m.inj h

/-- Two hosts have one switch between them. -/
lemma Between.unique (oneWay : ∀ isl ∈ isls, isl.swap ∉ isls) {switch' : Node × Node}
    (h : Between isls switch a b) (h' : Between isls switch' a b) : switch = switch' := by
  have apart : ∀ x y : Node, (∃ i ∈ createAllLinks isls, i.switch = (x, y)) →
      (∃ i ∈ createAllLinks isls, i.switch = (y, x)) → x = y := by
    rintro x y ⟨i, hi, hswitch⟩ ⟨j, hj, hswitch'⟩
    have left := (switch_cases hi).2
    have right := (switch_cases hj).2
    rw [hswitch] at left
    rw [hswitch'] at right
    rcases left with ⟨isl, hisl, hxy⟩ | hxy | hxy
    · obtain ⟨rfl, rfl⟩ := Prod.mk.inj hxy
      rcases right with ⟨isl', hisl', hyx⟩ | hyx | hyx
      · obtain ⟨hback, hfront⟩ := Prod.mk.inj hyx
        have same : isl' = isl.swap :=
          Prod.ext (nameB_eq_nameA hback).symm (nameB_eq_nameA hfront.symm)
        exact absurd (same ▸ hisl') (oneWay isl hisl)
      · exact absurd (Prod.mk.inj hyx).1 (nameB_ne_ground _).1
      · exact absurd (Prod.mk.inj hyx).2 (nameA_ne_ground _).2.2
    · obtain ⟨rfl, rfl⟩ := Prod.mk.inj hxy
      rcases right with ⟨isl', -, hyx⟩ | hyx | hyx
      · exact absurd (Prod.mk.inj hyx).2.symm (nameB_ne_ground _).1
      · cases hyx
      · cases hyx
    · obtain ⟨rfl, rfl⟩ := Prod.mk.inj hxy
      rcases right with ⟨isl', -, hyx⟩ | hyx | hyx
      · exact absurd (Prod.mk.inj hyx).1.symm (nameA_ne_ground _).2.2
      · cases hyx
      · cases hyx
  rcases h.ends with rfl | rfl <;> rcases h'.ends with rfl | rfl
  · rfl
  · rw [apart a b h.there h'.there]
  · rw [apart a b h'.there h.there]
  · rfl

lemma Between.symm (h : Between isls switch a b) : Between isls switch b a := ⟨h.ends.symm, h.there⟩

lemma between_isl {isl : Int × Int} (hisl : isl ∈ isls) :
    Between isls (nameA isl.1, nameB isl.2) (nameA isl.1) (nameB isl.2) := by
  obtain ⟨k, hk⟩ := List.mem_iff_getElem?.mp hisl
  exact ⟨Or.inl rfl, ⟨nameA isl.1, _, ⟨k + 2, 1⟩⟩, List.mem_append_left _
    (mem_islLinks.mpr ⟨isl, k, hk, rfl, Or.inl ⟨rfl, rfl⟩⟩), rfl⟩

lemma pathNodes_sat {j : Nat} (hj : j < topo.length) :
    (pathNodes topo)[j + 2]? = some (.m topo[j]) := by
  simp [pathNodes, List.getElem?_append_left, hj]

/-- The switch of a link between two satellites is the one that `isls` names. -/
lemma nameSwitch_inner (on : OnLinks isls topo) {j : Nat} (hj : j + 1 < topo.length) :
    ∃ switch, nameSwitch isls topo (j + 2) (.m topo[j]) (.m topo[j + 1]) = some switch ∧
      Between isls switch (.m topo[j]) (.m topo[j + 1]) := by
  have hlen := length_pathNodes topo
  have here := List.getElem?_eq_getElem (Nat.lt_of_succ_lt hj)
  have next := List.getElem?_eq_getElem hj
  have inner : 1 < j + 2 ∧ j + 2 + 3 < (pathNodes topo).length := by omega
  have hname : nameSwitch isls topo (j + 2) (.m topo[j]) (.m topo[j + 1]) =
      some (if isls.contains (topo[j], topo[j + 1]) then (.m topo[j], .m topo[j + 1])
        else (.m topo[j + 1], .m topo[j])) := by
    rw [nameSwitch, if_pos inner]
    simp only [Nat.add_sub_cancel, show j + 2 - 1 = j + 1 from rfl, here, next,
      Option.bind_eq_bind, Option.bind_some]
  obtain ⟨hzero, hone⟩ := on.satellites topo[j] (List.getElem_mem _)
  obtain ⟨hzero', hone'⟩ := on.satellites topo[j + 1] (List.getElem_mem _)
  rcases List.isChain_iff_getElem.mp on.across j hj with hthere | hback
  · have between := between_isl hthere
    rw [nameA, if_neg hzero, nameB, if_neg hone'] at between
    refine ⟨_, hname, ?_⟩
    rwa [if_pos (by simpa using hthere)]
  · by_cases hthere : (topo[j], topo[j + 1]) ∈ isls
    · have between := between_isl hthere
      rw [nameA, if_neg hzero, nameB, if_neg hone'] at between
      refine ⟨_, hname, ?_⟩
      rwa [if_pos (by simpa using hthere)]
    · have between := between_isl hback
      rw [nameA, if_neg hzero', nameB, if_neg hone] at between
      refine ⟨_, hname, ?_⟩
      rw [if_neg (by simpa using hthere)]
      exact between.symm

/-- Each link of the path has a switch, and the update thread finds it by its name. -/
lemma exists_between (on : OnLinks isls topo) {i : Nat} (hi : i < topo.length + 3) :
    ∃ a b switch, (pathNodes topo)[i]? = some a ∧ (pathNodes topo)[i + 1]? = some b ∧
      nameSwitch isls topo i a b = some switch ∧ Between isls switch a b := by
  have hlen := length_pathNodes topo
  have pos : 0 < topo.length := List.length_pos_iff.mpr on.nonempty
  rcases i with _ | _ | j
  · refine ⟨.h1, .gs1, _, rfl, rfl, if_neg (by omega), Or.inl rfl, ?_⟩
    exact ⟨⟨.h1, (.h1, .gs1), ⟨1, 1⟩⟩, List.mem_append_right _ (by simp [groundLinks]), rfl⟩
  · have up := between_isl (on.up topo[0] (by simp [List.head?_eq_getElem?, pos]))
    rw [nameB, if_neg (on.satellites topo[0] (List.getElem_mem pos)).2] at up
    exact ⟨.gs1, .m topo[0], _, rfl, pathNodes_sat pos, if_neg (by omega), up⟩
  · by_cases hinner : j + 1 < topo.length
    · obtain ⟨switch, hswitch, between⟩ := nameSwitch_inner on hinner
      exact ⟨_, _, switch, pathNodes_sat (by omega), pathNodes_sat hinner, hswitch, between⟩
    · by_cases hdown : j + 1 = topo.length
      · have hlast : topo.getLast? = some topo[j] := by
          have hindex : topo.length - 1 = j := by omega
          rw [List.getLast?_eq_getElem?, hindex]
          exact List.getElem?_eq_getElem (by omega)
        have down := between_isl (on.down topo[j] hlast)
        rw [nameA, if_neg (on.satellites topo[j] (List.getElem_mem _)).1] at down
        refine ⟨.m topo[j], .gs2, _, pathNodes_sat (by omega), ?_, if_neg (by omega), down⟩
        simp [pathNodes, hdown]
      · obtain rfl : j = topo.length := by omega
        refine ⟨.gs2, .h2, _, ?_, ?_, if_neg (by omega), Or.inl rfl, ?_⟩
        · simp [pathNodes]
        · simp [pathNodes]
        · exact ⟨⟨.h2, (.gs2, .h2), ⟨100, 2⟩⟩, List.mem_append_right _ (by simp [groundLinks]), rfl⟩

lemma place_unique (simple : topo.Nodup) {i j : Nat} {node : Node}
    (hi : (pathNodes topo)[i]? = some node) (hj : (pathNodes topo)[j]? = some node) : i = j :=
  (List.getElem?_inj (List.getElem?_eq_some_iff.mp hi).1 (pathNodes_nodup simple)).mp
    (hi.trans hj.symm)

/-- Links at different places of the path have different switches. -/
lemma switches_apart (simple : topo.Nodup) {i j : Nat} (hij : i < j) {a b c d : Node}
    {switch' : Node × Node} (ha : (pathNodes topo)[i]? = some a)
    (hc : (pathNodes topo)[j]? = some c)
    (hd : (pathNodes topo)[j + 1]? = some d) (between : Between isls switch a b)
    (between' : Between isls switch' c d) : switch ≠ switch' := by
  rintro rfl
  have same : a = c ∨ a = d := by
    rcases between.ends with hswitch | hswitch
    · rcases between'.ends with hswitch' | hswitch'
      · exact Or.inl (Prod.mk.inj (hswitch.symm.trans hswitch')).1
      · exact Or.inr (Prod.mk.inj (hswitch.symm.trans hswitch')).1
    · rcases between'.ends with hswitch' | hswitch'
      · exact Or.inr (Prod.mk.inj (hswitch.symm.trans hswitch')).2
      · exact Or.inl (Prod.mk.inj (hswitch.symm.trans hswitch')).2
  rcases same with rfl | rfl
  · have := place_unique simple ha hc
    omega
  · have := place_unique simple ha hd
    omega

/-- The four ends of link `i` of the path are set to its entries. -/
structure LinkSet (isls : List (Int × Int)) (lp : LinksParam) (i : Nat) (settings : Settings)
    (a b : Node) (switch : Node × Node) : Prop extends Between isls switch a b where
  left : (pathNodes lp.topo)[i]? = some a
  right : (pathNodes lp.topo)[i + 1]? = some b
  given : ∃ bw rtt loss, lp.bw[i]? = some bw ∧ lp.rtt[i]? = some rtt ∧ lp.loss[i]? = some loss ∧
    settings (.ofHost a switch) = ⟨bw, rtt / 4, 0⟩ ∧
    settings (.ofSwitch switch b) = ⟨bw, rtt / 4, 0⟩ ∧
    settings (.ofHost b switch) = ⟨bw, rtt / 4, loss⟩ ∧
    settings (.ofSwitch switch a) = ⟨bw, rtt / 4, 0⟩

/-- The port is on no link between two neighbours of the path. -/
def OffPath (isls : List (Int × Int)) (topo : List Int) (port : Port) : Prop :=
  ∀ (i : Nat) a b, (pathNodes topo)[i]? = some a → (pathNodes topo)[i + 1]? = some b →
    ¬ Between isls port.link a b

lemma changeLinkConfig_given {intf : Port} {bw delay loss : Rat} (hbw : bw ≠ 0)
    (hdelay : delay ≠ 0) :
    changeLinkConfig settings intf bw delay loss =
      Function.update settings intf ⟨bw, delay, loss⟩ := by
  simp [changeLinkConfig, hbw, hdelay]

lemma changeLinkConfig_other {intf port : Port} {bw delay loss : Rat} (other : port ≠ intf) :
    changeLinkConfig settings intf bw delay loss port = settings port :=
  Function.update_of_ne other _ _

lemma LinkSet.keep {settings' : Settings} {i : Nat} (h : LinkSet isls lp i settings a b switch)
    (same : ∀ port : Port, port.link = switch → settings' port = settings port) :
    LinkSet isls lp i settings' a b switch where
  toBetween := h.toBetween
  left := h.left
  right := h.right
  given := by
    obtain ⟨bw, rtt, loss, hbw, hrtt, hloss, h₁, h₂, h₃, h₄⟩ := h.given
    exact ⟨bw, rtt, loss, hbw, hrtt, hloss, (same _ rfl).trans h₁, (same _ rfl).trans h₂,
      (same _ rfl).trans h₃, (same _ rfl).trans h₄⟩

/-- An entry for each link. -/
structure Entries (lp : LinksParam) : Prop where
  rtt : lp.rtt.length = lp.topo.length + 3
  loss : lp.loss.length = lp.topo.length + 3
  bw : lp.bw.length = lp.topo.length + 3

/-- Numbers that `changeLinkConfig` does not take for missing ones. -/
structure NonZero (lp : LinksParam) : Prop where
  rtt : ∀ rtt ∈ lp.rtt, rtt ≠ 0
  bw : ∀ bw ∈ lp.bw, bw ≠ 0

lemma setLink_spec (on : OnLinks isls lp.topo) (entries : Entries lp) {i : Nat}
    (hi : i < lp.topo.length + 3) (settings : Settings) :
    ∃ settings' a b switch, setLink isls lp settings i = some settings' ∧
      (pathNodes lp.topo)[i]? = some a ∧ (pathNodes lp.topo)[i + 1]? = some b ∧
      Between isls switch a b ∧
      (∀ port : Port, port.link ≠ switch → settings' port = settings port) ∧
      (NonZero lp → LinkSet isls lp i settings' a b switch) := by
  obtain ⟨a, b, switch, ha, hb, hname, between⟩ := exists_between on hi
  obtain ⟨bw, hbw⟩ : ∃ bw, lp.bw[i]? = some bw :=
    ⟨_, List.getElem?_eq_getElem (entries.bw ▸ hi)⟩
  obtain ⟨rtt, hrtt⟩ : ∃ rtt, lp.rtt[i]? = some rtt :=
    ⟨_, List.getElem?_eq_getElem (entries.rtt ▸ hi)⟩
  obtain ⟨loss, hloss⟩ : ∃ loss, lp.loss[i]? = some loss :=
    ⟨_, List.getElem?_eq_getElem (entries.loss ▸ hi)⟩
  have apart : a ≠ b := by
    rintro rfl
    exact absurd (place_unique on.simple ha hb) (Nat.ne_of_lt (Nat.lt_succ_self i))
  refine ⟨changeLinkConfig (changeLinkConfig (changeLinkConfig (changeLinkConfig settings
    (.ofHost a switch) bw (rtt / 4) 0) (.ofSwitch switch a) bw (rtt / 4) 0)
    (.ofSwitch switch b) bw (rtt / 4) 0) (.ofHost b switch) bw (rtt / 4) loss,
    a, b, switch, ?_, ha, hb, between, ?_, ?_⟩
  · simp only [setLink, ha, hb, hname, hbw, hrtt, hloss, between.connection (Or.inl rfl),
      between.connection (Or.inr rfl), Option.bind_eq_bind, Option.bind_some]
  · intro port hport
    have others : port ≠ .ofHost a switch ∧ port ≠ .ofSwitch switch a ∧
        port ≠ .ofSwitch switch b ∧ port ≠ .ofHost b switch := by
      refine ⟨?_, ?_, ?_, ?_⟩ <;> rintro rfl <;> exact hport rfl
    rw [changeLinkConfig_other others.2.2.2, changeLinkConfig_other others.2.2.1,
      changeLinkConfig_other others.2.1, changeLinkConfig_other others.1]
  · intro nonZero
    have hrate : bw ≠ 0 := nonZero.bw bw (List.mem_of_getElem? hbw)
    have hquarter : rtt / 4 ≠ 0 :=
      div_ne_zero (nonZero.rtt rtt (List.mem_of_getElem? hrtt)) (by decide)
    refine ⟨between, ha, hb, bw, rtt, loss, hbw, hrtt, hloss, ?_, ?_, ?_, ?_⟩
    all_goals simp [changeLinkConfig_given hrate hquarter, apart]

/-- A pass sets every link of the path, and leaves all others as they were. -/
lemma setLinks_spec (on : OnLinks isls lp.topo) (entries : Entries lp) (settings : Settings) :
    ∃ settings', setLinks isls lp settings = some settings' ∧
      (NonZero lp → ∀ i < lp.topo.length + 3, ∃ a b switch,
        LinkSet isls lp i settings' a b switch) ∧
      ∀ port : Port, OffPath isls lp.topo port → settings' port = settings port := by
  have links : (pathNodes lp.topo).length - 1 = lp.topo.length + 3 := by simp
  rw [setLinks, links]
  have some_links : ∀ n ≤ lp.topo.length + 3, ∃ settings',
      (List.range n).foldlM (setLink isls lp) settings = some settings' ∧
      (NonZero lp → ∀ i < n, ∃ a b switch, LinkSet isls lp i settings' a b switch) ∧
      ∀ port : Port, OffPath isls lp.topo port → settings' port = settings port := by
    intro n hn
    induction n with
    | zero => exact ⟨settings, rfl, by simp, by simp⟩
    | succ n ih =>
      obtain ⟨before, hbefore, hset, hothers⟩ := ih (by omega)
      obtain ⟨after, c, d, switch', hafter, hc, hd, between', frame, hnow⟩ :=
        setLink_spec on entries (by omega : n < lp.topo.length + 3) before
      refine ⟨after, ?_, fun nonZero i hi => ?_, fun port hport => ?_⟩
      · simp [List.range_succ, List.foldlM_append, hbefore, hafter]
      · by_cases hlast : i = n
        · subst hlast
          exact ⟨c, d, switch', hnow nonZero⟩
        · obtain ⟨a, b, switch, hlink⟩ := hset nonZero i (by omega)
          refine ⟨a, b, switch, hlink.keep fun port hport => frame port ?_⟩
          rw [hport]
          exact switches_apart on.simple (by omega : i < n) hlink.left hc hd hlink.toBetween between'
      · rw [← hothers port hport]
        refine frame port fun hlink => ?_
        exact hport n c d hc hd (hlink ▸ between')
  exact some_links _ le_rfl

end Link

section Packets

variable {isls : List (Int × Int)} {topo : List Int} {lp : LinksParam} {net : LinkedTestbed}
  {tables : Tables} {dst : Addr}

lemma own_iff {intfs : List Intf} {node : Node} :
    (intfs.any fun i => i.node = node ∧ i.ip = dst) = true ↔
      (⟨node, dst⟩ : Node × Addr) ∈ intfs.map fun i => (i.node, i.ip) := by
  simp

/-- `forward` hands packets on over a switch that both hosts have an interface to. -/
lemma outLink_next {intfs : List Intf} {node next : Node}
    (h : forward intfs tables dst node = .next next) :
    ∃ switch, outLink intfs tables dst node = some (switch, next) ∧
      (∃ i ∈ intfs, i.node = node ∧ i.switch = switch) ∧
      ∃ j ∈ intfs, j.node = next ∧ j.switch = switch := by
  have handed : ∀ ip, handTo intfs node ip = .next next → ∃ switch,
      linkTo intfs node ip = some (switch, next) ∧
      (∃ i ∈ intfs, i.node = node ∧ i.switch = switch) ∧
      ∃ j ∈ intfs, j.node = next ∧ j.switch = switch := by
    intro ip hhand
    rw [handTo] at hhand
    cases hout : connected intfs node ip.seg with
    | none => simp [hout] at hhand
    | some out =>
      cases hanswer : answers intfs out.switch ip with
      | none => simp [hout, hanswer] at hhand
      | some i =>
        rw [hout, Option.bind_some, hanswer] at hhand
        obtain rfl := Hop.next.inj hhand
        have houtNode := List.find?_some hout
        have hiSwitch := List.find?_some hanswer
        simp only [decide_eq_true_eq] at houtNode hiSwitch
        exact ⟨out.switch, by simp [linkTo, hout, hanswer],
          ⟨out, List.mem_of_find?_eq_some hout, houtNode.1, rfl⟩,
          ⟨i, List.mem_of_find?_eq_some hanswer, rfl, hiSwitch.1⟩⟩
  rw [forward] at h
  rw [outLink]
  split
  · rename_i hlocal
    rw [if_pos (own_iff.mp hlocal)] at h
    cases h
  · rename_i hlocal
    rw [if_neg (mt own_iff.mpr hlocal)] at h
    split
    · rename_i hlinked
      rw [if_pos hlinked] at h
      exact handed dst h
    · rename_i hlinked
      rw [if_neg hlinked] at h
      cases hgw : gateway (tables node) dst with
      | none => simp [hgw] at h
      | some gw =>
        rw [hgw] at h
        exact handed gw h

lemma outLink_deliver {intfs : List Intf} {node : Node}
    (h : forward intfs tables dst node = .deliver) : outLink intfs tables dst node = none := by
  have handed : ∀ ip, handTo intfs node ip ≠ .deliver := by
    intro ip
    rw [handTo]
    split <;> simp
  rw [forward] at h
  rw [outLink]
  split
  · rfl
  · rename_i hlocal
    rw [if_neg (mt own_iff.mpr hlocal)] at h
    split at h
    · exact absurd h (handed dst)
    · split at h
      · exact absurd h (handed _)
      · cases h

/-- Between two hosts of a link a packet leaves the one, and the switch for the other. -/
lemma portsOut_between (oneWay : ∀ isl ∈ isls, isl.swap ∉ isls) {a b : Node}
    {switch : Node × Node} (apart : a ≠ b) (between : Between isls switch a b)
    (h : forward (createAllLinks isls) tables dst a = .next b) :
    portsOut (createAllLinks isls) tables dst a = [.ofHost a switch, .ofSwitch switch b] := by
  obtain ⟨switch', hout, ⟨i, hi, rfl, hswitch⟩, ⟨j, hj, rfl, hswitch'⟩⟩ := outLink_next h
  have between' : Between isls switch' i.node j.node := by
    refine ⟨?_, i, hi, hswitch⟩
    have hiEnd := (switch_cases hi).1
    have hjEnd := (switch_cases hj).1
    rw [hswitch] at hiEnd
    rw [hswitch'] at hjEnd
    rcases hiEnd with hfirst | hsecond
    · rcases hjEnd with hfirst' | hsecond'
      · exact absurd (hfirst.trans hfirst'.symm) apart
      · exact Or.inl (Prod.ext hfirst.symm hsecond'.symm)
    · rcases hjEnd with hfirst' | hsecond'
      · exact Or.inr (Prod.ext hfirst'.symm hsecond.symm)
      · exact absurd (hsecond.trans hsecond'.symm) apart
  obtain rfl := between.unique oneWay between'
  rw [portsOut, hout]

/-- What the entries of a step ask for at the right end of each link. -/
def asked (lp : LinksParam) : List Setting :=
  (lp.bw.zip (lp.rtt.zip lp.loss)).map fun e => ⟨e.1, e.2.1 / 4, e.2.2⟩

lemma asked_getElem? {i : Nat} {bw rtt loss : Rat} (hbw : lp.bw[i]? = some bw)
    (hrtt : lp.rtt[i]? = some rtt) (hloss : lp.loss[i]? = some loss) :
    (asked lp)[i]? = some ⟨bw, rtt / 4, loss⟩ := by
  have zipped : (lp.rtt.zip lp.loss)[i]? = some (rtt, loss) :=
    List.getElem?_zip_eq_some.mpr ⟨hrtt, hloss⟩
  have all : (lp.bw.zip (lp.rtt.zip lp.loss))[i]? = some (bw, rtt, loss) :=
    List.getElem?_zip_eq_some.mpr ⟨hbw, zipped⟩
  rw [asked, List.getElem?_map, all]
  rfl

lemma length_asked (entries : Entries lp) : (asked lp).length = lp.topo.length + 3 := by
  simp [asked, entries.rtt, entries.loss, entries.bw]

/-- Without loss, as at the other ends of the link. -/
def Setting.lossless (s : Setting) : Setting := { s with loss := 0 }

lemma map_eq_map {A B C : Type} {as : List A} {bs : List B} {f : A → C} {g : B → C}
    (length : as.length = bs.length)
    (each : ∀ (i : Nat) a b, as[i]? = some a → bs[i]? = some b → f a = g b) :
    as.map f = bs.map g := by
  refine List.ext_getElem (by simpa using length) fun i hi hi' => ?_
  simp only [List.length_map] at hi hi'
  rw [List.getElem_map, List.getElem_map]
  exact each i _ _ (List.getElem?_eq_getElem hi) (List.getElem?_eq_getElem hi')

/-- In either direction over link `i`. -/
lemma LinkSet.passes {i : Nat} {a b : Node} {switch : Node × Node} {s : Setting}
    (link : LinkSet isls lp i net.settings a b switch) (simple : lp.topo.Nodup)
    (oneWay : ∀ isl ∈ isls, isl.swap ∉ isls) (hs : (asked lp)[i]? = some s) :
    (forward (createAllLinks isls) tables dst a = .next b →
      (portsOut (createAllLinks isls) tables dst a).map net.settings = [s.lossless, s.lossless]) ∧
    (forward (createAllLinks isls) tables dst b = .next a →
      (portsOut (createAllLinks isls) tables dst b).map net.settings = [s, s.lossless]) := by
  obtain ⟨bw, rtt, loss, hbw, hrtt, hloss, hleft, hright, hback, hfront⟩ := link.given
  obtain rfl := Option.some.inj (hs.symm.trans (asked_getElem? hbw hrtt hloss))
  have apart : a ≠ b := by
    rintro rfl
    exact absurd (place_unique simple link.left link.right) (Nat.ne_of_lt (Nat.lt_succ_self i))
  constructor
  · intro hhop
    rw [portsOut_between oneWay apart link.toBetween hhop]
    simp [hleft, hright, Setting.lossless]
  · intro hhop
    rw [portsOut_between oneWay apart.symm link.toBetween.symm hhop]
    simp [hback, hfront, Setting.lossless]

lemma pathNodes_ends (topo : List Int) :
    pathNodes topo = (pathNodes topo).dropLast ++ [.h2] ∧
      pathNodes topo = .h1 :: (pathNodes topo).tail := by
  obtain ⟨front, hfront⟩ := List.getLast?_eq_some_iff.mp (pathNodes_getLast? topo)
  exact ⟨by rw [hfront, List.dropLast_concat], rfl⟩

lemma portsOut_deliver {intfs : List Intf} {node : Node}
    (h : forward intfs tables dst node = .deliver) : portsOut intfs tables dst node = [] := by
  rw [portsOut, outLink_deliver h]

variable (oneWay : ∀ isl ∈ isls, isl.swap ∉ isls) (entries : Entries lp)
  (set : ∀ i < lp.topo.length + 3, ∃ a b switch, LinkSet isls lp i net.settings a b switch)
  (simple : lp.topo.Nodup)

include oneWay entries set simple

/-- A packet for h2 takes a quarter of the round trip at each end of each link. -/
lemma passed_h2
    (visits : Visits (forward (createAllLinks isls) net.tables ⟨100, 2⟩) (pathNodes lp.topo)) :
    passed isls net ⟨100, 2⟩ (pathNodes lp.topo) =
      (asked lp).flatMap fun s => [s.lossless, s.lossless] := by
  have hlen := length_pathNodes lp.topo
  have hops := List.isChain_iff_getElem.mp (isChain_of_visits visits)
  have last := portsOut_deliver (deliver_of_visits visits (pathNodes_getLast? lp.topo))
  have each : (pathNodes lp.topo).dropLast.map (fun node =>
      (portsOut (createAllLinks isls) net.tables ⟨100, 2⟩ node).map net.settings) =
      (asked lp).map fun s => [s.lossless, s.lossless] := by
    refine map_eq_map (by simp [length_asked entries, hlen]) fun i a s ha hs => ?_
    have hi : i < lp.topo.length + 3 := by
      rw [← length_asked entries]
      exact (List.getElem?_eq_some_iff.mp hs).1
    obtain ⟨a', b, switch, link⟩ := set i hi
    rw [List.getElem?_dropLast, if_pos (by omega)] at ha
    obtain rfl := Option.some.inj (ha.symm.trans link.left)
    obtain ⟨_, hleft⟩ := List.getElem?_eq_some_iff.mp link.left
    obtain ⟨hnext, hright⟩ := List.getElem?_eq_some_iff.mp link.right
    have hhop := hops i hnext
    rw [hleft, hright] at hhop
    exact (link.passes simple oneWay hs).1 hhop
  rw [passed, List.map_flatMap, (pathNodes_ends lp.topo).1, List.flatMap_append,
    List.flatMap_singleton, last, List.map_nil, List.append_nil, List.flatMap_def, each,
    ← List.flatMap_def]

/-- A packet for h1 moreover meets the loss of each link where it leaves the host. -/
lemma passed_h1
    (visits : Visits (forward (createAllLinks isls) net.tables ⟨1, 1⟩)
      (pathNodes lp.topo).reverse) :
    passed isls net ⟨1, 1⟩ (pathNodes lp.topo).reverse =
      (asked lp).reverse.flatMap fun s => [s, s.lossless] := by
  have hlen := length_pathNodes lp.topo
  have hops := List.isChain_iff_getElem.mp (List.isChain_reverse.mp (isChain_of_visits visits))
  have last := portsOut_deliver (deliver_of_visits visits (z := .h1) (by
    rw [List.getLast?_reverse]
    rfl))
  have each : (pathNodes lp.topo).tail.map (fun node =>
      (portsOut (createAllLinks isls) net.tables ⟨1, 1⟩ node).map net.settings) =
      (asked lp).map fun s => [s, s.lossless] := by
    refine map_eq_map (by simp [length_asked entries, hlen]) fun i b s hb hs => ?_
    have hi : i < lp.topo.length + 3 := by
      rw [← length_asked entries]
      exact (List.getElem?_eq_some_iff.mp hs).1
    obtain ⟨a, b', switch, link⟩ := set i hi
    rw [List.getElem?_tail] at hb
    obtain rfl := Option.some.inj (hb.symm.trans link.right)
    obtain ⟨_, hleft⟩ := List.getElem?_eq_some_iff.mp link.left
    obtain ⟨hnext, hright⟩ := List.getElem?_eq_some_iff.mp link.right
    have hhop := hops i hnext
    rw [hleft, hright] at hhop
    exact (link.passes simple oneWay hs).2 hhop
  rw [passed, List.map_flatMap, (pathNodes_ends lp.topo).2, List.reverse_cons,
    List.flatMap_append, List.flatMap_singleton, last, List.map_nil, List.append_nil,
    List.flatMap_def, List.map_reverse, each, ← List.map_reverse, ← List.flatMap_def]

end Packets

lemma sum_passed {ends : Setting → List Setting}
    (twice : ∀ s, ((ends s).map Setting.delay).sum = 2 * s.delay) (ss : List Setting) :
    ((ss.flatMap ends).map Setting.delay).sum = 2 * (ss.map Setting.delay).sum := by
  induction ss with
  | nil => simp
  | cons s ss ih =>
    rw [List.flatMap_cons, List.map_append, List.sum_append, ih, twice, List.map_cons,
      List.sum_cons]
    ring

lemma sum_asked {lp : LinksParam} (entries : Entries lp) :
    ((asked lp).map Setting.delay).sum = lp.rtt.sum / 4 := by
  have delays : (asked lp).map Setting.delay = lp.rtt.map (· / 4) := by
    refine map_eq_map (by rw [length_asked entries, entries.rtt]) fun i s rtt hs hrtt => ?_
    have hi : i < lp.topo.length + 3 := entries.rtt ▸ (List.getElem?_eq_some_iff.mp hrtt).1
    have hbw := List.getElem?_eq_getElem (entries.bw.symm ▸ hi)
    have hloss := List.getElem?_eq_getElem (entries.loss.symm ▸ hi)
    rw [asked_getElem? hbw hrtt hloss] at hs
    rw [← Option.some.inj hs]
  rw [delays]
  induction lp.rtt with
  | nil => simp
  | cons rtt rtts ih =>
    rw [List.map_cons, List.sum_cons, ih, List.sum_cons]
    ring

section Runs

variable {isls : List (Int × Int)} {lp : LinksParam} {prev : List Int} {net : LinkedTestbed}

/-- A pass sets the links and the routes of its step. -/
lemma linkUpdate_spec (on : OnLinks isls lp.topo) (entries : Entries lp)
    (current : Current isls prev net.toTestbed) :
    ∃ next, linkUpdate isls lp net = some next ∧ Current isls lp.topo next.toTestbed ∧
      (NonZero lp → ∀ i < lp.topo.length + 3, ∃ a b switch,
        LinkSet isls lp i next.settings a b switch) ∧
      ∀ port : Port, OffPath isls lp.topo port → next.settings port = net.settings port := by
  obtain ⟨settings, hsettings, set, others⟩ := setLinks_spec on entries net.settings
  obtain ⟨testbed, htestbed, hcurrent⟩ := update_current on current
  refine ⟨⟨testbed, settings⟩, ?_, hcurrent, set, others⟩
  simp [linkUpdate, hsettings, htestbed]

lemma run_linkUpdate {lps : List LinksParam} (on : ∀ lp ∈ lps, OnLinks isls lp.topo)
    (entries : ∀ lp ∈ lps, Entries lp) (current : Current isls prev net.toTestbed) :
    ∃ last topo, run (linkUpdate isls) net lps = some last ∧ Current isls topo last.toTestbed := by
  induction lps generalizing prev net with
  | nil => exact ⟨net, prev, rfl, current⟩
  | cons lp lps ih =>
    obtain ⟨hon, hons⟩ := List.forall_mem_cons.mp on
    obtain ⟨hentries, hrest⟩ := List.forall_mem_cons.mp entries
    obtain ⟨next, hnext, hcurrent, -⟩ := linkUpdate_spec hon hentries current
    obtain ⟨last, topo, hlast, hfinal⟩ := ih hons hrest hcurrent
    exact ⟨last, topo, by rw [run, hnext, Option.bind_some, hlast], hfinal⟩

/-- In any round a step of the trace finds its links set, and those it does not use as they were. -/
lemma play_spec {trace : Trace} (on : ∀ lp ∈ trace.linksParams, OnLinks trace.isls lp.topo)
    (entries : ∀ lp ∈ trace.linksParams, Entries lp) (rounds : Nat) {k : Nat}
    (hlp : trace.linksParams[k]? = some lp) :
    ∃ before after, play trace rounds k = some before ∧ play trace rounds (k + 1) = some after ∧
      Current trace.isls lp.topo after.toTestbed ∧
      (NonZero lp → ∀ i < lp.topo.length + 3, ∃ a b switch,
        LinkSet trace.isls lp i after.settings a b switch) ∧
      ∀ port : Port, OffPath trace.isls lp.topo port → after.settings port = before.settings port := by
  have here := List.mem_of_getElem? hlp
  obtain ⟨first, rest, hlps⟩ := List.exists_cons_of_ne_nil (List.ne_nil_of_mem here)
  have hfirst : trace.linksParams.head? = some first := by rw [hlps, List.head?_cons]
  have played : ∀ lp ∈ (List.replicate rounds trace.linksParams).flatten ++
      trace.linksParams.take k, lp ∈ trace.linksParams := by
    intro lp hmem
    rcases List.mem_append.mp hmem with hround | hnow
    · obtain ⟨lps, hlps, hmem⟩ := List.mem_flatten.mp hround
      rwa [List.eq_of_mem_replicate hlps] at hmem
    · exact List.mem_of_mem_take hnow
  obtain ⟨segs, -, hset⟩ := setRoute_onLinks (on first (List.mem_of_head? hfirst))
  let start : LinkedTestbed := ⟨⟨routesOn (pathNodes first.topo) segs, first.topo⟩, initialSettings⟩
  have hcreate : createDynamicNet trace.isls first.topo = some start.toTestbed := by
    simp [createDynamicNet, hset, start]
  have created : Current trace.isls first.topo start.toTestbed := ⟨rfl, hset⟩
  obtain ⟨before, topo, hbefore, hcurrent⟩ := run_linkUpdate
    (fun lp hmem => on lp (played lp hmem)) (fun lp hmem => entries lp (played lp hmem)) created
  obtain ⟨after, hafter, current, set, others⟩ :=
    linkUpdate_spec (on lp here) (entries lp here) hcurrent
  refine ⟨before, after, ?_, ?_, current, set, others⟩
  · simp only [play, hfirst, hcreate, Option.bind_eq_bind, Option.bind_some]
    exact hbefore
  · simp only [play, hfirst, hcreate, Option.bind_eq_bind, Option.bind_some]
    rw [List.take_add_one, hlp, Option.toList_some, ← List.append_assoc, run_snoc]
    exact Option.bind_eq_some_iff.mpr ⟨before, hbefore, hafter⟩

end Runs

lemma groundRtt_ends (groundLinkRtt a b : Rat) (rtts : List Rat) :
    groundRtt groundLinkRtt (a :: (rtts ++ [b])) =
      some (groundLinkRtt :: (rtts ++ [groundLinkRtt])) := by
  rw [ContactRuns.groundRtt_some _ (List.cons_ne_nil _ _)]
  simp

lemma completed_entries {net : Constellation} {files : Files} {round : Rat → Rat} {r : Rates}
    {src dst : Int} {times : List Int} {s : TraceState} {done : Trace}
    (h : Completed net files round r src dst times s done) :
    ∀ lp ∈ done.linksParams, Entries lp := by
  intro lp hlp
  obtain ⟨k, hk⟩ := List.mem_iff_getElem?.mp hlp
  obtain ⟨_, _, _, base, -, -, -, -, completes⟩ := h.each k lp hk
  constructor
  · rw [completes.rtt, completes.topo]
  · rw [completes.loss, completes.topo]
  · rw [completes.bw, completes.topo]

variable {net : Constellation} {files : Files} {fuel : Nat} {g : Generated}
  {city1 city2 startTsS durationS intervalMs : Int}

/-- At every step of every round the links on the path are set to the entries of the step, all
others stay as they were, and a packet is delayed by half of what light takes for the path of the
forwarding state and back, and by the links of the hosts. -/
theorem getTrace_setsLinks (round decimals : Rat → Rat) (r : Rates) (bwFluctuation : Bool)
    (alg : RouteAlgorithm)
    (h : getTrace net files round fuel city1 city2 startTsS durationS intervalMs = some g)
    (addressable : Addressable g.isls) (steps : g.linksParams ≠ [])
    (relay : alg = .relayOnly → net.listIsls = [] ∧ net.satellites ≤ city1 + 1584 ∧
      net.satellites ≤ city2 + 1584) :
    ∃ times done,
      rangeOf (startTsS * 1000 * 1000 * 1000) ((startTsS + durationS) * 1000 * 1000 * 1000)
        (intervalMs * 1000 * 1000) = some times ∧
      dynamicTrace decimals r bwFluctuation (toTrace g) alg = some done ∧
      done.linksParams.length = times.length ∧
      ∀ (rounds k : Nat) lp, done.linksParams[k]? = some lp →
        ∃ timeNs fstate path rtts before after, times[k]? = some timeNs ∧
          fstateAfter files (times.take (k + 1)) = some fstate ∧
          PathOf fstate (city1 + 1584) (city2 + 1584) path ∧
          hopRttMsList net timeNs round path = some rtts ∧
          lp.rtt = r.groundLinkRtt :: (rtts ++ [r.groundLinkRtt]) ∧
          Accepted done.isls lp.topo ∧
          play done rounds k = some before ∧ play done rounds (k + 1) = some after ∧
          (∀ port : Port, OffPath done.isls lp.topo port →
            after.settings port = before.settings port) ∧
          (NonZero lp →
            (passed done.isls after ⟨1, 1⟩ (pathNodes lp.topo).reverse =
              (asked lp).reverse.flatMap fun s => [s, s.lossless]) ∧
            ((passed done.isls after ⟨1, 1⟩ (pathNodes lp.topo).reverse).map Setting.delay).sum =
              r.groundLinkRtt + rtts.sum / 2 ∧
            (Avoids done.isls lp.topo →
              (passed done.isls after ⟨100, 2⟩ (pathNodes lp.topo) =
                (asked lp).flatMap fun s => [s.lossless, s.lossless]) ∧
              ((passed done.isls after ⟨100, 2⟩ (pathNodes lp.topo)).map Setting.delay).sum =
                r.groundLinkRtt + rtts.sum / 2)) := by
  obtain ⟨times, s, htimes, rfl, traced⟩ := getTrace_traced h
  obtain ⟨done, hdone, completed⟩ := exists_completed traced steps decimals r bwFluctuation alg relay
  refine ⟨times, done, htimes, hdone, completed.length, fun rounds k lp hlp => ?_⟩
  obtain ⟨timeNs, fstate, path, base, htime, hfstate, records, on, completes⟩ :=
    completed.each k lp hlp
  obtain ⟨rtts, hrtts, hbase⟩ := records.rtt
  have entries := completed_entries completed lp (List.mem_of_getElem? hlp)
  have ends : lp.rtt = r.groundLinkRtt :: (rtts ++ [r.groundLinkRtt]) := by
    have ground := completes.ground
    rw [hbase, groundRtt_ends] at ground
    exact (Option.some.inj ground).symm
  obtain ⟨before, after, hbefore, hafter, current, set, others⟩ :=
    play_spec completed.onLinks (completed_entries completed) rounds hlp
  have accepted := accepted_of_onLinks (completed.isls ▸ addressable) on
  refine ⟨timeNs, fstate, path, rtts, before, after, htime, hfstate, records.given, hrtts, ends,
    accepted, hbefore, hafter, others, fun nonZero => ?_⟩
  have oneWay : ∀ isl ∈ done.isls, isl.swap ∉ done.isls := completed.isls ▸ traced.links.oneWay
  obtain ⟨toH1, toH2⟩ := current_visits on current
  have half : 2 * (lp.rtt.sum / 4) = r.groundLinkRtt + rtts.sum / 2 := by
    rw [ends, List.sum_cons, List.sum_append, List.sum_singleton]
    ring
  have twice : ∀ s : Setting, ([s, s.lossless].map Setting.delay).sum = 2 * s.delay ∧
      ([s.lossless, s.lossless].map Setting.delay).sum = 2 * s.delay := by
    intro s
    simp [Setting.lossless, two_mul]
  have hpassed := passed_h1 oneWay entries (set nonZero) on.simple toH1
  refine ⟨hpassed, ?_, fun avoids => ?_⟩
  · rw [hpassed, sum_passed fun s => (twice s).1, List.map_reverse, List.sum_reverse,
      sum_asked entries, half]
  · have hpassed := passed_h2 oneWay entries (set nonZero) on.simple (toH2 avoids)
    refine ⟨hpassed, ?_⟩
    rw [hpassed, sum_passed fun s => (twice s).2, sum_asked entries, half]

/-- After two rounds the third step: 600 m up, 300 m across and 600 m down, and a host at each end. -/
theorem getTrace_setsLinks_handover :
    ∃ g done after, getTrace threeSatellites handover id 7 0 1 0 3 1000 = some g ∧
      dynamicTrace id {} true (toTrace g) .withIsl = some done ∧
      play done 2 3 = some after ∧
      ((passed done.isls after ⟨100, 2⟩ [.h1, .gs1, .m 3, .m 2, .gs2, .h2]).map
        Setting.delay).sum = 50 + 750000 / 149896229 := by
  let light (m : Rat) : Rat := (m + m) * 1000000000 / 299792458 / 1000000
  have hsizes : ((getTrace threeSatellites handover id 7 0 1 0 3 1000).bind fun g =>
      (dynamicTrace id {} true (toTrace g) .withIsl).map fun done =>
        (g.linksParams.length, g.isls.length, done.isls.length)) = some (3, 7, 7) := by
    decide +kernel
  have hthird : ((getTrace threeSatellites handover id 7 0 1 0 3 1000).bind fun g =>
      (dynamicTrace id {} true (toTrace g) .withIsl).map fun done =>
        (done.linksParams.drop 2).map fun lp => (lp.topo, lp.rtt, lp.bw.all (· ≠ 0))) =
      some [([3, 2], [50, light 600, light 300, light 600, 50], true)] := by
    decide +kernel
  obtain ⟨g, hg, hdone⟩ := Option.bind_eq_some_iff.mp hsizes
  obtain ⟨done, hdone, hshape⟩ := Option.map_eq_some_iff.mp hdone
  simp only [Prod.mk.injEq] at hshape
  obtain ⟨hsteps, hfound, hlinks⟩ := hshape
  rw [hg, Option.bind_some, hdone, Option.map_some, Option.some.injEq] at hthird
  obtain ⟨lp, hdrop, hlp'⟩ := List.map_eq_singleton_iff.mp hthird
  have hlp : done.linksParams[2]? = some lp := by
    rw [← Nat.add_zero 2, ← List.getElem?_drop, hdrop]
    rfl
  simp only [Prod.mk.injEq] at hlp'
  obtain ⟨htopo, hrtt, hbw⟩ := hlp'
  have steps : g.linksParams ≠ [] := List.length_pos_iff.mp (by omega)
  obtain ⟨_, done', -, hdone', -, each⟩ := getTrace_setsLinks id id {} true .withIsl hg
    (by simp [Addressable, hfound]) steps (fun h => absurd h (by decide))
  obtain rfl : done = done' := Option.some.inj (hdone.symm.trans hdone')
  obtain ⟨_, _, _, rtts, _, after, -, -, -, -, hends, -, -, hafter, -, given⟩ := each 2 2 lp hlp
  have nonZero : NonZero lp := by
    refine ⟨?_, by simpa using hbw⟩
    rw [hrtt]
    decide +kernel
  obtain ⟨-, -, toH2⟩ := given nonZero
  obtain ⟨-, delay⟩ := toH2 (avoids_of_short (by omega))
  have hrtts : rtts = [light 600, light 300, light 600] := by
    rw [hrtt] at hends
    have inner : rtts ++ [50] = [light 600, light 300, light 600] ++ [50] :=
      (List.cons.inj hends).2.symm
    exact List.append_cancel_right inner
  refine ⟨g, done, after, hg, hdone, hafter, ?_⟩
  rw [htopo, hrtts] at delay
  exact delay.trans (by decide +kernel)

end LinkSettings
