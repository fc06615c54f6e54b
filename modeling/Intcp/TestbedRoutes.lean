import Intcp.HopWalks
import Intcp.StepRuns
import Mathlib.Data.List.Basic
import Mathlib.Data.List.Chain
import Mathlib.Data.List.Range
import Mathlib.Logic.Function.Basic

/-!
# The routes of the testbed

`RealNetwork.py` and the route part of `DynamicLinkUpdate`: links are numbered by
their place in `isls`, that number makes the /24 of the link, and the routing
tables of a topology name the neighbours on its path by these addresses. The
commands succeed as long as the numbers fit an IPv4 address, and a host forwards
by longest prefix, its connected segments first.
-/

namespace TestbedRoutes

open HopWalks

/-- The hosts; `m num` is the satellite of that number. -/
inductive Node where
  | h1
  | gs1
  | m (num : Int)
  | gs2
  | h2
  deriving DecidableEq, Inhabited

/-- The address 10.0.`seg`.`host`, if the numbers fit. -/
structure Addr where
  seg : Nat
  host : Nat
  deriving DecidableEq

def Addr.Valid (a : Addr) : Prop := a.seg ≤ 255 ∧ a.host ≤ 255

instance (a : Addr) : Decidable a.Valid := inferInstanceAs (Decidable (_ ∧ _))

/-- An interface of `node` to the switch named after the two ends of its link. -/
structure Intf where
  node : Node
  switch : Node × Node
  ip : Addr
  deriving DecidableEq

/-- A route to 10.0.`net`.0/24, or the default route. -/
structure Route where
  net : Option Nat
  gw : Addr
  deriving DecidableEq

structure Route.Valid (r : Route) : Prop where
  net : ∀ seg ∈ r.net, seg ≤ 255
  gw : r.gw.Valid

-- In `isls`, 0 stands for gs1 and -1 for gs2, each on its own side only.
def nameA (numA : Int) : Node := if numA = 0 then .gs1 else .m numA

def nameB (numB : Int) : Node := if numB = -1 then .gs2 else .m numB

def addIsl (isl : Int × Int) (i : Nat) : List Intf :=
  let linkName := (nameA isl.1, nameB isl.2)
  [⟨nameA isl.1, linkName, ⟨i + 2, 1⟩⟩, ⟨nameB isl.2, linkName, ⟨i + 2, 2⟩⟩]

/-- 10.0.1.1 is reserved for h1, 10.0.100.2 for h2. -/
def groundLinks : List Intf :=
  [⟨.h1, (.h1, .gs1), ⟨1, 1⟩⟩, ⟨.gs1, (.h1, .gs1), ⟨1, 2⟩⟩,
    ⟨.gs2, (.gs2, .h2), ⟨100, 1⟩⟩, ⟨.h2, (.gs2, .h2), ⟨100, 2⟩⟩]

def createAllLinks (isls : List (Int × Int)) : List Intf :=
  isls.zipIdx.flatMap (fun isl => addIsl isl.1 isl.2) ++ groundLinks

/-- The segment of a link on the path, and the host number of its left end there. -/
structure Seg where
  seg : Nat
  left : Nat
  deriving DecidableEq, Inhabited

def Seg.leftEnd (s : Seg) : Addr := ⟨s.seg, s.left⟩

def Seg.rightEnd (s : Seg) : Addr := ⟨s.seg, 3 - s.left⟩

/-- `isls.index`, which raises where the pair is missing. -/
def index (isls : List (Int × Int)) (isl : Int × Int) : Option Nat := isls.idxOf? isl

/-- The loop over `range(len(topo)-1)`. -/
def crossSegs (isls : List (Int × Int)) : List Int → Option (List Seg)
  | a :: b :: rest => do
    let seg ← if (a, b) ∈ isls then (index isls (a, b)).map fun i => ⟨i + 2, 1⟩
      else (index isls (b, a)).map fun i => ⟨i + 2, 2⟩
    let segs ← crossSegs isls (b :: rest)
    some (seg :: segs)
  | _ => some []

def pathSegs (isls : List (Int × Int)) (topo : List Int) : Option (List Seg) := do
  let first ← topo.head?
  let up ← index isls (0, first)
  let segs ← crossSegs isls topo
  let last ← topo.getLast?
  let down ← index isls (last, -1)
  some (⟨1, 1⟩ :: ⟨up + 2, 1⟩ :: (segs ++ [⟨down + 2, 1⟩, ⟨100, 1⟩]))

def pathNodes (topo : List Int) : List Node := .h1 :: .gs1 :: (topo.map .m ++ [.gs2, .h2])

/-- What the loops of `setRoute` and `clearRoute` name: default gateways first. -/
def routeLines (nodes : List Node) (segs : List Seg) : List (Node × Route) :=
  (List.range (nodes.length - 1)).map (fun i => (nodes[i]!, ⟨none, segs[i]!.rightEnd⟩)) ++
  [(nodes[nodes.length - 1]!, ⟨none, segs[segs.length - 1]!.leftEnd⟩)] ++
  (List.range' 2 (nodes.length - 3)).flatMap fun i =>
    (List.range (i - 1)).map fun j => (nodes[i]!, ⟨some segs[j]!.seg, segs[i - 1]!.leftEnd⟩)

/-- The routing table of every host. -/
abbrev Tables := Node → List Route

def noRoutes : Tables := fun _ => []

def routeAdd (tables : Tables) (line : Node × Route) : Tables :=
  Function.update tables line.1 (tables line.1 ++ [line.2])

def routeDel (tables : Tables) (line : Node × Route) : Tables :=
  Function.update tables line.1 ((tables line.1).erase line.2)

def setRoute (isls : List (Int × Int)) (topo : Option (List Int)) (tables : Tables) :
    Option Tables :=
  match topo with
  | none => some tables
  | some topo => (pathSegs isls topo).map fun segs =>
    (routeLines (pathNodes topo) segs).foldl routeAdd tables

def clearRoute (isls : List (Int × Int)) (topo : Option (List Int)) (tables : Tables) :
    Option Tables :=
  match topo with
  | none => some tables
  | some topo => (pathSegs isls topo).map fun segs =>
    (routeLines (pathNodes topo) segs).foldl routeDel tables

/-- The last link that still gets an address is 10.0.255.0/24. -/
def Addressable (isls : List (Int × Int)) : Prop := isls.length ≤ 254

instance (isls : List (Int × Int)) : Decidable (Addressable isls) :=
  inferInstanceAs (Decidable (_ ≤ _))

/-- All commands for the links and for the routes of the topology name addresses. -/
structure Accepted (isls : List (Int × Int)) (topo : List Int) : Prop where
  links : ∀ i ∈ createAllLinks isls, i.ip.Valid
  routes : ∀ segs, pathSegs isls topo = some segs →
    ∀ line ∈ routeLines (pathNodes topo) segs, line.2.Valid

structure Testbed where
  tables : Tables
  prevTopo : List Int

/-- The net with the routes of the first topology, which the thread takes as the previous one. -/
def createDynamicNet (isls : List (Int × Int)) (initialTopo : List Int) : Option Testbed :=
  (setRoute isls (some initialTopo) noRoutes).map fun tables => ⟨tables, initialTopo⟩

/-- One pass of `DynamicLinkUpdate`, without the rates and losses it also sets. -/
def dynamicLinkUpdate (isls : List (Int × Int)) (topo : List Int) (net : Testbed) :
    Option Testbed :=
  if topo ≠ net.prevTopo then do
    let cleared ← clearRoute isls (some net.prevTopo) net.tables
    let tables ← setRoute isls (some topo) cleared
    some ⟨tables, topo⟩
  else some { net with prevTopo := topo }

def runUpdates (isls : List (Int × Int)) (initialTopo : List Int) (topos : List (List Int)) :
    Option Testbed :=
  (createDynamicNet isls initialTopo).bind fun net =>
    StepRuns.run (dynamicLinkUpdate isls) net topos

/-- The interface of `node` to a segment: the first one configured. -/
def connected (intfs : List Intf) (node : Node) (seg : Nat) : Option Intf :=
  intfs.find? fun i => i.node = node ∧ i.ip.seg = seg

/-- Who answers for `ip` on the link of `switch`. -/
def answers (intfs : List Intf) (switch : Node × Node) (ip : Addr) : Option Intf :=
  intfs.find? fun i => i.switch = switch ∧ i.ip = ip

def handTo (intfs : List Intf) (node : Node) (ip : Addr) : Hop Node :=
  match (connected intfs node ip.seg).bind fun out => answers intfs out.switch ip with
  | some i => .next i.node
  | none => .drop

def gateway (table : List Route) (dst : Addr) : Option Addr :=
  ((table.find? fun r => r.net = some dst.seg).or (table.find? fun r => r.net = none)).map Route.gw

def forward (intfs : List Intf) (tables : Tables) (dst : Addr) (node : Node) : Hop Node :=
  if (⟨node, dst⟩ : Node × Addr) ∈ intfs.map fun i => (i.node, i.ip) then .deliver
  else if (connected intfs node dst.seg).isSome then handTo intfs node dst
  else match gateway (tables node) dst with
    | some gw => handTo intfs node gw
    | none => .drop

end TestbedRoutes
