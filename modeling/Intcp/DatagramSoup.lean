import Intcp.StepRuns
import Mathlib.Data.Fintype.Basic
import Mathlib.Logic.Function.Basic

/-!
# Nodes over an unreliable medium

Every node keeps a record of what it has sent. The medium may hand any of it to
any node, at any time, in any order, again and again or never. A property of
single nodes is one of the network if it makes what a node sends harmless and is
kept by local steps and by the arrival of harmless datagrams.
-/

namespace DatagramSoup

open StepRuns

universe u v w x
variable {Place : Type u} {Node : Type v} {Datagram : Type w} {Act : Type x}

/-- What the nodes of a network do: `none` where a step does not return. -/
structure Behaviour (Place : Type u) (Node : Type v) (Datagram : Type w) (Act : Type x) where
  sent : Node → List Datagram
  receive : Place → Datagram → Node → Option Node
  act : Place → Act → Node → Option Node

inductive Event (Place : Type u) (Datagram : Type w) (Act : Type x) where
  | arrive (at_ : Place) (data : Datagram)
  | act (at_ : Place) (a : Act)

variable [DecidableEq Place] (B : Behaviour Place Node Datagram Act)

def step : Event Place Datagram Act → (Place → Node) → Option (Place → Node)
  | .arrive i data, nodes => (B.receive i data (nodes i)).map (Function.update nodes i)
  | .act i a, nodes => (B.act i a (nodes i)).map (Function.update nodes i)

/-- Only what some node has sent arrives; the local steps are the allowed ones. -/
def Possible (Allowed : Place → Node → Act → Prop) (nodes : Place → Node) :
    Event Place Datagram Act → Prop
  | .arrive _ data => ∃ j, data ∈ B.sent (nodes j)
  | .act i a => Allowed i (nodes i) a

instance decidablePossible [Fintype Place] [DecidableEq Datagram]
    (Allowed : Place → Node → Act → Prop) [∀ i n a, Decidable (Allowed i n a)]
    (nodes : Place → Node) : ∀ event, Decidable (Possible B Allowed nodes event)
  | .arrive _ data => inferInstanceAs (Decidable (∃ j, data ∈ B.sent (nodes j)))
  | .act i a => inferInstanceAs (Decidable (Allowed i (nodes i) a))

variable {B} {Allowed : Place → Node → Act → Prop} (Inv : Place → Node → Prop)
  (Harmless : Datagram → Prop)

lemma update_invariant {nodes : Place → Node} (all : ∀ i, Inv i (nodes i)) {i : Place} {n : Node}
    (new : Inv i n) : ∀ j, Inv j (Function.update nodes i n j) := by
  intro j
  by_cases same : j = i
  · rw [same, Function.update_self]
    exact new
  · rw [Function.update_of_ne same]
    exact all j

/-- The invariant of the nodes holds in every state of every possible run. -/
theorem network_invariant
    (sends : ∀ i n, Inv i n → ∀ data ∈ B.sent n, Harmless data)
    (receives : ∀ i n n' data, Inv i n → Harmless data → B.receive i data n = some n' → Inv i n')
    (acts : ∀ i n n' a, Inv i n → Allowed i n a → B.act i a n = some n' → Inv i n')
    {start nodes : Place → Node} (initially : ∀ i, Inv i (start i))
    {events : List (Event Place Datagram Act)}
    (possible : Along (step B) (Possible B Allowed) start events)
    (reached : run (step B) start events = some nodes) : ∀ i, Inv i (nodes i) := by
  refine run_invariant_along (fun nodes : Place → Node => ∀ i, Inv i (nodes i)) ?_ initially
    possible reached
  intro nodes next event all good stepped
  cases event with
  | arrive i data =>
    obtain ⟨n, hn, rfl⟩ := Option.map_eq_some_iff.mp stepped
    obtain ⟨j, hj⟩ := good
    exact update_invariant Inv all (receives i _ n data (all i) (sends j _ (all j) data hj) hn)
  | act i a =>
    obtain ⟨n, hn, rfl⟩ := Option.map_eq_some_iff.mp stepped
    exact update_invariant Inv all (acts i _ n a (all i) good hn)

end DatagramSoup
