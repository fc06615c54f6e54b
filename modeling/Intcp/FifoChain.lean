import Intcp.StepRuns
import Mathlib.Data.List.Basic
import Mathlib.Logic.Function.Basic

/-!
# Chains of relays over links that keep order

Node `i` sends to node `i + 1` over a link that loses nothing and keeps the order;
what goes back may be lost, doubled and reordered. A relay that passes on, at any
time, the front of what it has received makes the whole chain deliver the front of
what the first node was given, however the nodes take turns.
-/

namespace FifoChain

open StepRuns

universe u v w x
variable {Node : Type u} {Datagram : Type v} {Act : Type w} {Item : Type x}

structure Behaviour (Node : Type u) (Datagram : Type v) (Act : Type w) where
  sent : Node → List Datagram
  back : Node → List Datagram
  receive : Nat → Datagram → Node → Option Node
  hear : Nat → Datagram → Node → Option Node
  act : Nat → Act → Node → Option Node

/-- A node, and how much it has taken from the link that leads to it. -/
structure Place (Node : Type u) where
  node : Node
  taken : Nat

inductive Event (Datagram : Type v) (Act : Type w) where
  | pass (i : Nat)
  | feedback (i : Nat) (data : Datagram)
  | act (i : Nat) (a : Act)

variable (B : Behaviour Node Datagram Act)

def step : Event Datagram Act → (Nat → Place Node) → Option (Nat → Place Node)
  | .pass i, places =>
    match (B.sent (places i).node)[(places (i + 1)).taken]? with
    | none => some places
    | some data => (B.receive (i + 1) data (places (i + 1)).node).map fun n =>
        Function.update places (i + 1) ⟨n, (places (i + 1)).taken + 1⟩
  | .feedback i data, places => (B.hear i data (places i).node).map fun n =>
      Function.update places i ⟨n, (places i).taken⟩
  | .act i a, places => (B.act i a (places i).node).map fun n =>
      Function.update places i ⟨n, (places i).taken⟩

/-- What a node hears was sent back by the next one; the other steps are the allowed ones. -/
def Possible (Allowed : Nat → Node → Act → Prop) (places : Nat → Place Node) :
    Event Datagram Act → Prop
  | .pass _ => True
  | .feedback i data => data ∈ B.back (places (i + 1)).node
  | .act i a => Allowed i (places i).node a

instance decidablePossible [DecidableEq Datagram] (Allowed : Nat → Node → Act → Prop)
    [∀ i n a, Decidable (Allowed i n a)] (places : Nat → Place Node) :
    ∀ event, Decidable (Possible B Allowed places event)
  | .pass _ => inferInstanceAs (Decidable True)
  | .feedback i data => inferInstanceAs (Decidable (data ∈ B.back (places (i + 1)).node))
  | .act i a => inferInstanceAs (Decidable (Allowed i (places i).node a))

/-- `Inv i got n`: node `i` is in state `n` after it was given the items `got`. -/
structure Relays (items : Datagram → List Item) (Stream : List Item → Prop)
    (Quiet : Datagram → Prop) (Inv : Nat → List Item → Node → Prop)
    (Allowed : Nat → Node → Act → Prop) : Prop where
  closed : ∀ {got more}, got <+: more → Stream more → Stream got
  source : ∀ {got n}, Inv 0 got n → Stream got
  emits : ∀ {i got n}, Inv i got n → Stream got → (B.sent n).flatMap items <+: got
  quiet : ∀ {i got n}, Inv i got n → ∀ data ∈ B.back n, Quiet data
  receives : ∀ {i got n n' data}, Inv (i + 1) got n → Stream (got ++ items data) →
    B.receive (i + 1) data n = some n' → Inv (i + 1) (got ++ items data) n' ∧ B.sent n <+: B.sent n'
  hears : ∀ {i got n n' data}, Inv i got n → Stream got → Quiet data →
    B.hear i data n = some n' → Inv i got n' ∧ B.sent n <+: B.sent n'
  acts : ∀ {i got n n' a}, Inv i got n → Stream got → Allowed i n a → B.act i a n = some n' →
    ∃ more, Inv i (got ++ more) n' ∧ (i ≠ 0 → more = []) ∧ B.sent n <+: B.sent n'

/-- Each node was given what the node before it had sent, as far as it has taken it. -/
structure Linked (items : Datagram → List Item) (Inv : Nat → List Item → Node → Prop)
    (got : Nat → List Item) (places : Nat → Place Node) : Prop where
  inv : ∀ i, Inv i (got i) (places i).node
  within : ∀ i, (places (i + 1)).taken ≤ (B.sent (places i).node).length
  given : ∀ i, got (i + 1) =
    ((B.sent (places i).node).take (places (i + 1)).taken).flatMap items

variable {B} {items : Datagram → List Item} {Stream : List Item → Prop} {Quiet : Datagram → Prop}
  {Inv : Nat → List Item → Node → Prop} {Allowed : Nat → Node → Act → Prop}

lemma take_prefix_flatMap (sent : List Datagram) (n : Nat) :
    (sent.take n).flatMap items <+: sent.flatMap items := by
  refine ⟨(sent.drop n).flatMap items, ?_⟩
  rw [← List.flatMap_append, List.take_append_drop]

section Chains

variable {got : Nat → List Item} {places : Nat → Place Node}
  (relays : Relays B items Stream Quiet Inv Allowed) (linked : Linked B items Inv got places)
include relays linked

/-- What any node was given is the front of what the first one was given. -/
theorem Linked.from_source (i : Nat) : got i <+: got 0 := by
  induction i with
  | zero => exact List.prefix_rfl
  | succ i ih =>
    have hstream := relays.closed ih (relays.source (linked.inv 0))
    rw [linked.given i]
    exact ((take_prefix_flatMap _ _).trans (relays.emits (linked.inv i) hstream)).trans ih

lemma Linked.stream (i : Nat) : Stream (got i) :=
  relays.closed (linked.from_source relays i) (relays.source (linked.inv 0))

omit relays in
/-- A node goes on while what it had sent stays; only the first may be given more. -/
lemma Linked.local_step {i : Nat} {n : Node} {more : List Item}
    (inv : Inv i (got i ++ more) n) (only : i ≠ 0 → more = [])
    (grows : B.sent (places i).node <+: B.sent n) :
    Linked B items Inv (Function.update got i (got i ++ more))
      (Function.update places i ⟨n, (places i).taken⟩) := by
  have htaken : ∀ j, (Function.update places i ⟨n, (places i).taken⟩ j).taken =
      (places j).taken := by
    intro j
    by_cases hj : j = i
    · rw [hj, Function.update_self]
    · rw [Function.update_of_ne hj]
  refine ⟨?_, ?_, ?_⟩
  · intro j
    by_cases hj : j = i
    · subst hj
      rw [Function.update_self, Function.update_self]
      exact inv
    · rw [Function.update_of_ne hj, Function.update_of_ne hj]
      exact linked.inv j
  · intro j
    have hold := linked.within j
    rw [htaken]
    by_cases hj : j = i
    · subst hj
      rw [Function.update_self]
      exact Nat.le_trans hold grows.length_le
    · rw [Function.update_of_ne hj]
      exact hold
  · intro j
    have hgot : Function.update got i (got i ++ more) (j + 1) = got (j + 1) := by
      by_cases hnext : j + 1 = i
      · rw [hnext, Function.update_self, only (by omega), List.append_nil]
      · rw [Function.update_of_ne hnext]
    rw [htaken, hgot, linked.given j]
    by_cases hj : j = i
    · subst hj
      obtain ⟨later, hlater⟩ := grows
      rw [Function.update_self, ← hlater, List.take_append_of_le_length (linked.within j)]
    · rw [Function.update_of_ne hj]

/-- The next datagram of a link moves on. -/
lemma Linked.passed {i : Nat} {data : Datagram} {n : Node}
    (next : (B.sent (places i).node)[(places (i + 1)).taken]? = some data)
    (received : B.receive (i + 1) data (places (i + 1)).node = some n) :
    Linked B items Inv (Function.update got (i + 1) (got (i + 1) ++ items data))
      (Function.update places (i + 1) ⟨n, (places (i + 1)).taken + 1⟩) := by
  obtain ⟨hlength, hdata⟩ := List.getElem?_eq_some_iff.mp next
  have hgiven : ((B.sent (places i).node).take ((places (i + 1)).taken + 1)).flatMap items =
      got (i + 1) ++ items data := by
    rw [List.take_succ_eq_append_getElem hlength, hdata, List.flatMap_append, ← linked.given i,
      List.flatMap_singleton]
  have hstream : Stream (got (i + 1) ++ items data) := by
    refine relays.closed ?_ (linked.stream relays i)
    rw [← hgiven]
    exact (take_prefix_flatMap _ _).trans (relays.emits (linked.inv i) (linked.stream relays i))
  obtain ⟨hinv, hgrows⟩ := relays.receives (linked.inv (i + 1)) hstream received
  refine ⟨?_, ?_, ?_⟩
  · intro j
    by_cases hj : j = i + 1
    · subst hj
      rw [Function.update_self, Function.update_self]
      exact hinv
    · rw [Function.update_of_ne hj, Function.update_of_ne hj]
      exact linked.inv j
  · intro j
    by_cases hj : j = i
    · subst hj
      rw [Function.update_self, Function.update_of_ne (by omega)]
      exact hlength
    · rw [Function.update_of_ne (by omega)]
      have hold := linked.within j
      by_cases hsame : j = i + 1
      · subst hsame
        rw [Function.update_self]
        exact Nat.le_trans hold hgrows.length_le
      · rw [Function.update_of_ne hsame]
        exact hold
  · intro j
    by_cases hj : j = i
    · subst hj
      rw [Function.update_self, Function.update_self, Function.update_of_ne (by omega), hgiven]
    · rw [Function.update_of_ne (by omega), Function.update_of_ne (by omega), linked.given j]
      by_cases hsame : j = i + 1
      · subst hsame
        obtain ⟨later, hlater⟩ := hgrows
        rw [Function.update_self, ← hlater, List.take_append_of_le_length (linked.within _)]
      · rw [Function.update_of_ne hsame]

lemma Linked.step {next : Nat → Place Node} {event : Event Datagram Act}
    (possible : Possible B Allowed places event) (stepped : step B event places = some next) :
    ∃ got', Linked B items Inv got' next := by
  cases event with
  | pass i =>
    rw [FifoChain.step] at stepped
    split at stepped
    · cases stepped
      exact ⟨got, linked⟩
    · rename_i data hnext
      obtain ⟨n, hn, rfl⟩ := Option.map_eq_some_iff.mp stepped
      exact ⟨_, linked.passed relays hnext hn⟩
  | feedback i data =>
    obtain ⟨n, hn, rfl⟩ := Option.map_eq_some_iff.mp stepped
    have hquiet := relays.quiet (linked.inv (i + 1)) data possible
    obtain ⟨hinv, hgrows⟩ := relays.hears (linked.inv i) (linked.stream relays i) hquiet hn
    rw [← List.append_nil (got i)] at hinv
    exact ⟨_, linked.local_step hinv (fun _ => rfl) hgrows⟩
  | act i a =>
    obtain ⟨n, hn, rfl⟩ := Option.map_eq_some_iff.mp stepped
    obtain ⟨more, hinv, honly, hgrows⟩ :=
      relays.acts (linked.inv i) (linked.stream relays i) possible hn
    exact ⟨_, linked.local_step hinv honly hgrows⟩

end Chains

/-- In every run, each node was given the front of what the first node was given. -/
theorem run_linked (relays : Relays B items Stream Quiet Inv Allowed)
    {start places : Nat → Place Node} (initially : ∀ i, Inv i [] (start i).node)
    (none_taken : ∀ i, (start i).taken = 0) {events : List (Event Datagram Act)}
    (possible : Along (step B) (Possible B Allowed) start events)
    (reached : run (step B) start events = some places) :
    ∃ got, Linked B items Inv got places ∧ ∀ i, got i <+: got 0 := by
  have hstart : ∃ got, Linked B items Inv got start := by
    refine ⟨fun _ => [], initially, ?_, ?_⟩
    · intro i
      rw [none_taken]
      exact Nat.zero_le _
    · intro i
      rw [none_taken]
      rfl
  obtain ⟨got, linked⟩ := run_invariant_along (fun places => ∃ got, Linked B items Inv got places)
    (fun _ _ _ ⟨_, linked⟩ good stepped => linked.step relays good stepped) hstart possible reached
  exact ⟨got, linked, linked.from_source relays⟩

end FifoChain
