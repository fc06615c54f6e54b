import Intcp.StepRuns
import Mathlib.Data.List.Induction
import Mathlib.Logic.Function.Basic

/-!
# Components that share a store

A process of components that come into being one by one and work on one store, and
that ends with the first component that dies. What a component lives through is a run
of that component alone, in which the work of all others appears as foreign actions
on the store: no other trace of them reaches it, and none of its own actions is lost,
repeated or moved.
-/

namespace SharedStore

open StepRuns

universe u v w x
variable {Key : Type u} {Node : Type v} {Store : Type w} {Act : Type x}

/-- What the components do; `none` where an action does not return. -/
structure Family (Key : Type u) (Node : Type v) (Store : Type w) (Act : Type x) where
  store : Node → Store
  withStore : Store → Node → Node
  alive : Node → Bool
  step : Key → Act → Node → Option Node

/-- A component in the map has the store as it was when it was last used. -/
structure Host (Key : Type u) (Node : Type v) (Store : Type w) where
  nodes : Key → Option Node
  store : Store
  exited : Bool

inductive Event (Key : Type u) (Node : Type v) (Act : Type x) where
  | create (key : Key) (node : Node)
  | act (key : Key) (a : Act)

/-- The store is a field of a component, and what an action does to it, foreign actions of
any other living component do. -/
structure Lawful (C : Family Key Node Store Act) (own : Act → Bool) : Prop where
  store_with : ∀ s n, C.store (C.withStore s n) = s
  with_store : ∀ n, C.withStore (C.store n) n = n
  foreign : ∀ p a n n', C.step p a n = some n' → ∀ q m, C.alive m = true →
    ∃ acts, (∀ b ∈ acts, own b = false) ∧
      run (C.step q) (C.withStore (C.store n) m) acts = some (C.withStore (C.store n') m)

/-- What `q` has lived through since `node`, when the store was `s`. -/
def Lived (C : Family Key Node Store Act) (own : Act → Bool) (s : Store) (q : Key)
    (node now : Node) (acts : List Act) : Prop :=
  ∃ lived, run (C.step q) (C.withStore s node) lived = some now ∧
    lived.filter own = acts.filter own

section

variable {C : Family Key Node Store Act} {own : Act → Bool}

lemma Lived.snoc {s : Store} {q : Key} {node now next : Node} {acts : List Act} {a : Act}
    (h : Lived C own s q node now acts) (hstep : C.step q a now = some next) :
    Lived C own s q node next (acts ++ [a]) := by
  obtain ⟨lived, hrun, hfilter⟩ := h
  refine ⟨lived ++ [a], ?_, ?_⟩
  · rw [run_snoc, hrun]
    exact hstep
  · rw [List.filter_append, List.filter_append, hfilter]

lemma Lived.foreign {s : Store} {q : Key} {node now next : Node} {acts more : List Act}
    (h : Lived C own s q node now acts) (foreign : ∀ b ∈ more, own b = false)
    (hrun : run (C.step q) now more = some next) : Lived C own s q node next acts := by
  obtain ⟨lived, hlived, hfilter⟩ := h
  refine ⟨lived ++ more, ?_, ?_⟩
  · rw [run_append, hlived]
    exact hrun
  · have hnone : more.filter own = [] := by
      rw [List.filter_eq_nil_iff]
      exact fun b hb => by simp [foreign b hb]
    rw [List.filter_append, hnone, List.append_nil, hfilter]

end

section Steps

variable [DecidableEq Key] (C : Family Key Node Store Act)

def create (key : Key) (node : Node) (h : Host Key Node Store) : Host Key Node Store :=
  { h with nodes := Function.update h.nodes key (some node) }

def act (key : Key) (a : Act) (h : Host Key Node Store) : Option (Host Key Node Store) :=
  (h.nodes key).bind fun node =>
    (C.step key a (C.withStore h.store node)).map fun next =>
      { nodes := Function.update h.nodes key (some next)
        store := C.store next
        exited := !C.alive next }

def step : Event Key Node Act → Host Key Node Store → Option (Host Key Node Store)
  | .create key node, h =>
    if h.exited ∨ (h.nodes key).isSome ∨ C.alive node = false then none
    else some (create key node h)
  | .act key a, h => if h.exited then none else act C key a h

/-- The actions on one component, in order. -/
def actsOf (key : Key) : List (Event Key Node Act) → List Act
  | [] => []
  | .create _ _ :: rest => actsOf key rest
  | .act other a :: rest => if other = key then a :: actsOf key rest else actsOf key rest

lemma update_eq_some {nodes : Key → Option Node} {key q : Key} {node n : Node}
    (h : Function.update nodes key (some node) q = some n) :
    (q = key ∧ n = node) ∨ (q ≠ key ∧ nodes q = some n) := by
  by_cases hq : q = key
  · subst hq
    rw [Function.update_self] at h
    exact Or.inl ⟨rfl, (Option.some.inj h).symm⟩
  · rw [Function.update_of_ne hq] at h
    exact Or.inr ⟨hq, h⟩

lemma update_eq_none {nodes : Key → Option Node} {key q : Key} {node : Node}
    (h : Function.update nodes key (some node) q = none) : q ≠ key ∧ nodes q = none := by
  by_cases hq : q = key
  · subst hq
    rw [Function.update_self] at h
    cases h
  · rw [Function.update_of_ne hq] at h
    exact ⟨hq, h⟩

lemma actsOf_append (key : Key) (events more : List (Event Key Node Act)) :
    actsOf key (events ++ more) = actsOf key events ++ actsOf key more := by
  induction events with
  | nil => rfl
  | cons event events ih =>
    cases event with
    | create other node => exact ih
    | act other a =>
      rw [List.cons_append, actsOf, actsOf, ih]
      split <;> rfl

variable {C} {own : Act → Bool} {start h : Host Key Node Store}

lemma act_nodes {key : Key} {a : Act} {h' : Host Key Node Store} (hact : act C key a h = some h') :
    ∃ node next, h.nodes key = some node ∧ h'.nodes = Function.update h.nodes key (some next) := by
  obtain ⟨node, hnode, hact⟩ := Option.bind_eq_some_iff.mp hact
  obtain ⟨next, _, rfl⟩ := Option.map_eq_some_iff.mp hact
  exact ⟨node, next, hnode, rfl⟩

lemma actsOf_act (key : Key) (events : List (Event Key Node Act)) (a : Act) :
    actsOf key (events ++ [.act key a]) = actsOf key events ++ [a] := by
  rw [actsOf_append, actsOf, if_pos rfl]
  rfl

lemma actsOf_other {key q : Key} (other : q ≠ key) (events : List (Event Key Node Act)) (a : Act) :
    actsOf q (events ++ [.act key a]) = actsOf q events := by
  rw [actsOf_append, actsOf, if_neg (Ne.symm other)]
  exact List.append_nil _

lemma actsOf_create (key q : Key) (events : List (Event Key Node Act)) (node : Node) :
    actsOf q (events ++ [.create key node]) = actsOf q events := by
  rw [actsOf_append]
  exact List.append_nil _

/-- The state after `events`: a living component could have seen the store change, and
every component in the map has. -/
structure Projects (C : Family Key Node Store Act) (own : Act → Bool)
    (start h : Host Key Node Store) (events : List (Event Key Node Act)) : Prop where
  alive : h.exited = false → ∀ q n, h.nodes q = some n → C.alive n = true
  watched : ∀ q m, C.alive m = true → Lived C own start.store q m (C.withStore h.store m) []
  absent : ∀ q, h.nodes q = none →
    start.nodes q = none ∧ actsOf q events = [] ∧ ∀ node, .create q node ∉ events
  lived : ∀ q n, h.nodes q = some n → ∃ node,
    (start.nodes q = some node ∨ start.nodes q = none ∧ Event.create q node ∈ events) ∧
    Lived C own start.store q node (C.withStore h.store n) (actsOf q events)

lemma projects_create {events : List (Event Key Node Act)} {key : Key}
    {node : Node} (now : Projects C own start h events) (absent : h.nodes key = none)
    (living : C.alive node = true) :
    Projects C own start (create key node h) (events ++ [.create key node]) := by
  refine ⟨?_, now.watched, ?_, ?_⟩
  · intro hexited q n hn
    rcases update_eq_some hn with ⟨rfl, rfl⟩ | ⟨_, hn⟩
    · exact living
    · exact now.alive hexited q n hn
  · intro q hn
    obtain ⟨hq, hn⟩ := update_eq_none hn
    rw [actsOf_create]
    simpa [hq] using now.absent q hn
  · intro q n hn
    rw [actsOf_create]
    rcases update_eq_some hn with ⟨rfl, rfl⟩ | ⟨_, hn⟩
    · obtain ⟨hstart, hnone, _⟩ := now.absent q absent
      rw [hnone]
      exact ⟨n, Or.inr ⟨hstart, by simp⟩, now.watched q n living⟩
    · obtain ⟨old, hold, hlived⟩ := now.lived q n hn
      exact ⟨old, hold.imp id fun ⟨hs, he⟩ => ⟨hs, List.mem_append_left _ he⟩, hlived⟩

lemma projects_act (law : Lawful C own) {events : List (Event Key Node Act)} {key : Key} {a : Act}
    {h' : Host Key Node Store} (now : Projects C own start h events) (running : h.exited = false)
    (hact : act C key a h = some h') : Projects C own start h' (events ++ [.act key a]) := by
  obtain ⟨node, hnode, hact⟩ := Option.bind_eq_some_iff.mp hact
  obtain ⟨next, hstep, rfl⟩ := Option.map_eq_some_iff.mp hact
  have hforeign := law.foreign key a _ next hstep
  rw [law.store_with] at hforeign
  refine ⟨?_, ?_, ?_, ?_⟩
  · intro hexited q n hn
    rcases update_eq_some hn with ⟨rfl, rfl⟩ | ⟨_, hn⟩
    · simpa using hexited
    · exact now.alive running q n hn
  · intro q m living
    obtain ⟨acts, hnone, hrun⟩ := hforeign q m living
    exact (now.watched q m living).foreign hnone hrun
  · intro q hn
    obtain ⟨hq, hn⟩ := update_eq_none hn
    rw [actsOf_other hq]
    simpa using now.absent q hn
  · intro q n hn
    rcases update_eq_some hn with ⟨rfl, rfl⟩ | ⟨hq, hn⟩
    · obtain ⟨old, hold, hlived⟩ := now.lived q node hnode
      refine ⟨old, hold.imp id fun ⟨hs, he⟩ => ⟨hs, List.mem_append_left _ he⟩, ?_⟩
      rw [actsOf_act, law.with_store]
      exact hlived.snoc hstep
    · obtain ⟨old, hold, hlived⟩ := now.lived q n hn
      refine ⟨old, hold.imp id fun ⟨hs, he⟩ => ⟨hs, List.mem_append_left _ he⟩, ?_⟩
      obtain ⟨acts, hnone, hrun⟩ := hforeign q n (now.alive running q n hn)
      rw [actsOf_other hq]
      exact hlived.foreign hnone hrun

/-- Every component of a host has lived through its own actions, in order, and foreign ones. -/
theorem run_projects (law : Lawful C own)
    (alive : ∀ q n, start.nodes q = some n → C.alive n = true)
    {events : List (Event Key Node Act)} (reached : run (step C) start events = some h) :
    Projects C own start h events := by
  induction events using List.reverseRecOn generalizing h with
  | nil =>
    obtain rfl := Option.some.inj reached
    refine ⟨fun _ => alive, fun q m _ => ⟨[], rfl, rfl⟩, fun q hq => ⟨hq, rfl, nofun⟩, ?_⟩
    exact fun q n hn => ⟨n, Or.inl hn, [], rfl, rfl⟩
  | append_singleton events event ih =>
    rw [run_snoc] at reached
    obtain ⟨mid, hmid, hstep⟩ := Option.bind_eq_some_iff.mp reached
    have now := ih hmid
    cases event with
    | create key node =>
      rw [step] at hstep
      split at hstep
      · cases hstep
      · rename_i hfree
        obtain rfl := Option.some.inj hstep
        simp only [not_or, Bool.not_eq_true, Option.isSome_eq_false_iff, Option.isNone_iff_eq_none,
          Bool.not_eq_false] at hfree
        exact projects_create now hfree.2.1 hfree.2.2
    | act key a =>
      rw [step] at hstep
      split at hstep
      · cases hstep
      · rename_i hrunning
        exact projects_act law now (Bool.eq_false_iff.mpr hrunning) hstep

end Steps

end SharedStore
