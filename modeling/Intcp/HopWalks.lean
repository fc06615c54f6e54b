import Mathlib.Data.List.Chain

/-!
# Packets forwarded hop by hop

Each node either keeps a packet, hands it to one neighbour, or drops it.
Forwarding is deterministic, so a packet has at most one journey, and a journey
is known once the hop at each of its nodes is.
-/

namespace HopWalks

universe u
variable {V : Type u}

/-- What a node does with a packet. -/
inductive Hop (V : Type u) where
  | deliver
  | next (neighbour : V)
  | drop
  deriving DecidableEq

/-- A packet handed to the first node visits exactly these nodes, and the last one keeps it. -/
def Visits (hop : V → Hop V) : List V → Prop
  | [] => False
  | [a] => hop a = .deliver
  | a :: b :: rest => hop a = .next b ∧ Visits hop (b :: rest)

section Journeys

variable {hop : V → Hop V}

instance decidableVisits [DecidableEq V] : ∀ path, Decidable (Visits hop path)
  | [] => inferInstanceAs (Decidable False)
  | [a] => inferInstanceAs (Decidable (hop a = .deliver))
  | a :: b :: rest =>
    haveI := decidableVisits (b :: rest)
    inferInstanceAs (Decidable (hop a = .next b ∧ Visits hop (b :: rest)))

theorem visits_of_isChain {path : List V} (chain : path.IsChain fun a b => hop a = .next b)
    {z : V} (hz : path.getLast? = some z) (kept : hop z = .deliver) : Visits hop path := by
  induction path with
  | nil => cases hz
  | cons a rest ih =>
    cases rest with
    | nil =>
      obtain rfl : a = z := by simpa using hz
      exact kept
    | cons b rest =>
      obtain ⟨hab, hrest⟩ := List.isChain_cons_cons.mp chain
      exact ⟨hab, ih hrest (by simpa using hz)⟩

/-- The journey back: what `chain` says of each hop, read from the other end. -/
theorem visits_reverse_of_isChain {path : List V} (chain : path.IsChain fun a b => hop b = .next a)
    {z : V} (hz : path.head? = some z) (kept : hop z = .deliver) : Visits hop path.reverse := by
  have hlast : path.reverse.getLast? = some z := by rw [List.getLast?_reverse, hz]
  exact visits_of_isChain (List.isChain_reverse.mpr chain) hlast kept

/-- Two journeys from the same node are the same journey. -/
theorem visits_unique {a : V} {p q : List V} (hp : Visits hop (a :: p)) (hq : Visits hop (a :: q)) :
    p = q := by
  induction p generalizing a q with
  | nil =>
    cases q with
    | nil => rfl
    | cons c q => cases hp.symm.trans hq.1
  | cons b p ih =>
    cases q with
    | nil => cases hq.symm.trans hp.1
    | cons c q =>
      obtain rfl : b = c := by
        have h := hp.1.symm.trans hq.1
        injection h
      rw [ih hp.2 hq.2]

/-- A node of a journey that keeps packets is its last. -/
lemma deliver_last {path : List V} (h : Visits hop path) {a : V} (ha : a ∈ path)
    (kept : hop a = .deliver) : path.getLast? = some a := by
  induction path with
  | nil => cases ha
  | cons c rest ih =>
    cases rest with
    | nil =>
      obtain rfl : a = c := by simpa using ha
      rfl
    | cons b rest =>
      have hb : a ∈ b :: rest := by
        rcases List.mem_cons.mp ha with rfl | hb
        · cases kept.symm.trans h.1
        · exact hb
      simpa using ih h.2 hb

/-- Whatever a node of a journey hands packets to is on the journey as well. -/
lemma next_mem {path : List V} (h : Visits hop path) {a b : V} (ha : a ∈ path)
    (hab : hop a = .next b) : b ∈ path := by
  induction path with
  | nil => cases ha
  | cons c rest ih =>
    cases rest with
    | nil =>
      obtain rfl : a = c := by simpa using ha
      cases hab.symm.trans h
    | cons d rest =>
      rcases List.mem_cons.mp ha with rfl | hd
      · have hbd : b = d := by
          have same := hab.symm.trans h.1
          injection same
        exact hbd ▸ List.mem_cons_of_mem _ List.mem_cons_self
      · exact List.mem_cons_of_mem _ (ih h.2 hd)

/-- A journey hop by hop. -/
lemma isChain_of_visits {path : List V} (h : Visits hop path) :
    path.IsChain fun a b => hop a = .next b := by
  induction path with
  | nil => cases h
  | cons a rest ih =>
    cases rest with
    | nil => exact List.isChain_singleton a
    | cons b rest => exact List.isChain_cons_cons.mpr ⟨h.1, ih h.2⟩

lemma deliver_of_visits {path : List V} (h : Visits hop path) {z : V}
    (hz : path.getLast? = some z) : hop z = .deliver := by
  induction path with
  | nil => cases h
  | cons a rest ih =>
    cases rest with
    | nil =>
      obtain rfl : a = z := by simpa using hz
      exact h
    | cons b rest => exact ih h.2 (by simpa using hz)

end Journeys

end HopWalks
