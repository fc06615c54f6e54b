import Mathlib.Data.List.Basic
import Mathlib.Data.List.Nodup
import Mathlib.Data.List.Perm.Subperm

/-!
# Bounded recency lists

Keys in the order of their last event, oldest first, at most `cap` of them. An
entry may refresh a key, which moves it to the end, or only require its
presence, which leaves a present key where it is and may drop the oldest one
to make room for an absent key.
-/

namespace LruOrder

universe u
variable {K : Type u} [DecidableEq K]

/-- Require the presence of `k`. -/
def enter (cap : Nat) (l : List K) (k : K) : List K :=
  if k ∈ l then l
  else if l.length < cap then l ++ [k] else (l ++ [k]).tail

/-- Move `k` to the end. -/
def refresh (l : List K) (k : K) : List K := l.erase k ++ [k]

def enterAll (cap : Nat) (l ks : List K) : List K := ks.foldl (enter cap) l

/-- No key of `ks` that is present when its turn comes is dropped for a later one. -/
def SparesOwn (cap : Nat) : List K → List K → Prop
  | _, [] => True
  | l, k :: ks => (k ∈ l → k ∈ enterAll cap l ks) ∧ SparesOwn cap (enter cap l k) ks

instance decidableSparesOwn (cap : Nat) : ∀ l ks : List K, Decidable (SparesOwn cap l ks)
  | _, [] => inferInstanceAs (Decidable True)
  | l, k :: ks =>
    haveI : Decidable (SparesOwn cap (enter cap l k) ks) := decidableSparesOwn cap _ ks
    inferInstanceAs (Decidable ((k ∈ l → k ∈ enterAll cap l ks) ∧ SparesOwn cap (enter cap l k) ks))

lemma enter_present {cap : Nat} {l : List K} {k : K} (h : k ∈ l) : enter cap l k = l := by
  rw [enter, if_pos h]

lemma enter_room {cap : Nat} {l : List K} {k : K} (h : k ∉ l) (room : l.length < cap) :
    enter cap l k = l ++ [k] := by
  rw [enter, if_neg h, if_pos room]

lemma enter_full {cap : Nat} {x : K} {l : List K} {k : K} (h : k ∉ x :: l)
    (full : cap ≤ (x :: l).length) : enter cap (x :: l) k = l ++ [k] := by
  rw [enter, if_neg h, if_neg (by omega)]
  rfl

lemma mem_enter_self {cap : Nat} (pos : 0 < cap) (l : List K) (k : K) : k ∈ enter cap l k := by
  by_cases h : k ∈ l
  · rwa [enter_present h]
  · cases l with
    | nil => simp [enter_room h pos]
    | cons x l =>
      by_cases room : (x :: l).length < cap
      · simp [enter_room h room]
      · have full : cap ≤ (x :: l).length := by omega
        simp [enter_full h full]

/-- Entering drops keys and adds one; it never brings back another. -/
lemma mem_of_mem_enter {cap : Nat} {l : List K} {k x : K} (h : x ∈ enter cap l k) :
    x = k ∨ x ∈ l := by
  rw [enter] at h
  split at h
  · exact Or.inr h
  · split at h
    · exact (List.mem_append.mp h).symm.imp List.mem_singleton.mp id
    · have := List.mem_of_mem_tail h
      exact (List.mem_append.mp this).symm.imp List.mem_singleton.mp id

lemma mem_of_mem_enterAll {cap : Nat} {l ks : List K} {x : K}
    (h : x ∈ enterAll cap l ks) : x ∈ ks ∨ x ∈ l := by
  induction ks generalizing l with
  | nil => exact Or.inr h
  | cons k ks ih =>
    rcases ih h with h | h
    · exact Or.inl (List.mem_cons_of_mem k h)
    · rcases mem_of_mem_enter h with rfl | h
      · exact Or.inl List.mem_cons_self
      · exact Or.inr h

lemma enter_nodup {cap : Nat} {l : List K} (k : K) (once : l.Nodup) : (enter cap l k).Nodup := by
  rw [enter]
  split
  · exact once
  · rename_i h
    have happ : (l ++ [k]).Nodup := by
      rw [List.nodup_append]
      exact ⟨once, List.nodup_singleton k, by simpa using fun a ha => ne_of_mem_of_not_mem ha h⟩
    split
    · exact happ
    · exact happ.sublist (List.tail_sublist _)

lemma enter_length_le {cap : Nat} (pos : 0 < cap) {l : List K} (k : K) (bounded : l.length ≤ cap) :
    (enter cap l k).length ≤ cap := by
  rw [enter]
  split
  · exact bounded
  · split
    · simp only [List.length_append, List.length_singleton]
      omega
    · simp only [List.length_tail, List.length_append, List.length_singleton]
      omega

lemma length_le_enter {cap : Nat} (l : List K) (k : K) : l.length ≤ (enter cap l k).length := by
  rw [enter]
  split
  · exact Nat.le_refl _
  · split
    · simp
    · simp

/-- Below the capacity nothing is dropped. -/
lemma mem_enter_of_room {cap : Nat} {l : List K} {x : K} (k : K) (room : l.length < cap)
    (h : x ∈ l) : x ∈ enter cap l k := by
  by_cases hk : k ∈ l
  · rwa [enter_present hk]
  · rw [enter_room hk room]
    exact List.mem_append_left _ h

lemma length_le_enterAll {cap : Nat} (l ks : List K) : l.length ≤ (enterAll cap l ks).length := by
  induction ks generalizing l with
  | nil => exact Nat.le_refl _
  | cons k ks ih => exact Nat.le_trans (length_le_enter l k) (ih (enter cap l k))

/-- Keys that end below the capacity have all stayed. -/
theorem mem_enterAll_of_room {cap : Nat} {l ks : List K} {x : K}
    (room : (enterAll cap l ks).length < cap) (h : x ∈ l ∨ x ∈ ks) : x ∈ enterAll cap l ks := by
  induction ks generalizing l with
  | nil =>
    rcases h with h | h
    · exact h
    · cases h
  | cons k ks ih =>
    have hlen : l.length < cap :=
      Nat.lt_of_le_of_lt (Nat.le_trans (length_le_enter l k) (length_le_enterAll _ ks)) room
    refine ih room ?_
    rcases h with h | h
    · exact Or.inl (mem_enter_of_room k hlen h)
    · rcases List.mem_cons.mp h with rfl | h
      · exact Or.inl (mem_enter_self (Nat.lt_of_le_of_lt (Nat.zero_le _) hlen) l x)
      · exact Or.inr h

/-- A key that is new, or was the last to enter, is the last to have entered. -/
lemma enter_newest {cap : Nat} (pos : 0 < cap) {l : List K} {k : K}
    (newest : k ∈ l → l.getLast? = some k) : (enter cap l k).getLast? = some k := by
  by_cases hk : k ∈ l
  · rw [enter_present hk]
    exact newest hk
  · cases l with
    | nil => simp [enter_room hk pos]
    | cons x l =>
      by_cases room : (x :: l).length < cap
      · rw [enter_room hk room, List.getLast?_concat]
      · rw [enter_full hk (Nat.not_lt.mp room), List.getLast?_concat]

lemma refresh_nodup {l : List K} (k : K) (once : l.Nodup) : (refresh l k).Nodup := by
  rw [refresh, List.nodup_append]
  refine ⟨once.erase k, List.nodup_singleton k, ?_⟩
  intro a ha b hb
  have hbk : b = k := List.mem_singleton.mp hb
  subst b
  intro hak
  exact once.not_mem_erase (hak ▸ ha)

lemma mem_refresh {l : List K} {k x : K} (present : k ∈ l) : x ∈ refresh l k ↔ x ∈ l := by
  rw [refresh, List.mem_append, List.mem_singleton]
  by_cases h : x = k
  · simp [h, present]
  · simp [h, List.mem_erase_of_ne h]

lemma refresh_length {l : List K} {k : K} (present : k ∈ l) : (refresh l k).length = l.length := by
  have := List.length_pos_of_mem present
  simp only [refresh, List.length_append, List.length_erase_of_mem present, List.length_singleton]
  omega

/-- A key survives while fewer than `cap` keys can have come after it. -/
lemma mem_enterAll_of_recent {cap : Nat} (older newer ks : List K) (k : K)
    (room : newer.length + ks.length < cap) : k ∈ enterAll cap (older ++ k :: newer) ks := by
  induction ks generalizing older newer with
  | nil => simp [enterAll]
  | cons x ks ih =>
    simp only [List.length_cons] at room
    rw [enterAll, List.foldl_cons]
    by_cases hx : x ∈ older ++ k :: newer
    · rw [enter_present hx]
      exact ih older newer (by omega)
    · have hnext : (newer ++ [x]).length + ks.length < cap := by simp; omega
      by_cases hroom : (older ++ k :: newer).length < cap
      · rw [enter_room hx hroom]
        simpa [enterAll] using ih older (newer ++ [x]) hnext
      · cases older with
        | nil => simp at hroom; omega
        | cons o older =>
          rw [List.cons_append, enter_full (by simpa using hx) (by simpa using hroom)]
          simpa [enterAll] using ih older (newer ++ [x]) hnext

/-- If no own key is dropped, all of at most `cap` keys are present in the end. -/
theorem mem_enterAll_of_sparesOwn {cap : Nat} (pos : 0 < cap) {l ks : List K}
    (few : ks.length ≤ cap) (spares : SparesOwn cap l ks) : ∀ k ∈ ks, k ∈ enterAll cap l ks := by
  induction ks generalizing l with
  | nil => simp
  | cons x ks ih =>
    simp only [List.length_cons] at few
    obtain ⟨hx, hrest⟩ := spares
    intro k hk
    rw [enterAll, List.foldl_cons]
    rcases List.mem_cons.mp hk with rfl | hk
    · by_cases present : k ∈ l
      · rw [enter_present present]
        exact hx present
      · by_cases room : l.length < cap
        · rw [enter_room present room]
          exact mem_enterAll_of_recent l [] ks k (by simp; omega)
        · cases l with
          | nil => simp at room; omega
          | cons y l =>
            rw [enter_full present (by omega)]
            exact mem_enterAll_of_recent l [] ks k (by simp; omega)
    · exact ih (by omega) hrest k hk

/-- While a key stays, each other key that enters was there from the start, takes a free place or
moves the key forward. -/
lemma length_of_mem_enterAll {cap : Nat} {l ks : List K} {x : K} (pos : 0 < cap) (once : l.Nodup)
    (bounded : l.length ≤ cap) (distinct : ks.Nodup) (other : x ∉ ks)
    (stays : x ∈ enterAll cap l ks) :
    ks.length ≤ l.idxOf x + (cap - l.length) + ks.countP (· ∈ l) := by
  induction ks generalizing l with
  | nil => exact Nat.zero_le _
  | cons k ks ih =>
    obtain ⟨hk, distinct⟩ := List.nodup_cons.mp distinct
    obtain ⟨hx, other⟩ := not_or.mp (mt List.mem_cons.mpr other)
    have later := ih (enter_nodup k once) (enter_length_le pos k bounded) distinct other stays
    have stays : x ∈ enterAll cap (enter cap l k) ks := stays
    have here : x ∈ enter cap l k := (mem_of_mem_enterAll stays).resolve_left other
    rw [List.length_cons, List.countP_cons]
    by_cases present : k ∈ l
    · rw [enter_present present] at later
      simp only [present, decide_true, if_true]
      omega
    · have fewer : ks.countP (· ∈ enter cap l k) ≤ ks.countP (· ∈ l) := by
        refine List.countP_mono_left fun a ha mem => ?_
        have hne : a ≠ k := fun h => hk (h ▸ ha)
        exact decide_eq_true ((mem_of_mem_enter (of_decide_eq_true mem)).resolve_left hne)
      have inside : x ∈ l := (mem_of_mem_enter here).resolve_left hx
      by_cases room : l.length < cap
      · rw [enter_room present room, List.idxOf_append_of_mem inside, List.length_append,
          List.length_singleton] at later
        rw [enter_room present room] at fewer
        omega
      · cases l with
        | nil => cases inside
        | cons h t =>
          rw [enter_full present (Nat.not_lt.mp room)] at later fewer here
          have behind : x ∈ t := (List.mem_append.mp here).resolve_right (by simpa using hx)
          have hne : h ≠ x := fun same => (List.nodup_cons.mp once).1 (same ▸ behind)
          rw [List.idxOf_append_of_mem behind, List.length_append, List.length_singleton] at later
          rw [List.idxOf_cons_ne _ hne, List.length_cons]
          simp only [List.length_cons] at room
          omega

/-- No key stays while twice as many others enter as there are places. -/
theorem not_mem_enterAll_of_many {cap : Nat} {l ks : List K} {x : K} (pos : 0 < cap)
    (once : l.Nodup) (bounded : l.length ≤ cap) (distinct : ks.Nodup) (other : x ∉ ks)
    (many : 2 * cap ≤ ks.length) : x ∉ enterAll cap l ks := by
  intro stays
  have counted := length_of_mem_enterAll pos once bounded distinct other stays
  have inside : x ∈ l := (mem_of_mem_enterAll stays).resolve_left other
  have place : l.idxOf x < l.length := List.idxOf_lt_length_iff.mpr inside
  have known : ks.countP (· ∈ l) ≤ l.length := by
    rw [List.countP_eq_length_filter]
    refine (List.subperm_of_subset (distinct.filter _) fun a ha => ?_).length_le
    exact of_decide_eq_true (List.mem_filter.mp ha).2
  omega

/-- How many events, of those listed latest first, came after the last one of `k`. -/
def age (events : List K) (k : K) : Nat := events.idxOf k

/-- Every key has had an event, and the keys are in the order of their last ones. -/
structure Chronological (events l : List K) : Prop where
  eventful : ∀ k ∈ l, k ∈ events
  ordered : l.Pairwise fun j k => age events k < age events j

lemma age_latest (events : List K) (k : K) : age (k :: events) k = 0 :=
  List.idxOf_cons_self

lemma age_older {events : List K} {j k : K} (h : j ≠ k) : age (k :: events) j = age events j + 1 :=
  List.idxOf_cons_ne events h.symm

lemma Chronological.sublist {events l l' : List K} (chron : Chronological events l)
    (h : l'.Sublist l) : Chronological events l' := by
  constructor
  · exact fun k hk => chron.eventful k (h.subset hk)
  · exact chron.ordered.sublist h

/-- A key that is not in the list, and has an event now, goes to the end. -/
lemma Chronological.snoc {events l : List K} {k : K} (chron : Chronological events l)
    (new : k ∉ l) : Chronological (k :: events) (l ++ [k]) := by
  have hne : ∀ j ∈ l, j ≠ k := fun j hj h => new (h ▸ hj)
  constructor
  · intro j hj
    rcases List.mem_append.mp hj with hj | hj
    · exact List.mem_cons_of_mem k (chron.eventful j hj)
    · exact List.mem_singleton.mp hj ▸ List.mem_cons_self
  · rw [List.pairwise_append]
    refine ⟨?_, List.pairwise_singleton _ k, ?_⟩
    · refine chron.ordered.imp_of_mem ?_
      intro i j hi hj h
      rw [age_older (hne i hi), age_older (hne j hj)]
      omega
    · intro i hi j hj
      rw [List.mem_singleton.mp hj, age_latest, age_older (hne i hi)]
      omega

lemma Chronological.enter {cap : Nat} {events l : List K} {k : K} (chron : Chronological events l)
    (new : k ∉ l) : Chronological (k :: events) (enter cap l k) := by
  have hsnoc := chron.snoc new
  rw [LruOrder.enter, if_neg new]
  split
  · exact hsnoc
  · exact hsnoc.sublist (List.tail_sublist _)

lemma Chronological.refresh {events l : List K} {k : K} (chron : Chronological events l)
    (once : l.Nodup) : Chronological (k :: events) (refresh l k) :=
  (chron.sublist List.erase_sublist).snoc once.not_mem_erase

/-- What an entry drops is the key with the oldest last event, for a key that was absent. -/
theorem Chronological.enter_drops {cap : Nat} {events l : List K} {k x : K}
    (chron : Chronological events l) (present : x ∈ l) (dropped : x ∉ LruOrder.enter cap l k) :
    k ∉ l ∧ ∀ y ∈ l, y ≠ x → age events y < age events x := by
  have habsent : k ∉ l := by
    intro hk
    rw [enter_present hk] at dropped
    exact dropped present
  refine ⟨habsent, ?_⟩
  have hfull : ¬ l.length < cap := by
    intro room
    rw [enter_room habsent room] at dropped
    exact dropped (List.mem_append_left _ present)
  cases l with
  | nil => cases present
  | cons first rest =>
    rw [enter_full habsent (Nat.not_lt.mp hfull)] at dropped
    rcases List.mem_cons.mp present with rfl | hlater
    · intro y hy hne
      rcases List.mem_cons.mp hy with rfl | hy
      · exact absurd rfl hne
      · exact (List.pairwise_cons.mp chron.ordered).1 y hy
    · exact absurd (List.mem_append_left _ hlater) dropped

end LruOrder
