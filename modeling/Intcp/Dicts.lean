import Mathlib.Data.List.Nodup
import Mathlib.Tactic.Common

/-!
# Insertion-ordered dictionaries

A dictionary is the list of its items. Assigning to a key it has changes the item in
place; a new key goes to the end. Merging assigns the right one's items in order.
-/

namespace Dicts

universe u v w
variable {K : Type u} [DecidableEq K] {A : Type v} {B : Type w}

def keys (d : List (K × A)) : List K := d.map Prod.fst

def get? : List (K × A) → K → Option A
  | [], _ => none
  | (key, a) :: d, k => if key = k then some a else get? d k

def assign : List (K × A) → K → A → List (K × A)
  | [], k, a => [(k, a)]
  | (key, b) :: d, k, a => if key = k then (key, a) :: d else (key, b) :: assign d k a

def merge (d e : List (K × A)) : List (K × A) :=
  e.foldl (fun d item => assign d item.1 item.2) d

lemma get?_eq_none {d : List (K × A)} {k : K} : get? d k = none ↔ k ∉ keys d := by
  induction d with
  | nil => simp [get?, keys]
  | cons item d ih =>
    obtain ⟨key, a⟩ := item
    by_cases same : key = k
    · simp [get?, keys, same]
    · simp [get?, keys, same, Ne.symm same, ih]

lemma get?_isSome {d : List (K × A)} {k : K} : (get? d k).isSome ↔ k ∈ keys d := by
  rw [← not_iff_not, ← get?_eq_none]
  simp

lemma mem_of_get? {d : List (K × A)} {k : K} {a : A} (h : get? d k = some a) : (k, a) ∈ d := by
  induction d with
  | nil => cases h
  | cons item d ih =>
    obtain ⟨key, b⟩ := item
    by_cases same : key = k
    · simp_all [get?]
    · simp only [get?, same, if_false] at h
      exact List.mem_cons_of_mem _ (ih h)

lemma get?_of_mem {d : List (K × A)} (unique : (keys d).Nodup) {k : K} {a : A}
    (h : (k, a) ∈ d) : get? d k = some a := by
  induction d with
  | nil => cases h
  | cons item d ih =>
    obtain ⟨key, b⟩ := item
    have fresh : key ∉ keys d := (List.nodup_cons.mp unique).1
    obtain same | below := List.mem_cons.mp h
    · obtain ⟨rfl, rfl⟩ := Prod.mk.inj same
      simp [get?]
    · have other : key ≠ k := by
        rintro rfl
        exact fresh (List.mem_map_of_mem below)
      simp only [get?, other, if_false]
      exact ih (List.nodup_cons.mp unique).2 below

omit [DecidableEq K] in
lemma keys_mapValues (d : List (K × A)) (f : K → A → B) :
    keys (d.map fun item => (item.1, f item.1 item.2)) = keys d := by
  simp [keys, Function.comp_def]

lemma get?_mapValues (d : List (K × A)) (f : K → A → B) (k : K) :
    get? (d.map fun item => (item.1, f item.1 item.2)) k = (get? d k).map (f k) := by
  induction d with
  | nil => rfl
  | cons item d ih =>
    obtain ⟨key, a⟩ := item
    by_cases same : key = k
    · subst same
      simp [get?]
    · simpa [get?, same] using ih

lemma get?_assign (d : List (K × A)) (k k' : K) (a : A) :
    get? (assign d k a) k' = if k = k' then some a else get? d k' := by
  induction d with
  | nil => rfl
  | cons item d ih =>
    obtain ⟨key, b⟩ := item
    by_cases same : key = k
    · subst same
      by_cases h : key = k'
      · simp [assign, get?, h]
      · simp [assign, get?, h]
    · by_cases h : key = k'
      · subst h
        simp [assign, get?, same, Ne.symm same]
      · simp [assign, get?, same, h, ih]

@[simp] lemma get?_assign_same (d : List (K × A)) (k : K) (a : A) :
    get? (assign d k a) k = some a := by
  simp [get?_assign]

lemma get?_assign_other (d : List (K × A)) {k k' : K} (other : k ≠ k') (a : A) :
    get? (assign d k a) k' = get? d k' := by
  simp [get?_assign, other]

lemma keys_assign (d : List (K × A)) (k : K) (a : A) :
    keys (assign d k a) = if k ∈ keys d then keys d else keys d ++ [k] := by
  induction d with
  | nil => rfl
  | cons item d ih =>
    obtain ⟨key, b⟩ := item
    by_cases same : key = k
    · simp [assign, keys, same]
    · have tail : keys (assign ((key, b) :: d) k a) = key :: keys (assign d k a) := by
        simp [assign, keys, same]
      have mem : k ∈ keys ((key, b) :: d) ↔ k ∈ keys d := by
        simp [keys, Ne.symm same]
      rw [tail, ih, if_congr mem rfl rfl]
      split <;> rfl

lemma mem_keys_assign {d : List (K × A)} {k k' : K} {a : A} :
    k' ∈ keys (assign d k a) ↔ k' ∈ keys d ∨ k' = k := by
  rw [keys_assign]
  split
  · constructor
    · exact Or.inl
    · rintro (h | rfl)
      · exact h
      · assumption
  · simp

lemma nodup_assign {d : List (K × A)} (unique : (keys d).Nodup) (k : K) (a : A) :
    (keys (assign d k a)).Nodup := by
  rw [keys_assign]
  split
  · exact unique
  · rename_i fresh
    exact List.Nodup.append unique (List.nodup_singleton k) (by simpa using fresh)

lemma get?_merge (d : List (K × A)) {e : List (K × A)} (unique : (keys e).Nodup) (k : K) :
    get? (merge d e) k = (get? e k).or (get? d k) := by
  induction e generalizing d with
  | nil => rfl
  | cons item e ih =>
    obtain ⟨key, a⟩ := item
    have fresh : key ∉ keys e := (List.nodup_cons.mp unique).1
    have step : merge d ((key, a) :: e) = merge (assign d key a) e := rfl
    rw [step, ih _ (List.nodup_cons.mp unique).2, get?_assign]
    by_cases same : key = k
    · subst same
      simp [get?, get?_eq_none.mpr fresh]
    · simp [get?, same]

lemma nodup_merge {d : List (K × A)} (unique : (keys d).Nodup) (e : List (K × A)) :
    (keys (merge d e)).Nodup := by
  induction e generalizing d with
  | nil => exact unique
  | cons item e ih => exact ih (nodup_assign unique item.1 item.2)

/-- Merging into a dictionary that has all the keys keeps their order. -/
lemma keys_merge {d e : List (K × A)} (known : ∀ k ∈ keys e, k ∈ keys d) :
    keys (merge d e) = keys d := by
  induction e generalizing d with
  | nil => rfl
  | cons item e ih =>
    have first : keys (assign d item.1 item.2) = keys d := by
      rw [keys_assign, if_pos (known _ (List.mem_cons_self ..))]
    have step : merge d (item :: e) = merge (assign d item.1 item.2) e := rfl
    rw [step, ih, first]
    intro k hk
    rw [first]
    exact known k (List.mem_cons_of_mem _ hk)

/-- Dictionaries with the same keys in the same order and the same values are equal. -/
theorem eq_of_get? {d e : List (K × A)} (same : keys d = keys e) (unique : (keys d).Nodup)
    (values : ∀ k ∈ keys d, get? d k = get? e k) : d = e := by
  induction d generalizing e with
  | nil =>
    cases e with
    | nil => rfl
    | cons item e => cases same
  | cons item d ih =>
    cases e with
    | nil => cases same
    | cons item' e =>
      obtain ⟨key, a⟩ := item
      obtain ⟨key', b⟩ := item'
      obtain ⟨rfl, tails⟩ := List.cons.inj same
      have fresh : key ∉ keys d := (List.nodup_cons.mp unique).1
      obtain rfl : a = b := by
        simpa [get?] using values key (List.mem_cons_self ..)
      rw [ih tails (List.nodup_cons.mp unique).2]
      intro k hk
      have other : key ≠ k := by
        rintro rfl
        exact fresh hk
      simpa [get?, other] using values k (List.mem_cons_of_mem _ hk)

/-- A key that is there keeps its value. -/
def note (d : List (K × A)) (item : K × A) : List (K × A) :=
  if item.1 ∈ keys d then d else assign d item.1 item.2

lemma get?_note (d : List (K × A)) (item : K × A) (k : K) :
    get? (note d item) k = (get? d k).or (get? [item] k) := by
  obtain ⟨key, a⟩ := item
  by_cases known : key ∈ keys d
  · rw [note, if_pos known]
    by_cases same : key = k
    · subst same
      obtain ⟨b, hb⟩ := Option.isSome_iff_exists.mp (get?_isSome.mpr known)
      rw [hb, Option.some_or]
    · simp [get?, same]
  · rw [note, if_neg known, get?_assign]
    by_cases same : key = k
    · subst same
      simp [get?, get?_eq_none.mpr known]
    · simp [get?, same]

lemma nodup_note {d : List (K × A)} (unique : (keys d).Nodup) (item : K × A) :
    (keys (note d item)).Nodup := by
  rw [note]
  split
  · exact unique
  · exact nodup_assign unique item.1 item.2

lemma get?_cons (item : K × A) (d : List (K × A)) (k : K) :
    get? (item :: d) k = (get? [item] k).or (get? d k) := by
  by_cases same : item.1 = k
  · simp [get?, same]
  · simp [get?, same]

lemma get?_notes (d items : List (K × A)) (k : K) :
    get? (items.foldl note d) k = (get? d k).or (get? items k) := by
  induction items generalizing d with
  | nil => simp [get?]
  | cons item items ih =>
    rw [List.foldl_cons, ih, get?_note, get?_cons item items, Option.or_assoc]

lemma nodup_notes {d : List (K × A)} (unique : (keys d).Nodup) (items : List (K × A)) :
    (keys (items.foldl note d)).Nodup := by
  induction items generalizing d with
  | nil => exact unique
  | cons item items ih => exact ih (nodup_note unique item)

/-- The keys stand in the order in which they were first seen. -/
lemma keys_notes (d items : List (K × A)) :
    keys (items.foldl note d) =
      keys d ++ ((keys items).filter fun k => k ∉ keys d).eraseDups := by
  induction items generalizing d with
  | nil => simp [keys]
  | cons item items ih =>
    have hkeys : keys (item :: items) = item.1 :: keys items := rfl
    rw [List.foldl_cons, ih, hkeys, note]
    by_cases known : item.1 ∈ keys d
    · rw [if_pos known, List.filter_cons_of_neg (by simpa using known)]
    · have rest : (keys items).filter (fun k => k ∉ keys d ++ [item.1]) =
          ((keys items).filter fun k => k ∉ keys d).filter fun k => !k == item.1 := by
        rw [List.filter_filter]
        refine List.filter_congr fun k _ => ?_
        by_cases first : k = item.1
        · simp [first]
        · simp [first]
      rw [if_neg known, keys_assign, if_neg known, rest, List.append_assoc,
        List.filter_cons_of_pos (by simpa using known), List.eraseDups_cons, List.singleton_append]

/-- Going through the items is going through the keys. -/
lemma filterMap_keys {d : List (K × A)} (unique : (keys d).Nodup) (f : K → A → Option B) :
    d.filterMap (fun item => f item.1 item.2) =
      (keys d).filterMap fun k => (get? d k).bind (f k) := by
  rw [keys, List.filterMap_map]
  refine List.filterMap_congr fun item hitem => ?_
  rw [Function.comp_apply, get?_of_mem unique hitem, Option.bind_some]

end Dicts
