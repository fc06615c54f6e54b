import Intcp.Dicts
import Mathlib.Algebra.Order.Group.Int
import Mathlib.Data.List.Range

/-!
# Numbers in order of first appearance

A dictionary that gives each new name the number after the last one numbers its names
from 1 on without a gap: two names never share a number, and a number stands for the
name at its place.
-/

namespace Numbering

open Dicts

universe u
variable {K : Type u} [DecidableEq K]

/-- The names are numbered from 1 to `n`, in their order. -/
structure Numbered (d : List (K × Int)) (n : Nat) : Prop where
  distinct : (keys d).Nodup
  inOrder : d.map Prod.snd = (List.range n).map fun i : Nat => (i : Int) + 1

variable {d : List (K × Int)} {n : Nat} {k k' : K} {id : Int}

lemma assign_new {A : Type*} {d : List (K × A)} (fresh : k ∉ keys d) (a : A) :
    assign d k a = d ++ [(k, a)] := by
  induction d with
  | nil => rfl
  | cons item d ih =>
    have other : item.1 ≠ k := fun same => fresh (same ▸ List.mem_cons_self)
    have below : k ∉ keys d := fun h => fresh (List.mem_cons_of_mem _ h)
    simp [assign, other, ih below]

omit [DecidableEq K] in
lemma Numbered.length (h : Numbered d n) : (keys d).length = n := by
  simpa [keys] using congrArg List.length h.inOrder

/-- A number is the place of its name. -/
theorem Numbered.get?_iff (h : Numbered d n) :
    get? d k = some id ↔ ∃ i : Nat, id = i + 1 ∧ (keys d)[i]? = some k := by
  have numbers : ∀ (i : Nat) (name : K) (num : Int), d[i]? = some (name, num) → num = i + 1 := by
    intro i name num hi
    have second : (d.map Prod.snd)[i]? = some num := by simp [hi]
    rw [h.inOrder, List.getElem?_map] at second
    obtain ⟨j, hj, rfl⟩ := Option.map_eq_some_iff.mp second
    obtain ⟨_, rfl⟩ := List.getElem?_eq_some_iff.mp hj
    simp
  constructor
  · intro found
    obtain ⟨i, hi⟩ := List.mem_iff_getElem?.mp (mem_of_get? found)
    exact ⟨i, numbers i k id hi, by simp [keys, hi]⟩
  · rintro ⟨i, rfl, hi⟩
    rw [keys, List.getElem?_map] at hi
    obtain ⟨⟨name, num⟩, hitem, rfl⟩ := Option.map_eq_some_iff.mp hi
    obtain rfl := numbers i name num hitem
    exact get?_of_mem h.distinct (List.mem_of_getElem? hitem)

theorem Numbered.injective (h : Numbered d n) (hk : get? d k = some id)
    (hk' : get? d k' = some id) : k = k' := by
  obtain ⟨i, rfl, hi⟩ := h.get?_iff.mp hk
  obtain ⟨j, same, hj⟩ := h.get?_iff.mp hk'
  obtain rfl : i = j := by omega
  exact Option.some.inj (hi.symm.trans hj)

lemma Numbered.bounds (h : Numbered d n) (hk : get? d k = some id) : 1 ≤ id ∧ id ≤ n := by
  obtain ⟨i, rfl, hi⟩ := h.get?_iff.mp hk
  have inside := (List.getElem?_eq_some_iff.mp hi).1
  rw [h.length] at inside
  omega

omit [DecidableEq K] in
lemma Numbered.empty : Numbered ([] : List (K × Int)) 0 where
  distinct := List.nodup_nil
  inOrder := rfl

/-- A new name gets the next number. -/
theorem Numbered.extend (h : Numbered d n) (fresh : k ∉ keys d) :
    Numbered (assign d k ((n + 1 : Nat) : Int)) (n + 1) where
  distinct := nodup_assign h.distinct k _
  inOrder := by
    rw [assign_new fresh, List.map_append, h.inOrder, List.range_succ, List.map_append]
    simp

end Numbering
