import Mathlib.Data.List.Chain
import Mathlib.Tactic.Common

/-!
# Maximal runs

A maximal run of a property is a stretch of consecutive indices that have it and that
cannot be made longer. The places where a sequence changes cut it into the maximal runs
of its values; two runs that share an index are the same.
-/

namespace MaximalRuns

universe u

/-- The indices from `start` to `stop` have `P`, and their neighbours below `n` do not. -/
structure MaximalRun (P : Nat → Prop) (n start stop : Nat) : Prop where
  nonempty : start < stop
  within : stop ≤ n
  holds : ∀ i, start ≤ i → i < stop → P i
  before : start = 0 ∨ ¬ P (start - 1)
  after : stop = n ∨ ¬ P stop

section Unique

variable {P : Nat → Prop} {n start stop start' stop' i : Nat}

lemma MaximalRun.start_le (run : MaximalRun P n start stop) (run' : MaximalRun P n start' stop')
    (below : i < stop) (here' : start' ≤ i) : start' ≤ start := by
  by_contra later
  obtain first | absent := run'.before
  · omega
  · exact absent (run.holds _ (by omega) (by omega))

lemma MaximalRun.le_stop (run : MaximalRun P n start stop) (run' : MaximalRun P n start' stop')
    (here : start ≤ i) (below' : i < stop') : stop ≤ stop' := by
  by_contra longer
  obtain last | absent := run'.after
  · have := run.within
    omega
  · exact absent (run.holds _ (by omega) (by omega))

/-- The run that an index is in. -/
theorem MaximalRun.unique (run : MaximalRun P n start stop) (run' : MaximalRun P n start' stop')
    (here : start ≤ i) (below : i < stop) (here' : start' ≤ i) (below' : i < stop') :
    start = start' ∧ stop = stop' :=
  ⟨Nat.le_antisymm (run'.start_le run below' here) (run.start_le run' below here'),
    Nat.le_antisymm (run.le_stop run' here below') (run'.le_stop run here' below)⟩

end Unique

/-- A run put together from its part up to an index and its part from there on. -/
lemma MaximalRun.of_halves {P : Nat → Prop} {n start stop i : Nat}
    (here : start ≤ i) (below : i < stop) (within : stop ≤ n)
    (left : ∀ j, start ≤ j → j ≤ i → P j) (before : start = 0 ∨ ¬ P (start - 1))
    (right : ∀ j, i ≤ j → j < stop → P j) (after : stop = n ∨ ¬ P stop) :
    MaximalRun P n start stop where
  nonempty := by omega
  within := within
  holds j hj hj' := by
    by_cases h : j ≤ i
    · exact left j hj h
    · exact right j (by omega) hj'
  before := before
  after := after

variable {α : Type u}

def Adjacent (l : List α) (a b : α) : Prop := ∃ front back, l = front ++ a :: b :: back

lemma adjacent_cons {c : α} {l : List α} {a b : α} :
    Adjacent (c :: l) a b ↔ (c = a ∧ l.head? = some b) ∨ Adjacent l a b := by
  constructor
  · rintro ⟨front, back, h⟩
    cases front with
    | nil =>
      obtain ⟨rfl, rfl⟩ := List.cons.inj h
      exact .inl ⟨rfl, rfl⟩
    | cons c' front =>
      obtain ⟨rfl, rfl⟩ := List.cons.inj h
      exact .inr ⟨front, back, rfl⟩
  · rintro (⟨rfl, h⟩ | ⟨front, back, rfl⟩)
    · obtain ⟨back, rfl⟩ : ∃ back, l = b :: back := by
        cases l with
        | nil => cases h
        | cons d back => exact ⟨back, by rw [Option.some.inj h]⟩
      exact ⟨[], back, rfl⟩
    · exact ⟨c :: front, back, rfl⟩

lemma not_adjacent_singleton {c a b : α} : ¬ Adjacent [c] a b := by
  rw [adjacent_cons]
  rintro (⟨-, h⟩ | ⟨front, back, h⟩)
  · cases h
  · simp at h

/-- Where a sequence whose next index is `idx` goes over to another value than the one
before. -/
def changes [DecidableEq α] : α → Nat → List α → List Nat
  | _, _, [] => []
  | prev, idx, a :: l => if a ≠ prev then idx :: changes a (idx + 1) l else changes a (idx + 1) l

/-- The changes, closed by the end, cut the sequence into the runs of its values. -/
lemma adjacent_changes [DecidableEq α] {prev : α} {front l : List α} {start : Nat}
    (begun : start < front.length)
    (constant : ∀ j, start ≤ j → j < front.length → front[j]? = some prev)
    (before : start = 0 ∨ front[start - 1]? ≠ some prev) {s e : Nat}
    (h : Adjacent (start :: (changes prev front.length l ++ [front.length + l.length])) s e) :
    start ≤ s ∧ ∃ a, MaximalRun (fun j => (front ++ l)[j]? = some a) (front.length + l.length)
      s e := by
  induction l generalizing prev front start with
  | nil =>
    obtain ⟨rfl, last⟩ | h := adjacent_cons.mp h
    · obtain rfl : front.length = e := by simpa [changes] using last
      refine ⟨le_rfl, prev, begun, by simp, fun j hj hj' => ?_, ?_, .inl (by simp)⟩
      · simpa using constant j hj hj'
      · simpa using before
    · exact absurd h not_adjacent_singleton
  | cons b l ih =>
    have grown : front.length + (b :: l).length = (front ++ [b]).length + l.length := by
      simp only [List.length_append, List.length_cons, List.length_nil]
      omega
    have moved : front ++ b :: l = (front ++ [b]) ++ l := by simp
    have next : (front ++ [b]).length = front.length + 1 := by simp
    rw [grown, moved]
    rw [grown] at h
    by_cases same : b = prev
    · subst same
      refine ih (by omega) (fun j hj hj' => ?_) ?_ (by simpa [changes] using h)
      · by_cases old : j < front.length
        · rw [List.getElem?_append_left old]
          exact constant j hj old
        · obtain rfl : j = front.length := by omega
          simp
      · refine before.imp_right fun differ => ?_
        rwa [List.getElem?_append_left (by omega)]
    · have fresh : changes prev front.length (b :: l) =
          front.length :: changes b (front ++ [b]).length l := by
        rw [changes, if_pos same, next]
      rw [fresh, List.cons_append] at h
      obtain ⟨rfl, first⟩ | h := adjacent_cons.mp h
      · obtain rfl : front.length = e := by simpa using first
        refine ⟨le_rfl, prev, begun, by omega, fun j hj hj' => ?_, ?_, .inr ?_⟩
        · rw [← moved, List.getElem?_append_left hj']
          exact constant j hj hj'
        · refine before.imp_right fun differ => ?_
          rwa [← moved, List.getElem?_append_left (by omega)]
        · simp [same]
      · have here (j : Nat) (hj : front.length ≤ j) (hj' : j < (front ++ [b]).length) :
            (front ++ [b])[j]? = some b := by
          obtain rfl : j = front.length := by omega
          simp
        have differ : (front ++ [b])[front.length - 1]? ≠ some b := by
          have last : front.length - 1 < front.length := by omega
          rw [List.getElem?_append_left last, constant _ (by omega) last]
          exact fun h => same (Option.some.inj h).symm
        obtain ⟨later, run⟩ := ih (by omega) here (.inr differ) h
        exact ⟨by omega, run⟩

/-- Every index from the first change on lies between two adjacent ones. -/
lemma exists_adjacent [DecidableEq α] (prev : α) (idx start : Nat) (l : List α) {i : Nat}
    (begun : start ≤ idx) (here : start ≤ i) (below : i < idx + l.length) :
    ∃ s e, Adjacent (start :: (changes prev idx l ++ [idx + l.length])) s e ∧ s ≤ i ∧ i < e := by
  induction l generalizing prev idx start with
  | nil =>
    exact ⟨start, idx, adjacent_cons.mpr (.inl ⟨rfl, rfl⟩), here, below⟩
  | cons b l ih =>
    have grown : idx + (b :: l).length = idx + 1 + l.length := by
      simp only [List.length_cons]
      omega
    rw [grown] at below ⊢
    by_cases same : b = prev
    · subst same
      simpa [changes] using ih b (idx + 1) start (by omega) here below
    · rw [changes, if_pos same, List.cons_append]
      by_cases early : i < idx
      · exact ⟨start, idx, adjacent_cons.mpr (.inl ⟨rfl, rfl⟩), here, early⟩
      · obtain ⟨s, e, adjacent, between⟩ := ih b (idx + 1) idx (Nat.le_succ idx) (by omega) below
        exact ⟨s, e, adjacent_cons.mpr (.inr adjacent), between⟩

/-- Started from a value that the sequence does not begin with, the changes and the end
bound its maximal runs, and every index is in one. -/
theorem changes_cut [DecidableEq α] {sentinel : α} {l : List α}
    (differ : l.head? ≠ some sentinel) :
    (∀ s e, Adjacent (changes sentinel 0 l ++ [l.length]) s e →
      ∃ a, MaximalRun (fun j => l[j]? = some a) l.length s e) ∧
    ∀ i < l.length, ∃ s e, Adjacent (changes sentinel 0 l ++ [l.length]) s e ∧ s ≤ i ∧ i < e := by
  cases l with
  | nil => exact ⟨fun s e h => absurd h not_adjacent_singleton, fun i h => absurd h (by simp)⟩
  | cons a l =>
    have first : changes sentinel 0 (a :: l) = 0 :: changes a 1 l := by
      have other : a ≠ sentinel := by simpa using differ
      rw [changes, if_pos other]
    have length : (a :: l).length = 1 + l.length := by simp [Nat.add_comm]
    rw [first, length]
    constructor
    · intro s e h
      have one (j : Nat) (_ : 0 ≤ j) (hj : j < [a].length) : [a][j]? = some a := by
        obtain rfl : j = 0 := by simpa using hj
        rfl
      exact (adjacent_changes (by simp) one (.inl rfl) h).2
    · intro i below
      exact exists_adjacent a 1 0 l (Nat.zero_le _) (Nat.zero_le _) below

lemma head_le_of_adjacent {c : Nat} {l : List Nat} (rising : ∀ s e, Adjacent (c :: l) s e → s < e)
    {s e : Nat} (h : Adjacent (c :: l) s e) : c ≤ s := by
  induction l generalizing c with
  | nil => exact absurd h not_adjacent_singleton
  | cons d l ih =>
    have first : c < d := rising c d (adjacent_cons.mpr (.inl ⟨rfl, rfl⟩))
    obtain ⟨rfl, -⟩ | h := adjacent_cons.mp h
    · exact le_rfl
    · exact first.le.trans (ih (fun s e h => rising s e (adjacent_cons.mpr (.inr h))) h)

end MaximalRuns
