import Mathlib.Data.List.Basic

/-!
# Finite runs of a step function

`step op s` is the state after `op`, or `none` where the operation does not
return. A run is a list of operations; since every prefix of a run is a run,
a property of the final state of all runs is a property of all states reached.
-/

namespace StepRuns

universe u v
variable {Op : Type u} {S : Type v}

def run (step : Op → S → Option S) : S → List Op → Option S
  | s, [] => some s
  | s, op :: ops => (step op s).bind fun t => run step t ops

/-- Every operation of the run meets `Good` in the state it is applied to. -/
def Along (step : Op → S → Option S) (Good : S → Op → Prop) : S → List Op → Prop
  | _, [] => True
  | s, op :: ops => Good s op ∧ ∀ t, step op s = some t → Along step Good t ops

instance decidableAlong {step : Op → S → Option S} {Good : S → Op → Prop}
    [∀ s op, Decidable (Good s op)] : ∀ s ops, Decidable (Along step Good s ops)
  | _, [] => inferInstanceAs (Decidable True)
  | s, op :: ops =>
    haveI : ∀ t, Decidable (Along step Good t ops) := fun t => decidableAlong t ops
    inferInstanceAs (Decidable (Good s op ∧ ∀ t ∈ step op s, Along step Good t ops))

theorem run_append (step : Op → S → Option S) (s : S) (ops more : List Op) :
    run step s (ops ++ more) = (run step s ops).bind fun t => run step t more := by
  induction ops generalizing s with
  | nil => rfl
  | cons op ops ih =>
    cases hs : step op s with
    | none => simp [run, hs]
    | some t => simpa [run, hs] using ih t

theorem run_snoc (step : Op → S → Option S) (s : S) (ops : List Op) (op : Op) :
    run step s (ops ++ [op]) = (run step s ops).bind (step op) := by
  rw [run_append]
  congr 1
  funext t
  cases h : step op t <;> simp [run, h]

/-- What every operation meeting `Good` preserves is preserved along a run of such operations. -/
theorem run_invariant_along {step : Op → S → Option S} {Good : S → Op → Prop}
    (Inv : S → Prop)
    (preserved : ∀ s t op, Inv s → Good s op → step op s = some t → Inv t)
    {s t : S} {ops : List Op} (start : Inv s) (good : Along step Good s ops)
    (h : run step s ops = some t) : Inv t := by
  induction ops generalizing s with
  | nil => exact Option.some.inj h ▸ start
  | cons op ops ih =>
    obtain ⟨m, hm, ht⟩ := Option.bind_eq_some_iff.mp h
    exact ih (preserved s m op start good.1 hm) (good.2 m hm) ht

/-- Conditions that do not depend on the state hold along every run. -/
lemma along_all {step : Op → S → Option S} {Good : Op → Prop} {s : S} {ops : List Op}
    (good : ∀ op ∈ ops, Good op) : Along step (fun _ op => Good op) s ops := by
  induction ops generalizing s with
  | nil => trivial
  | cons op ops ih =>
    constructor
    · exact good op List.mem_cons_self
    · exact fun _ _ => ih fun o ho => good o (List.mem_cons_of_mem _ ho)

/-- The same where what an operation must meet does not depend on the state. -/
theorem run_invariant_all {step : Op → S → Option S} {Good : Op → Prop} (Inv : S → Prop)
    (preserved : ∀ s t op, Inv s → Good op → step op s = some t → Inv t)
    {s t : S} {ops : List Op} (start : Inv s) (good : ∀ op ∈ ops, Good op)
    (h : run step s ops = some t) : Inv t :=
  run_invariant_along Inv preserved start (along_all good) h

/-- Where every operation returns and keeps the invariant, so does every run. -/
theorem run_total {step : Op → S → Option S} {Good : Op → Prop} (Inv : S → Prop)
    (total : ∀ s op, Inv s → Good op → ∃ t, step op s = some t ∧ Inv t)
    {s : S} {ops : List Op} (start : Inv s) (good : ∀ op ∈ ops, Good op) :
    ∃ t, run step s ops = some t ∧ Inv t := by
  induction ops generalizing s with
  | nil => exact ⟨s, rfl, start⟩
  | cons op ops ih =>
    obtain ⟨hop, hrest⟩ := List.forall_mem_cons.mp good
    obtain ⟨m, hm, kept⟩ := total s op start hop
    obtain ⟨t, ht, reached⟩ := ih kept hrest
    exact ⟨t, Option.bind_eq_some_iff.mpr ⟨m, hm, ht⟩, reached⟩

/-- Conditions that say the same under an invariant which they preserve hold along the same runs. -/
theorem along_congr {step : Op → S → Option S} {Good Good' : S → Op → Prop} {Given : Op → Prop}
    (Inv : S → Prop) (same : ∀ s op, Inv s → Given op → (Good s op ↔ Good' s op))
    (preserved : ∀ s t op, Inv s → Given op → Good s op → step op s = some t → Inv t)
    {s : S} {ops : List Op} (start : Inv s) (given : ∀ op ∈ ops, Given op) :
    Along step Good s ops ↔ Along step Good' s ops := by
  induction ops generalizing s with
  | nil => exact Iff.rfl
  | cons op ops ih =>
    obtain ⟨hop, hrest⟩ := List.forall_mem_cons.mp given
    rw [Along, Along, ← same s op start hop]
    refine and_congr_right fun good => forall_congr' fun t => forall_congr' fun ht => ?_
    exact ih (preserved s t op start hop good ht) hrest

/-- A condition gives another along a run of operations that keep an invariant. -/
theorem along_imp {step : Op → S → Option S} {Good Has : S → Op → Prop} (Inv : S → Prop)
    (gives : ∀ s op, Inv s → Good s op → Has s op)
    (preserved : ∀ s t op, Inv s → Good s op → step op s = some t → Inv t)
    {s : S} {ops : List Op} (start : Inv s) (good : Along step Good s ops) :
    Along step Has s ops := by
  induction ops generalizing s with
  | nil => trivial
  | cons op ops ih =>
    constructor
    · exact gives s op start good.1
    · exact fun t ht => ih (preserved s t op start good.1 ht) (good.2 t ht)

lemma along_mono {step : Op → S → Option S} {Good Better : S → Op → Prop}
    (weaken : ∀ s op, Better s op → Good s op) {s : S} {ops : List Op}
    (better : Along step Better s ops) : Along step Good s ops :=
  along_imp (fun _ => True) (fun s op _ => weaken s op) (fun _ _ _ _ _ _ => trivial) trivial better

/-- Such conditions can be added to those that hold along the run. -/
theorem along_of_forall {step : Op → S → Option S} {Good : S → Op → Prop} {Bounded : Op → Prop}
    {s : S} {ops : List Op} (good : Along step Good s ops) (bounded : ∀ op ∈ ops, Bounded op) :
    Along step (fun s op => Good s op ∧ Bounded op) s ops := by
  induction ops generalizing s with
  | nil => trivial
  | cons op ops ih =>
    exact ⟨⟨good.1, bounded op List.mem_cons_self⟩,
      fun t ht => ih (good.2 t ht) fun o ho => bounded o (List.mem_cons_of_mem _ ho)⟩

theorem along_append {step : Op → S → Option S} {Good : S → Op → Prop} {s : S}
    {ops more : List Op} :
    Along step Good s (ops ++ more) ↔
      Along step Good s ops ∧ ∀ t, run step s ops = some t → Along step Good t more := by
  induction ops generalizing s with
  | nil => simp [Along, run]
  | cons op ops ih =>
    simp only [List.cons_append, Along, ih, run, Option.bind_eq_some_iff]
    constructor
    · rintro ⟨hop, hrest⟩
      refine ⟨⟨hop, fun t ht => (hrest t ht).1⟩, ?_⟩
      rintro t ⟨m, hm, ht⟩
      exact (hrest m hm).2 t ht
    · rintro ⟨⟨hop, hrest⟩, hmore⟩
      exact ⟨hop, fun m hm => ⟨hrest m hm, fun t ht => hmore t ⟨m, hm, ht⟩⟩⟩

end StepRuns
