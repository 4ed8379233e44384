import Mathlib.Algebra.BigOperators.Group.List.Basic
import Mathlib.Tactic.Common

namespace Transition

variable {σ τ ε : Type}

/-- A run lists the labels of its steps in order. -/
inductive Run (step : σ → ε → σ → Prop) : σ → List ε → σ → Prop where
  | nil (state : σ) : Run step state [] state
  | cons {first middle last : σ} {label : ε} {labels : List ε} (head : step first label middle)
      (tail : Run step middle labels last) : Run step first (label :: labels) last

/-- Two runs compose when the second starts at the end of the first. -/
theorem Run.append {step : σ → ε → σ → Prop} {first middle last : σ} {before after : List ε}
    (head : Run step first before middle) (tail : Run step middle after last) :
    Run step first (before ++ after) last := by
  induction head with
  | nil => exact tail
  | cons one _ ih => exact .cons one (ih tail)

/-- A run can be extended by one step at its end. -/
theorem Run.snoc {step : σ → ε → σ → Prop} {first middle last : σ} {labels : List ε} {label : ε}
    (head : Run step first labels middle) (one : step middle label last) :
    Run step first (labels ++ [label]) last :=
  head.append (.cons one (.nil last))

/-- A run passes through a state between two parts of its labels. -/
theorem Run.of_append {step : σ → ε → σ → Prop} {first last : σ} {before after : List ε}
    (run : Run step first (before ++ after) last) :
    ∃ middle, Run step first before middle ∧ Run step middle after last := by
  induction before generalizing first with
  | nil => exact ⟨first, .nil first, run⟩
  | cons label before ih =>
      cases run with
      | cons head tail =>
          obtain ⟨middle, front, back⟩ := ih tail
          exact ⟨middle, .cons head front, back⟩

/-- A run of a system is a run of each system that has its steps. -/
theorem Run.mono {step step' : σ → ε → σ → Prop} {first last : σ} {labels : List ε}
    (run : Run step first labels last) (steps : ∀ state label next, step state label next → step' state label next) :
    Run step' first labels last := by
  induction run with
  | nil => exact .nil _
  | cons one _ ih => exact .cons (steps _ _ _ one) ih

/-- A property that every step preserves holds at the end of each run. -/
theorem Run.preserves {step : σ → ε → σ → Prop} {first last : σ} {labels : List ε}
    (run : Run step first labels last) (invariant : σ → Prop) (start : invariant first)
    (preserved : ∀ state label next, label ∈ labels → invariant state → step state label next →
      invariant next) : invariant last := by
  induction run with
  | nil => exact start
  | cons one _ ih =>
      have middle := preserved _ _ _ List.mem_cons_self start one
      exact ih middle fun state label next member =>
        preserved state label next (List.mem_cons_of_mem _ member)

/-- A property of the past labels and the state that every step extends holds at the end of each run. -/
theorem Run.history {step : σ → ε → σ → Prop} {first last : σ} {labels : List ε}
    (run : Run step first labels last) (invariant : List ε → σ → Prop) {past : List ε}
    (start : invariant past first)
    (advance : ∀ past state label next, invariant past state → step state label next →
      invariant (past ++ [label]) next) : invariant (past ++ labels) last := by
  induction run generalizing past with
  | nil =>
      rw [List.append_nil]
      exact start
  | cons one _ ih =>
      have rest := ih (advance _ _ _ _ start one)
      rw [List.append_assoc] at rest
      exact rest

/-- A measure that each step increases by the gain of its label has increased by the sum of the gains. -/
theorem Run.accumulates {M : Type} [AddCommMonoid M] {step : σ → ε → σ → Prop} {first last : σ}
    {labels : List ε} (run : Run step first labels last) (invariant : σ → Prop) (start : invariant first)
    (measure : σ → M) (gain : ε → M)
    (advance : ∀ state label next, label ∈ labels → invariant state → step state label next →
      invariant next ∧ measure next = gain label + measure state) :
    measure last = (labels.map gain).sum + measure first := by
  induction run with
  | nil => simp
  | cons one _ ih =>
      obtain ⟨middle, gained⟩ := advance _ _ _ List.mem_cons_self start one
      rw [ih middle fun state label next member => advance state label next (List.mem_cons_of_mem _ member),
        gained, List.map_cons, List.sum_cons]
      ac_rfl

/-- A forward simulation carries each concrete run to an abstract run with the same labels. -/
theorem Run.simulate {step : σ → ε → σ → Prop} {abstractStep : τ → ε → τ → Prop} {first last : σ}
    {labels : List ε} (run : Run step first labels last) (related : σ → τ → Prop)
    (simulates : ∀ state label next model, label ∈ labels → related state model →
      step state label next → ∃ model', abstractStep model label model' ∧ related next model')
    {model : τ} (start : related first model) :
    ∃ model', Run abstractStep model labels model' ∧ related last model' := by
  induction run generalizing model with
  | nil => exact ⟨model, .nil model, start⟩
  | cons one _ ih =>
      obtain ⟨middle, abstractOne, relatedMiddle⟩ :=
        simulates _ _ _ _ List.mem_cons_self start one
      obtain ⟨final, abstractRest, relatedFinal⟩ :=
        ih (fun state label next current member =>
          simulates state label next current (List.mem_cons_of_mem _ member)) relatedMiddle
      exact ⟨final, .cons abstractOne abstractRest, relatedFinal⟩

/-- Two runs of related systems with the same calls have the same labels, when each pair of steps for one
call has and keeps the relation. -/
theorem Run.lockstep {γ : Type} {step : σ → ε → σ → Prop} {step' : τ → ε → τ → Prop} {first last : σ}
    {first' last' : τ} {labels labels' : List ε} (run : Run step first labels last)
    (run' : Run step' first' labels' last') (call : ε → γ) (calls : labels.map call = labels'.map call)
    (related : σ → τ → Prop) (start : related first first')
    (advance : ∀ state state' label label' next next', label ∈ labels → related state state' →
      call label = call label' → step state label next → step' state' label' next' →
      label = label' ∧ related next next') : labels = labels' ∧ related last last' := by
  induction run generalizing first' labels' with
  | nil =>
      cases List.map_eq_nil_iff.mp calls.symm
      cases run'
      exact ⟨rfl, start⟩
  | cons one _ ih =>
      cases run' with
      | nil => cases calls
      | cons one' rest' =>
          obtain ⟨head, tail⟩ := List.cons.inj calls
          obtain ⟨same, middle⟩ := advance _ _ _ _ _ _ List.mem_cons_self start head one one'
          obtain ⟨rest, final⟩ := ih rest' tail middle fun state state' label label' next next' member =>
            advance state state' label label' next next' (List.mem_cons_of_mem _ member)
          exact ⟨by rw [same, rest], final⟩

end Transition
