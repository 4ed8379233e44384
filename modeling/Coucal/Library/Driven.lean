import Coucal.Library.Outcome
import Coucal.Library.Transition

namespace Driven

open Outcome Transition

variable {σ γ ε δ α β : Type}

/-- A machine makes the calls of a list, one after the other, up to the first one that fails. -/
def drive (step : γ → σ → Except ε σ) : List γ → σ → Except ε σ
  | [], state => .ok state
  | call :: calls, state => step call state >>= drive step calls

theorem drive_append (step : γ → σ → Except ε σ) (calls calls' : List γ) (state : σ) :
    drive step (calls ++ calls') state = drive step calls state >>= drive step calls' := by
  induction calls generalizing state with
  | nil => rfl
  | cons call calls ih =>
      rw [List.cons_append, drive, drive]
      cases step call state with
      | error => rfl
      | ok next => exact ih next

/-- A failure comes from one of the calls, after those before it have returned. -/
theorem drive_error {step : γ → σ → Except ε σ} {calls : List γ} {state : σ} {error : ε}
    (failed : drive step calls state = .error error) :
    ∃ before call after middle, calls = before ++ call :: after ∧ drive step before state = .ok middle ∧
      step call middle = .error error := by
  induction calls generalizing state with
  | nil => cases failed
  | cons call calls ih =>
      rw [drive] at failed
      cases made : step call state with
      | error error' =>
          rw [made] at failed
          cases failed
          exact ⟨[], call, calls, state, rfl, rfl, made⟩
      | ok next =>
          rw [made, ok_bind] at failed
          obtain ⟨before, call', after, middle, rfl, returned, fails⟩ := ih failed
          refine ⟨call :: before, call', after, middle, rfl, ?_, fails⟩
          rw [drive, made, ok_bind, returned]

/-- What each returning call preserves holds after all of them. -/
theorem drive_preserves {step : γ → σ → Except ε σ} {calls : List γ} {state final : σ}
    (returned : drive step calls state = .ok final) (invariant : σ → Prop) (start : invariant state)
    (preserved : ∀ call ∈ calls, ∀ before after, invariant before → step call before = .ok after → invariant after) :
    invariant final := by
  induction calls generalizing state with
  | nil =>
      cases returned
      exact start
  | cons call calls ih =>
      obtain ⟨next, made, rest⟩ := bind_eq_ok.mp returned
      exact ih rest (preserved call List.mem_cons_self _ _ start made) fun other member =>
        preserved other (List.mem_cons_of_mem _ member)

/-- The calls of a machine whose steps are the steps of a system form a run, with a reply for each call. -/
theorem drive_run {ρ : Type} {step : γ → σ → Except ε σ} {system : σ → γ × ρ → σ → Prop} {calls : List γ}
    {state final : σ} (returned : drive step calls state = .ok final)
    (each : ∀ call before after, step call before = .ok after → ∃ reply, system before (call, reply) after) :
    ∃ labels, labels.map Prod.fst = calls ∧ Run system state labels final := by
  induction calls generalizing state with
  | nil =>
      cases returned
      exact ⟨[], rfl, .nil _⟩
  | cons call calls ih =>
      obtain ⟨next, made, rest⟩ := bind_eq_ok.mp returned
      obtain ⟨reply, one⟩ := each call state next made
      obtain ⟨labels, same, run⟩ := ih rest
      exact ⟨(call, reply) :: labels, by rw [List.map_cons, same], .cons one run⟩

/-- A program makes the calls of a list on its machine: when all of them return it ends with a value that fits the
machine, and otherwise it ends with the failure of the first one that does not. -/
def Follows (step : γ → σ → Except ε σ) (lift : ε → δ) (calls : List γ) (state : σ) (program : Except δ α)
    (post : α → σ → Prop) : Prop :=
  match drive step calls state with
  | .ok final => ∃ value, program = .ok value ∧ post value final
  | .error error => program = .error (lift error)

namespace Follows

variable {step : γ → σ → Except ε σ} {lift : ε → δ} {calls calls' : List γ} {state : σ}

/-- A program that makes no calls. -/
theorem done {value : α} {post : α → σ → Prop} (holds : post value state) :
    Follows step lift [] state (.ok value) post := ⟨value, rfl, holds⟩

theorem mono {program : Except δ α} {post post' : α → σ → Prop}
    (follows : Follows step lift calls state program post)
    (weaken : ∀ value final, post value final → post' value final) :
    Follows step lift calls state program post' := by
  unfold Follows at follows ⊢
  split at follows
  next =>
    obtain ⟨value, same, holds⟩ := follows
    exact ⟨value, same, weaken _ _ holds⟩
  next => exact follows

/-- The calls of a sequence are those of its parts. -/
theorem bind {program : Except δ α} {next : α → Except δ β} {middle : α → σ → Prop} {post : β → σ → Prop}
    (first : Follows step lift calls state program middle)
    (rest : ∀ value state', middle value state' → Follows step lift calls' state' (next value) post) :
    Follows step lift (calls ++ calls') state (program >>= next) post := by
  unfold Follows at first ⊢
  rw [drive_append]
  cases made : drive step calls state with
  | ok state' =>
      rw [made] at first
      obtain ⟨value, rfl, holds⟩ := first
      exact rest value state' holds
  | error error =>
      rw [made] at first
      dsimp only at first
      rw [first]
      rfl

/-- A program that ends without a further call. -/
theorem andThen {program : Except δ α} {next : α → Except δ β} {middle : α → σ → Prop} {post : β → σ → Prop}
    (first : Follows step lift calls state program middle)
    (rest : ∀ value state', middle value state' → ∃ result, next value = .ok result ∧ post result state') :
    Follows step lift calls state (program >>= next) post := by
  rw [← List.append_nil calls]
  exact first.bind rest

/-- A program that starts with a call goes on when the call returns. -/
theorem call {request : γ} {result : Except ε α} {project : α → σ} {next : α → Except δ β} {post : β → σ → Prop}
    (requested : step request state = result.map project)
    (rest : ∀ value, result = .ok value → Follows step lift calls (project value) (next value) post) :
    Follows step lift (request :: calls) state (result.mapError lift >>= next) post := by
  unfold Follows
  rw [drive, requested]
  cases result with
  | ok value => exact rest value rfl
  | error error => rfl

/-- The calls of a counted loop are those of its passes. -/
theorem forUpTo {body : Nat → α → Except δ α} {passCalls : Nat → List γ} {count : Nat} {start : α}
    (invariant : Nat → α → σ → Prop) (holds : invariant 0 start state)
    (pass : ∀ index < count, ∀ value state', invariant index value state' →
      Follows step lift (passCalls index) state' (body index value) (invariant (index + 1))) :
    Follows step lift ((List.range count).flatMap passCalls) state (Outcome.forUpTo body count start)
      (invariant count) := by
  induction count with
  | zero => exact .done holds
  | succ count ih =>
      rw [List.range_succ, List.flatMap_append, List.flatMap_singleton, forUpTo_succ]
      exact (ih fun index inside => pass index (Nat.lt_succ_of_lt inside)).bind (pass count (Nat.lt_succ_self count))

end Follows
end Driven
