import Mathlib.Tactic.Common

namespace Outcome

variable {ε α β γ δ σ τ : Type}

/-- A computation meets a postcondition, or fails with an error that the caller accepts. -/
def Meets (result : Except ε α) (post : α → Prop) (fail : ε → Prop) : Prop :=
  match result with
  | .ok value => post value
  | .error error => fail error

@[simp] theorem meets_ok (value : α) (post : α → Prop) (fail : ε → Prop) :
    Meets (.ok value) post fail ↔ post value := Iff.rfl

@[simp] theorem meets_pure (value : α) (post : α → Prop) (fail : ε → Prop) :
    Meets (pure value : Except ε α) post fail ↔ post value := Iff.rfl

@[simp] theorem meets_error (error : ε) (post : α → Prop) (fail : ε → Prop) :
    Meets (.error error) post fail ↔ fail error := Iff.rfl

@[simp] theorem ok_bind (value : α) (next : α → Except ε β) :
    ((.ok value : Except ε α) >>= next) = next value := rfl

@[simp] theorem error_bind (error : ε) (next : α → Except ε β) :
    ((.error error : Except ε α) >>= next) = .error error := rfl

/-- A reached value satisfies the postcondition. -/
theorem Meets.of_ok {result : Except ε α} {post : α → Prop} {fail : ε → Prop} {value : α}
    (meets : Meets result post fail) (reached : result = .ok value) : post value := by
  rw [reached] at meets
  exact meets

/-- A reached error is one of the accepted errors. -/
theorem Meets.of_error {result : Except ε α} {post : α → Prop} {fail : ε → Prop} {error : ε}
    (meets : Meets result post fail) (reached : result = .error error) : fail error := by
  rw [reached] at meets
  exact meets

/-- The two outcomes can be checked separately. -/
theorem meets_iff {result : Except ε α} {post : α → Prop} {fail : ε → Prop} :
    Meets result post fail ↔
      (∀ value, result = .ok value → post value) ∧ (∀ error, result = .error error → fail error) := by
  cases result <;> simp

/-- A weaker postcondition and a larger error set stay valid. -/
theorem Meets.mono {result : Except ε α} {post post' : α → Prop} {fail fail' : ε → Prop}
    (meets : Meets result post fail) (weaken : ∀ value, post value → post' value)
    (accept : ∀ error, fail error → fail' error) : Meets result post' fail' := by
  cases result with
  | ok value => exact weaken value meets
  | error error => exact accept error meets

/-- A weaker postcondition stays valid under the same errors. -/
theorem Meets.imp {result : Except ε α} {post post' : α → Prop} {fail : ε → Prop}
    (meets : Meets result post fail) (weaken : ∀ value, post value → post' value) :
    Meets result post' fail :=
  meets.mono weaken fun _ accepted => accepted

/-- The outcome may mention the computation itself. -/
theorem Meets.self {result : Except ε α} {post : α → Prop} {fail : ε → Prop}
    (meets : Meets result post fail) :
    Meets result (fun value => post value ∧ result = .ok value)
      fun error => fail error ∧ result = .error error := by
  cases result with
  | ok value => exact ⟨meets, rfl⟩
  | error error => exact ⟨meets, rfl⟩

/-- A sequence meets the postcondition of its second part. -/
theorem Meets.bind {result : Except ε α} {next : α → Except ε β} {middle : α → Prop}
    {post : β → Prop} {fail : ε → Prop} (first : Meets result middle fail)
    (rest : ∀ value, middle value → Meets (next value) post fail) :
    Meets (result >>= next) post fail := by
  cases result with
  | ok value => exact rest value first
  | error error => exact first

/-- A guard passes its condition to the rest of the computation. -/
def guard (error : ε) (condition : Prop) [Decidable condition] : Except ε Unit :=
  if condition then .ok () else .error error

theorem Meets.guard {error : ε} {condition : Prop} [Decidable condition] {next : Unit → Except ε β}
    {post : β → Prop} {fail : ε → Prop} (blocked : ¬ condition → fail error)
    (rest : condition → Meets (next ()) post fail) :
    Meets (Outcome.guard error condition >>= next) post fail := by
  unfold Outcome.guard
  split
  next holds => exact rest holds
  next fails => exact blocked fails

theorem guard_eq_ok {error : ε} {condition : Prop} [Decidable condition] {value : Unit} :
    Outcome.guard error condition = .ok value ↔ condition := by
  unfold Outcome.guard
  split <;> simp_all

/-- A successful sequence splits into its two successful parts. -/
theorem bind_eq_ok {result : Except ε α} {next : α → Except ε β} {final : β} :
    (result >>= next) = .ok final ↔ ∃ value, result = .ok value ∧ next value = .ok final := by
  cases result <;> simp

/-- The result of a computation that succeeds. -/
theorem toOption_eq_some {result : Except ε α} {value : α} :
    result.toOption = some value ↔ result = .ok value := by
  cases result <;> simp [Except.toOption]

/-- A counted loop runs its body for each index below the bound, in ascending order. -/
def forUpTo (body : Nat → σ → Except ε σ) : Nat → σ → Except ε σ
  | 0, state => .ok state
  | count + 1, state => forUpTo body count state >>= body count

@[simp] theorem forUpTo_zero (body : Nat → σ → Except ε σ) (state : σ) :
    forUpTo body 0 state = .ok state := rfl

theorem forUpTo_succ (body : Nat → σ → Except ε σ) (count : Nat) (state : σ) :
    forUpTo body (count + 1) state = forUpTo body count state >>= body count := rfl

/-- A loop whose passes change nothing changes nothing. -/
theorem forUpTo_const {body : Nat → σ → Except ε σ} {count : Nat} {state : σ}
    (same : ∀ index, body index state = .ok state) : forUpTo body count state = .ok state := by
  induction count with
  | zero => rfl
  | succ count ih => rw [forUpTo_succ, ih, ok_bind, same]

/-- An indexed invariant that each iteration advances holds after the loop. -/
theorem Meets.forUpTo {body : Nat → σ → Except ε σ} {fail : ε → Prop} (invariant : Nat → σ → Prop)
    {count : Nat} {state : σ} (start : invariant 0 state)
    (advance : ∀ index < count, ∀ current, invariant index current →
      Meets (body index current) (invariant (index + 1)) fail) :
    Meets (Outcome.forUpTo body count state) (invariant count) fail := by
  induction count with
  | zero => exact start
  | succ count ih =>
      rw [forUpTo_succ]
      have earlier := ih fun index inside => advance index (Nat.lt_succ_of_lt inside)
      exact earlier.bind fun current holds => advance count (Nat.lt_succ_self count) current holds

/-- A successful loop advances an invariant that each successful iteration advances. -/
theorem forUpTo_advances {body : Nat → σ → Except ε σ} (invariant : Nat → σ → Prop) {count : Nat}
    {state final : σ} (returned : Outcome.forUpTo body count state = .ok final)
    (start : invariant 0 state)
    (advance : ∀ index < count, ∀ current next, invariant index current →
      body index current = .ok next → invariant (index + 1) next) : invariant count final := by
  have loop : Meets (Outcome.forUpTo body count state) (invariant count) fun _ => True :=
    Meets.forUpTo invariant start fun index inside current before =>
      meets_iff.mpr ⟨fun next passed => advance index inside current next before passed,
        fun _ _ => trivial⟩
  exact loop.of_ok returned

/-- Two computations return related values, or fail with the same error. An escape excuses the failure of
either of them. -/
def Agrees (escape : Prop) (related : α → β → Prop) : Except ε α → Except ε β → Prop
  | .ok value, .ok value' => related value value'
  | .error error, .error error' => error = error' ∨ escape
  | .ok _, .error _ => escape
  | .error _, .ok _ => escape

namespace Agrees

variable {escape : Prop} {related : α → β → Prop} {result : Except ε α} {result' : Except ε β}

theorem of_escape (excused : escape) (each : ∀ value value', result = .ok value → result' = .ok value' →
    related value value') : Agrees escape related result result' := by
  cases result with
  | ok value =>
      cases result' with
      | ok value' => exact each value value' rfl rfl
      | error => exact excused
  | error =>
      cases result' with
      | ok => exact excused
      | error => exact .inr excused

/-- Two computations that fail only with an escape agree when their postconditions relate the values. -/
theorem of_meets {post : α → Prop} {post' : β → Prop} {fail fail' : ε → Prop} (first : Meets result post fail)
    (second : Meets result' post' fail') (excused : ∀ error, fail error → escape)
    (excused' : ∀ error, fail' error → escape)
    (each : ∀ value value', post value → post' value' → related value value') :
    Agrees escape related result result' := by
  cases result with
  | ok value =>
      cases result' with
      | ok value' => exact each value value' first second
      | error error => exact excused' error second
  | error error => exact of_escape (excused error first) fun _ _ returned => by cases returned

/-- The relation may be replaced by one that the two results meet. -/
theorem strengthen {related' : α → β → Prop} (agrees : Agrees escape related result result')
    (each : ∀ value value', result = .ok value → result' = .ok value' → related value value' →
      related' value value') : Agrees escape related' result result' := by
  cases result with
  | ok value =>
      cases result' with
      | ok value' => exact each value value' rfl rfl agrees
      | error => exact agrees
  | error =>
      cases result' with
      | ok => exact agrees
      | error => exact agrees

/-- One computation agrees with itself. -/
theorem self (result : Except ε α) : Agrees escape Eq result result := by
  cases result with
  | ok value => exact rfl
  | error => exact .inl rfl

/-- Sequences agree when their second parts do for related values. -/
theorem bind {related' : γ → δ → Prop} {next : α → Except ε γ} {next' : β → Except ε δ}
    (first : Agrees escape related result result')
    (rest : ∀ value value', related value value' → Agrees escape related' (next value) (next' value')) :
    Agrees escape related' (result >>= next) (result' >>= next') := by
  cases result with
  | ok value =>
      cases result' with
      | ok value' => exact rest value value' first
      | error error =>
          rw [ok_bind, error_bind]
          cases next value with
          | ok => exact first
          | error => exact .inr first
  | error error =>
      cases result' with
      | ok value' =>
          rw [ok_bind, error_bind]
          cases next' value' with
          | ok => exact first
          | error => exact .inr first
      | error => exact first

/-- Guards of equivalent conditions fail together. -/
theorem guard {related : γ → δ → Prop} {error : ε} {condition condition' : Prop} [Decidable condition]
    [Decidable condition'] {next : Unit → Except ε γ} {next' : Unit → Except ε δ}
    (equivalent : condition ↔ condition')
    (rest : condition → Agrees escape related (next ()) (next' ())) :
    Agrees escape related (Outcome.guard error condition >>= next)
      (Outcome.guard error condition' >>= next') := by
  unfold Outcome.guard
  by_cases holds : condition
  · rw [if_pos holds, if_pos (equivalent.mp holds)]
    exact rest holds
  · rw [if_neg holds, if_neg (mt equivalent.mpr holds)]
    exact .inl rfl

/-- Loops agree when their passes keep the states related. -/
theorem forUpTo {body : Nat → σ → Except ε σ} {body' : Nat → τ → Except ε τ} (related : σ → τ → Prop)
    {count : Nat} {state : σ} {state' : τ} (start : related state state')
    (pass : ∀ index < count, ∀ current current', related current current' →
      Agrees escape related (body index current) (body' index current')) :
    Agrees escape related (Outcome.forUpTo body count state) (Outcome.forUpTo body' count state') := by
  induction count with
  | zero => exact start
  | succ count ih =>
      rw [forUpTo_succ, forUpTo_succ]
      exact (ih fun index inside => pass index (Nat.lt_succ_of_lt inside)).bind
        (pass count (Nat.lt_succ_self count))

end Agrees

end Outcome
