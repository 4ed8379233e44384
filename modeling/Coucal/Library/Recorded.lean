import Mathlib.Control.Monad.Writer
import Coucal.Library.Outcome

namespace Recorded

open Outcome

variable {μ ε α β : Type}

/-- A computation that records marks on its way. -/
abbrev Recording (μ ε : Type) := WriterT (List μ) (Except ε)

/-- The result of a recording computation without its marks. -/
def plain (recording : Recording μ ε α) : Except ε α := Prod.fst <$> recording.run

section Plain

variable (value : α) (marks : List μ) (result : Except ε α) (recording : Recording μ ε α)

@[simp] theorem plain_pure : plain (pure value : Recording μ ε α) = .ok value := rfl

@[simp] theorem plain_tell : plain (MonadWriter.tell marks : Recording μ ε PUnit) = .ok ⟨⟩ := rfl

@[simp] theorem plain_throw (error : ε) : plain (throw error : Recording μ ε α) = .error error := rfl

@[simp] theorem plain_lift : plain (liftM result : Recording μ ε α) = result := by
  cases result <;> rfl

@[simp] theorem plain_bind (next : α → Recording μ ε β) :
    plain (recording >>= next) = plain recording >>= fun value => plain (next value) := by
  show Prod.fst <$> (recording.run >>= _) = (Prod.fst <$> recording.run) >>= _
  cases recording.run with
  | error => rfl
  | ok pair => cases run : (next pair.1).run <;> simp [plain, run]

@[simp] theorem plain_ite (condition : Prop) [Decidable condition] (other : Recording μ ε α) :
    plain (if condition then recording else other) = if condition then plain recording else plain other := by
  split <;> rfl

/-- A counted loop that records. -/
def forUpTo {σ : Type} (body : Nat → σ → Recording μ ε σ) : Nat → σ → Recording μ ε σ
  | 0, state => pure state
  | count + 1, state => forUpTo body count state >>= body count

theorem plain_forUpTo {σ : Type} (body : Nat → σ → Recording μ ε σ) (count : Nat) (state : σ) :
    plain (forUpTo body count state) = Outcome.forUpTo (fun index state => plain (body index state)) count state := by
  induction count with
  | zero => rfl
  | succ count ih => simp [forUpTo, forUpTo_succ, ih]

end Plain

/-- Each result of a recording computation has a property with its marks. -/
def Records (recording : Recording μ ε α) (post : α → List μ → Prop) : Prop :=
  ∀ value marks, recording.run = .ok (value, marks) → post value marks

namespace Records

variable {recording : Recording μ ε α} {post : α → List μ → Prop}

theorem pure {value : α} (holds : post value []) : Records (Pure.pure value : Recording μ ε α) post := by
  intro _ _ returned
  cases returned
  exact holds

/-- A plain computation records nothing. -/
theorem lift {result : Except ε α} (holds : ∀ value, result = .ok value → post value []) :
    Records (liftM result : Recording μ ε α) post := by
  intro value marks returned
  cases result with
  | error => cases returned
  | ok => cases returned; exact holds _ rfl

theorem tell {marks : List μ} {post : PUnit → List μ → Prop} (holds : post ⟨⟩ marks) :
    Records (MonadWriter.tell marks : Recording μ ε PUnit) post := by
  intro _ _ returned
  cases returned
  exact holds

/-- The marks of a sequence are those of its parts in order. -/
theorem bind {next : α → Recording μ ε β} {post' : β → List μ → Prop}
    (first : Records recording post)
    (rest : ∀ value marks, post value marks → Records (next value) fun final marks' => post' final (marks ++ marks')) :
    Records (recording >>= next) post' := by
  intro final marks returned
  obtain ⟨⟨value, before⟩, run, returned⟩ := bind_eq_ok.mp returned
  dsimp only at returned
  cases run' : (next value).run with
  | error => simp [run'] at returned
  | ok pair =>
      rw [run'] at returned
      cases returned
      exact rest value before (first value before run) _ _ run'

/-- A sequence that records first. -/
theorem tell_bind {marks : List μ} {next : PUnit → Recording μ ε β} {post' : β → List μ → Prop}
    (rest : Records (next ⟨⟩) fun final marks' => post' final (marks ++ marks')) :
    Records (MonadWriter.tell marks >>= next) post' := by
  have first : Records (MonadWriter.tell marks : Recording μ ε PUnit) fun _ recorded => recorded = marks := tell rfl
  refine first.bind ?_
  rintro _ _ rfl
  exact rest

/-- A sequence that starts with a plain computation. -/
theorem lift_bind {result : Except ε α} {next : α → Recording μ ε β} {post' : β → List μ → Prop}
    (rest : ∀ value, result = .ok value → Records (next value) post') :
    Records (liftM result >>= next) post' := by
  have first : Records (liftM result : Recording μ ε α) fun value recorded => result = .ok value ∧ recorded = [] :=
    lift fun _ returned => ⟨returned, rfl⟩
  refine first.bind ?_
  rintro value _ ⟨returned, rfl⟩
  exact rest value returned

theorem ite {condition : Prop} [Decidable condition] {other : Recording μ ε α}
    (yes : condition → Records recording post) (no : ¬ condition → Records other post) :
    Records (if condition then recording else other) post := by
  split
  next holds => exact yes holds
  next fails => exact no fails

theorem throw {error : ε} : Records (throw error : Recording μ ε α) post := by
  intro _ _ returned
  cases returned

/-- An invariant of the state and of the marks so far, that each pass advances, holds after the loop. -/
theorem forUpTo {σ : Type} {body : Nat → σ → Recording μ ε σ} {count : Nat} {state : σ}
    (invariant : Nat → σ → List μ → Prop) (start : invariant 0 state [])
    (pass : ∀ index < count, ∀ current marks, invariant index current marks →
      Records (body index current) fun next marks' => invariant (index + 1) next (marks ++ marks')) :
    Records (Recorded.forUpTo body count state) (invariant count) := by
  induction count with
  | zero => exact .pure start
  | succ count ih =>
      exact (ih fun index inside => pass index (Nat.lt_succ_of_lt inside)).bind (pass count (Nat.lt_succ_self count))

theorem imp {post' : α → List μ → Prop} (records : Records recording post)
    (weaken : ∀ value marks, post value marks → post' value marks) : Records recording post' :=
  fun value marks returned => weaken value marks (records value marks returned)

/-- The value is a result of the plain computation. -/
theorem value (records : Records recording post) :
    Records recording fun value marks => post value marks ∧ plain recording = .ok value :=
  fun value marks returned => ⟨records value marks returned, by simp [plain, returned]⟩

end Records

/-- A plain result comes with marks. -/
theorem exists_marks {recording : Recording μ ε α} {value : α}
    (returned : plain recording = .ok value) : ∃ marks, recording.run = .ok (value, marks) := by
  unfold plain at returned
  cases run : recording.run with
  | error => simp [run] at returned
  | ok pair =>
      rw [run] at returned
      cases returned
      exact ⟨pair.2, rfl⟩

/-- The sum of the weights of some marks. -/
def total (weight : μ → Nat) : List μ → Nat
  | [] => 0
  | mark :: marks => weight mark + total weight marks

@[simp] theorem total_nil (weight : μ → Nat) : total weight [] = 0 := rfl

@[simp] theorem total_cons (weight : μ → Nat) (mark : μ) (marks : List μ) :
    total weight (mark :: marks) = weight mark + total weight marks := rfl

@[simp] theorem total_append (weight : μ → Nat) (before after : List μ) :
    total weight (before ++ after) = total weight before + total weight after := by
  induction before with
  | nil => simp
  | cons mark before ih => simp [ih, Nat.add_assoc]

@[simp] theorem total_replicate (weight : μ → Nat) (count : Nat) (mark : μ) :
    total weight (List.replicate count mark) = count * weight mark := by
  induction count with
  | zero => simp
  | succ count ih => rw [List.replicate_succ, total_cons, ih, Nat.succ_mul, Nat.add_comm]

/-- Marks without weight may be left out of a sum. -/
theorem total_filter {weight : μ → Nat} {pick : μ → Bool} (zero : ∀ mark, pick mark = false → weight mark = 0)
    (marks : List μ) : total weight (marks.filter pick) = total weight marks := by
  induction marks with
  | nil => rfl
  | cons mark marks ih =>
      cases picked : pick mark with
      | true => rw [List.filter_cons_of_pos picked, total_cons, total_cons, ih]
      | false =>
          rw [List.filter_cons_of_neg (by simp [picked]), total_cons, zero mark picked, ih, Nat.zero_add]

/-- Marks without weight have no sum. -/
theorem total_eq_zero {weight : μ → Nat} {marks : List μ} (zero : ∀ mark ∈ marks, weight mark = 0) :
    total weight marks = 0 := by
  induction marks with
  | nil => rfl
  | cons mark marks ih =>
      rw [total_cons, zero mark List.mem_cons_self, ih fun mark member => zero mark (List.mem_cons_of_mem _ member)]

end Recorded
