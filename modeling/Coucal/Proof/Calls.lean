import Coucal.Proof.Writing

namespace Coucal

open Outcome

variable {P : Platform} {κ : Type} {env : Env P κ}

/-- The two outcomes of an increment: the located value has changed, or a new entry is there. -/
inductive IncOutcome (env : Env P κ) (t : Hashtable P κ) (name : Name κ) (inc : Value P) :
    Value P → Hashtable P κ → Prop where
  | present {slot : Slot} {entry : Entry P κ}
      (found : t.locate env name (t.calcHashes env name) = some slot)
      (stored : t.entryAt slot = some entry) :
      IncOutcome env t name inc (entry.value + inc) (t.setValue slot (entry.value + inc))
  | created {t' : Hashtable P κ} (missing : t.locate env name (t.calcHashes env name) = none)
      (effect : Inserted env t name inc t') : IncOutcome env t name inc inc t'

theorem inc_spec {t : Hashtable P κ} {name : Name κ} {inc : Value P}
    (granted : t.locate env name (t.calcHashes env name) = none → t.Grants env name) (inv : Inv env t)
    (readable : t.Readable name) :
    Meets (t.inc_ env name inc) (fun result => IncOutcome env t name inc result.1 result.2)
      (WriteError env t name inc) := by
  unfold Hashtable.inc_ Hashtable.fetchValue Hashtable.fetchValueHashes
  cases located : t.locate env name (t.calcHashes env name) with
  | some slot =>
      obtain ⟨-, entry, stored, -⟩ := Hashtable.locate_some inv.stash.toBounded located
      obtain ⟨-, -, -, same, -⟩ := Hashtable.item_of_entryAt stored
      dsimp only
      rw [same]
      exact .present located stored
  | none =>
      refine (writeValue_spec granted inv readable).bind ?_
      rintro ⟨added, t'⟩ outcome
      cases outcome with
      | replaced found => exact absurd (found.symm.trans located) (Option.some_ne_none _)
      | added missing effect =>
          refine Meets.guard (fun fails => absurd rfl fails) fun _ => ?_
          exact .created missing effect

/-- A call that only reads the table. -/
def Op.quiet {ν : Type} : Op P ν → Bool
  | .writeValue .. | .remove .. | .inc .. | .dec .. => false
  | .readValue .. | .exists_ .. | .fetchValueHashes .. | .nitems | .enumNext .. => true

/-- The outcome of each call. -/
inductive Effect (env : Env P κ) (t : Hashtable P κ) :
    Op P (Name κ) → Reply P κ → Hashtable P κ → Prop where
  | write {name : Name κ} {value : Value P} {added : Bool} {t' : Hashtable P κ}
      (outcome : WriteOutcome env t name value added t') :
      Effect env t (.writeValue name value) (.flag added) t'
  | remove {name : Name κ} {removed : Bool} {t' : Hashtable P κ}
      (outcome : RemoveOutcome env t name removed t') : Effect env t (.remove name) (.flag removed) t'
  | inc {name : Name κ} {value : Value P} {t' : Hashtable P κ} (outcome : IncOutcome env t name 1 value t') :
      Effect env t (.inc name) (.int (value.setWidth P.intSize)) t'
  | dec {name : Name κ} {value : Value P} {t' : Hashtable P κ}
      (outcome : IncOutcome env t name (-1) value t') :
      Effect env t (.dec name) (.int (value.setWidth P.intSize)) t'
  | observe {op : Op P (Name κ)} {reply : Reply P κ} (quiet : op.quiet = true)
      (answer : t.apply env op = .ok (reply, t)) : Effect env t op reply t

/-- The errors of a call. -/
def CallError (env : Env P κ) (t : Hashtable P κ) : Op P (Name κ) → Failure → Prop
  | .writeValue name value, error => WriteError env t name value error
  | .inc name, error => WriteError env t name 1 error
  | .dec name, error => WriteError env t name (-1) error
  | .remove _, error => ReleaseError env t error
  | _, _ => False

theorem apply_spec {t : Hashtable P κ} {op : Op P (Name κ)} (granted : t.GrantsCall env op) (inv : Inv env t)
    (readable : ∀ name, op.name? = some name → t.Readable name) :
    Meets (t.apply env op) (fun result => Effect env t op result.1 result.2) (CallError env t op) := by
  cases op with
  | writeValue name value =>
      refine (writeValue_spec (granted _ _ rfl) inv (readable name rfl)).bind ?_
      rintro ⟨added, t'⟩ outcome
      exact .write outcome
  | remove name =>
      refine (remove_spec inv).bind ?_
      rintro ⟨removed, t'⟩ outcome
      exact .remove outcome
  | inc name =>
      have counted : Meets (t.inc env name)
          (fun result => Effect env t (.inc name) (.int result.1) result.2) (WriteError env t name 1) := by
        refine (inc_spec (granted _ _ rfl) inv (readable name rfl)).bind ?_
        rintro ⟨value, t'⟩ outcome
        exact .inc outcome
      exact counted.bind fun _ effect => effect
  | dec name =>
      have counted : Meets (t.dec env name)
          (fun result => Effect env t (.dec name) (.int result.1) result.2) (WriteError env t name (-1)) := by
        refine (inc_spec (granted _ _ rfl) inv (readable name rfl)).bind ?_
        rintro ⟨value, t'⟩ outcome
        exact .dec outcome
      exact counted.bind fun _ effect => effect
  | readValue name => exact .observe rfl rfl
  | exists_ name => exact .observe rfl rfl
  | fetchValueHashes name hashes => exact .observe rfl rfl
  | nitems => exact .observe rfl rfl
  | enumNext index => exact .observe rfl rfl

section Preservation

variable {t t' : Hashtable P κ} {name : Name κ} {value : Value P}

theorem WriteOutcome.inv {added : Bool} (inv : Inv env t) (outcome : WriteOutcome env t name value added t') :
    Inv env t' := by
  cases outcome with
  | replaced found stored =>
      exact inv.setValue (Hashtable.locate_some inv.stash.toBounded found).1 stored value _
  | added _ effect => exact effect.inv

theorem RemoveOutcome.inv {removed : Bool} (inv : Inv env t) (outcome : RemoveOutcome env t name removed t') :
    Inv env t' := by
  cases outcome with
  | absent => exact inv
  | removed _ _ effect => exact (effect.inv inv).2

theorem IncOutcome.inv {inc : Value P} (inv : Inv env t) (outcome : IncOutcome env t name inc value t') :
    Inv env t' := by
  cases outcome with
  | @present slot entry found stored =>
      exact inv.setValue (Hashtable.locate_some inv.stash.toBounded found).1 stored (entry.value + inc)
        (t.setValue slot (entry.value + inc)).calls
  | created _ effect => exact effect.inv

/-- Each call keeps the invariant. -/
theorem Effect.inv {op : Op P (Name κ)} {reply : Reply P κ} (inv : Inv env t)
    (effect : Effect env t op reply t') : Inv env t' := by
  cases effect with
  | write outcome => exact outcome.inv inv
  | remove outcome => exact outcome.inv inv
  | inc outcome | dec outcome => exact outcome.inv inv
  | observe => exact inv

end Preservation

/-- A step has the effect of its call. -/
theorem GrantedStep.effect {t t' : Hashtable P κ} {event : Event P κ} (inv : Inv env t)
    (step : GrantedStep env t event t') :
    ∃ op : Op P (Name κ), event.1 = op.map t.key ∧ Effect env t op event.2 t' := by
  cases step with
  | @call _ op reply readable granted returned =>
      exact ⟨op, rfl, (apply_spec granted inv readable).of_ok returned⟩

theorem GrantedStep.inv {t t' : Hashtable P κ} {event : Event P κ} (inv : Inv env t)
    (step : GrantedStep env t event t') : Inv env t' := by
  obtain ⟨op, -, effect⟩ := step.effect inv
  exact effect.inv inv

/-- Runs whose additions get their duplicates keep the invariant. -/
theorem Inv.run {t t' : Hashtable P κ} {events : List (Event P κ)} (inv : Inv env t)
    (run : Transition.Run (GrantedStep env) t events t') : Inv env t' :=
  run.preserves (Inv env) inv fun _ _ _ _ before step => step.inv before

theorem Step.effect {t t' : Hashtable P κ} {event : Event P κ} (returns : env.DupReturns) (inv : Inv env t)
    (step : Step env t event t') :
    ∃ op : Op P (Name κ), event.1 = op.map t.key ∧ Effect env t op event.2 t' :=
  (step.granted returns).effect inv

/-- A run keeps the invariant. -/
theorem Run.inv {t t' : Hashtable P κ} {events : List (Event P κ)} (returns : env.DupReturns)
    (inv : Inv env t) (run : Run env t events t') : Inv env t' :=
  inv.run (run.mono fun _ _ _ step => step.granted returns)

/-- Each reachable table satisfies the invariant. -/
theorem Reachable.inv {t : Hashtable P κ} (returns : env.DupReturns) (reachable : Reachable env t) :
    Inv env t := by
  obtain ⟨initialSize, created, events, new, run⟩ := reachable
  exact Run.inv returns (new_spec new).1 run

end Coucal
