import Coucal.Construction.Statistics
import Coucal.Library.Driven
import Coucal.Proof.Live

namespace Coucal

open Outcome Recorded

variable {P : Platform} {κ : Type}

namespace Counted

section Value

variable (env : Env P κ) (t : Hashtable P κ)

theorem bind_ok {ε α : Type} (result : Except ε α) : (result >>= fun value => .ok value) = result := by
  cases result <;> rfl

@[simp] theorem compactPool_value (capacity : Nat) :
    plain (compactPool env t capacity) = t.compactPool env capacity := by
  simp [compactPool, bind_ok]

@[simp] theorem reallocPool_value (capacity : Nat) :
    plain (reallocPool env t capacity) = t.reallocPool env capacity := by
  rw [reallocPool, plain_bind, plain_lift]
  by_cases managed : env.dup.isNone = true
  · simp only [plain_ite, plain_bind, plain_lift, plain_tell, compactPool_value, coucalAssert_of managed, ok_bind]
    rw [Hashtable.reallocPool, coucalAssert_of managed, ok_bind]
    split
    next => rfl
    next => exact bind_ok _
  · have refused : coucalAssert .poolManaged (env.dup.isNone) = .error (.assertion .poolManaged) := if_neg managed
    rw [Hashtable.reallocPool, refused]
    rfl

@[simp] theorem growPool_value (name : Name κ) (text : CString) :
    plain (growPool env t name text) = t.growPool env name text := by
  simp [growPool, Hashtable.growPool]

@[simp] theorem makeRoom_value (name : Name κ) (text : CString) :
    plain (makeRoom env t name text) = t.makeRoom env name text := by
  simp [makeRoom, Hashtable.makeRoom]

@[simp] theorem dupNameInternal_value (name : Name κ) :
    plain (dupNameInternal env t name) = t.dupNameInternal env name := by
  simp [dupNameInternal, Hashtable.dupNameInternal]

@[simp] theorem dupName_value (name : Name κ) : plain (dupName env t name) = t.dupName env name := by
  cases handler : env.dup <;> simp [dupName, Hashtable.dupName, handler]

@[simp] theorem freeKeyInternal_value (name : Name κ) :
    plain (freeKeyInternal env t name) = t.freeKeyInternal env name := by
  cases name <;> simp [freeKeyInternal, Hashtable.freeKeyInternal]

@[simp] theorem freeKey_value (name : Name κ) : plain (freeKey env t name) = t.freeKey env name := by
  cases handler : env.dup <;> simp [freeKey, Hashtable.freeKey, handler]

@[simp] theorem delName_value (slot : Slot) : plain (delName env t slot) = t.delName env slot := by
  cases named : (t.item slot).name <;> simp [delName, Hashtable.delName, named]

@[simp] theorem delItem_value (slot : Slot) : plain (delItem env t slot) = t.delItem env slot := by
  simp [delItem, Hashtable.delItem]

@[simp] theorem evict_value (lgSize : Nat) (initialHash : Hashkey P) (loops : Nat) (items : Nat → Item P κ)
    (item : Item P κ) (cuckooHash : Hashkey P) :
    plain (evict lgSize initialHash loops items item cuckooHash) =
      Coucal.evict lgSize initialHash loops items item cuckooHash := by
  induction loops generalizing items item cuckooHash with
  | zero => rfl
  | succ loops ih => simp [evict, Coucal.evict, ih]

@[simp] theorem addItem_value (item : Item P κ) : plain (addItem_ t item) = t.addItem_ item := by
  simp only [addItem_, Hashtable.addItem_, plain_ite, plain_pure, plain_bind, evict_value]
  congr
  funext result
  obtain ⟨items, left⟩ := result
  cases left <;> simp

@[simp] theorem write_value (name : Name κ) (value : Value P) :
    plain (writeValue_ env t name value) = t.writeValue_ env name value := by
  cases found : t.locate env name (t.calcHashes env name) <;> simp [writeValue_, Hashtable.writeValue_, found]

@[simp] theorem expand_value : plain (expand env t) = t.expand env := by
  simp [expand, bind_ok]

@[simp] theorem mergeEntry_value (saved : Stash P κ) (index : Nat) :
    plain (mergeEntry saved index t) = Hashtable.mergeEntry saved index t := by
  simp [mergeEntry, Hashtable.mergeEntry]

@[simp] theorem mergeStash_value : plain (mergeStash t) = t.mergeStash := by
  simp [mergeStash, Hashtable.mergeStash, plain_forUpTo]

@[simp] theorem writeValue_value (name : Name κ) (value : Value P) :
    plain (writeValue env t name value) = t.writeValue env name value := by
  simp [writeValue, Hashtable.writeValue]

@[simp] theorem inc_value (name : Name κ) (inc : Value P) :
    plain (inc_ env t name inc) = t.inc_ env name inc := by
  cases found : t.fetchValue env name <;> simp [inc_, Hashtable.inc_, found]

@[simp] theorem removeLocated_value (name : Name κ) (hashes : Hashkeys P) :
    plain (remove_ env t name hashes) = t.remove_ env name hashes := by
  cases found : t.locate env name hashes with
  | none => simp [remove_, Hashtable.remove_, found]
  | some slot => cases slot <;> simp [remove_, Hashtable.remove_, found]

@[simp] theorem remove_value (name : Name κ) : plain (remove env t name) = t.remove env name := by
  simp [remove, Hashtable.remove]

/-- The counters have no effect on a call. -/
theorem apply_value (op : Op P (Name κ)) : plain (apply env t op) = t.apply env op := by
  cases op <;> simp [apply, Hashtable.apply, Hashtable.inc, Hashtable.dec]

end Value

end Counted

/-- A step of the table that counts is a step of the table. -/
theorem Metered.Step.table {env : Env P κ} {state next : Metered P κ} {event : Event P κ}
    (step : Metered.Step env state event next) : Coucal.Step env state.table event next.table := by
  cases step with
  | call readable returns =>
      have value := congrArg (Prod.fst <$> ·) returns
      exact .call readable ((Counted.apply_value env _ _).symm.trans value)

/-- A call that returns is a step. -/
theorem Metered.makes_step {env : Env P κ} {op : Op P (Name κ)} {state next : Metered P κ}
    (readable : ∀ name, op.name? = some name → state.table.Readable name)
    (made : Metered.makes env op state = .ok next) :
    ∃ reply, Metered.Step env state (op.map state.table.key, reply) next := by
  obtain ⟨t, past⟩ := state
  obtain ⟨⟨⟨reply, t'⟩, marks⟩, returns, rest⟩ := bind_eq_ok.mp made
  cases rest
  exact ⟨reply, .call readable returns⟩

/-- A call with a key of the caller shows its key. -/
theorem Metered.makes_own {env : Env P κ} {op : Op P (Key κ)} {state next : Metered P κ}
    (made : Metered.makes env (op.map .own) state = .ok next) : ∃ reply, Metered.Step env state (op, reply) next := by
  have step := Metered.makes_step (op.readable_own state.table) made
  rwa [op.map_key_own state.table] at step

/-- A run of the table is a run of the table that counts, without its marks. -/
theorem run_iff_metered {env : Env P κ} {t t' : Hashtable P κ} {events : List (Event P κ)} (past : List Mark) :
    Run env t events t' ↔ ∃ marks, Metered.Run env ⟨t, past⟩ events ⟨t', marks⟩ := by
  constructor
  · intro run
    obtain ⟨⟨_, marks⟩, metered, rfl⟩ : ∃ state : Metered P κ,
        Metered.Run env ⟨t, past⟩ events state ∧ state.table = t' := by
      refine run.simulate (fun t (state : Metered P κ) => state.table = t) ?_ rfl
      rintro _ _ _ ⟨_, past⟩ - rfl ⟨readable, returns⟩
      obtain ⟨marks, counted⟩ := exists_marks ((Counted.apply_value env _ _).trans returns)
      exact ⟨⟨_, past ++ marks⟩, .call readable counted, rfl⟩
    exact ⟨marks, metered⟩
  · rintro ⟨marks, metered⟩
    obtain ⟨_, run, rfl⟩ : ∃ last, Run env t events last ∧ t' = last := by
      refine metered.simulate (fun state t => state.table = t) ?_ rfl
      rintro state event next _ - rfl step
      exact ⟨_, step.table, rfl⟩
    exact run

end Coucal
