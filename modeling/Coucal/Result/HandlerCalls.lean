import Coucal.Proof.Ownership

namespace Coucal

variable {P : Platform} {κ : Type} {env : Env P κ}

/-- The value that a handler call releases. -/
def Call.freedValue : Call P κ → Option (Value P)
  | .freeValue value => some value
  | .dup .. | .freeKey _ => none

/-- The key that a handler call duplicates. -/
def Call.duplicatedKey : Call P κ → Option (Key κ)
  | .dup key _ => some key
  | .freeKey _ | .freeValue _ => none

/-- The key that a handler call returns. -/
def Call.returnedKey : Call P κ → Option (Name κ)
  | .dup _ copy => copy.map .own
  | .freeKey _ | .freeValue _ => none

/-- The key that a handler call releases. -/
def Call.freedKey : Call P κ → Option (Name κ)
  | .freeKey name => some name
  | .dup .. | .freeValue _ => none

/-- The handler calls so far, seen through a partial function. -/
def Hashtable.callsOf {α : Type} (see : Call P κ → Option α) (t : Hashtable P κ) : Multiset α :=
  (t.calls : Multiset (Call P κ)).filterMap see

/-- The values other than NULL in the table and the stash. -/
def Hashtable.storedValues (t : Hashtable P κ) : Multiset (Value P) := (t.entries.map Entry.value).filter (· ≠ 0)

/-- The value other than NULL that an event writes. -/
def writtenValue : Event P κ → Multiset (Value P)
  | (.writeValue _ value, _) => if value ≠ 0 then {value} else 0
  | _ => 0

/-- The key of the entry that an event adds. -/
def addedKey : Event P κ → Multiset (Key κ)
  | (.writeValue key _, .flag true) => {key}
  | _ => 0

theorem Op.counts_map {ν μ : Type} (f : ν → μ) (op : Op P ν) : (op.map f).counts = op.counts := by
  cases op <;> rfl

/-- Each event of a run moves the account by what it causes. -/
theorem GrantedStep.account {t t' : Hashtable P κ} {event : Event P κ} (inv : Inv env t)
    (step : GrantedStep env t event t') (plain : event.1.counts = false) :
    Inv env t' ∧ ∃ caused, Causes env event caused ∧ t'.account env = caused + t.account env := by
  obtain ⟨op, shown, effect⟩ := step.effect inv
  rw [shown, Op.counts_map] at plain
  have moved := effect.account inv plain
  rw [← shown] at moved
  exact ⟨effect.inv inv, moved⟩

/-- A new table has no handler calls to account for. -/
theorem account_new {initialSize : Nat} {created : Hashtable P κ}
    (new : Hashtable.new env initialSize = some created) : created.account env = 0 := by
  obtain ⟨-, empty, calls, -⟩ := new_spec new
  rw [Hashtable.account, Hashtable.dues, empty, calls, Multiset.zero_bind]
  rfl

/-- The deletion of a table completes, with these handler calls. -/
theorem delete_callsOf {t : Hashtable P κ} (inv : Inv env t) :
    ∃ t', t.delete env = .ok t' ∧ ∀ {α : Type} (see : Call P κ → Option α),
      t'.callsOf see = (t.account env).filterMap see := by
  have spec := delete_spec inv.stash.toBounded inv.managed
  cases run : t.delete env with
  | error => exact (spec.of_error run).elim
  | ok t' => exact ⟨t', rfl, fun see => congrArg _ (spec.of_ok run)⟩

section Values

theorem releases_freedValue (frees : env.freeValue = true) (value : Value P) :
    (env.releases value : Multiset (Call P κ)).filterMap Call.freedValue = if value ≠ 0 then {value} else 0 := by
  unfold Env.releases
  by_cases null : value = 0
  · simp [null]
  · rw [if_pos ⟨frees, null⟩, if_pos null]
    rfl

theorem dues_freedValue (frees : env.freeValue = true) (entry : Entry P κ) :
    (entry.dues env).filterMap Call.freedValue = if entry.value ≠ 0 then {entry.value} else 0 := by
  rw [Entry.dues, Multiset.filterMap_add, releases_freedValue frees]
  split
  next => exact zero_add _
  next =>
    rw [filterMap_singleton]
    exact zero_add _

theorem account_freedValue (frees : env.freeValue = true) (t : Hashtable P κ) :
    (t.account env).filterMap Call.freedValue = t.callsOf Call.freedValue + t.storedValues := by
  rw [Hashtable.account, Multiset.filterMap_add, Hashtable.dues, Multiset.filterMap_bind]
  congr 1
  unfold Hashtable.storedValues
  induction t.entries using Multiset.induction_on with
  | empty => rfl
  | cons entry entries ih =>
      rw [Multiset.cons_bind, ih, dues_freedValue frees, Multiset.map_cons, Multiset.filter_cons]

theorem Causes.freedValue {event : Event P κ} {caused : Multiset (Call P κ)} (frees : env.freeValue = true)
    (causes : Causes env event caused) : caused.filterMap Call.freedValue = writtenValue event := by
  cases causes with
  | replace key value => exact releases_freedValue frees value
  | insert key copy value hashes =>
      rw [Multiset.filterMap_add, dues_freedValue frees]
      split
      next => exact zero_add _
      next =>
        rw [filterMap_singleton]
        exact zero_add _
  | other unwritten =>
      obtain ⟨op, reply⟩ := event
      cases op with
      | writeValue key value => exact absurd rfl (unwritten key value)
      | remove | readValue | exists_ | fetchValueHashes | nitems | inc | dec | enumNext => rfl

/-- NULL is no written value. -/
theorem null_not_written (events : List (Event P κ)) : 0 ∉ (events.map writtenValue).sum := by
  induction events with
  | nil => exact Multiset.notMem_zero _
  | cons event events ih =>
      rw [List.map_cons, List.sum_cons, Multiset.mem_add, not_or]
      refine ⟨?_, ih⟩
      unfold writtenValue
      split
      next value _ =>
        split
        next nonzero => exact fun member => nonzero (Multiset.mem_singleton.mp member).symm
        next => exact Multiset.notMem_zero _
      next => exact Multiset.notMem_zero _

/-- With a handler for values, each value other than NULL that a run has written is stored, or was
passed to the handler. The deletion passes the stored ones to it. In the run no duplicate of a key is NULL. -/
theorem run_owns_values {initialSize : Nat} {created t : Hashtable P κ} {events : List (Event P κ)}
    (frees : env.freeValue = true) (new : Hashtable.new env initialSize = some created)
    (run : Transition.Run (GrantedStep env) created events t)
    (plain : ∀ event ∈ events, event.1.counts = false) :
    t.callsOf Call.freedValue + t.storedValues = (events.map writtenValue).sum ∧
      0 ∉ t.callsOf Call.freedValue ∧
      ∃ t', t.delete env = .ok t' ∧ t'.callsOf Call.freedValue = (events.map writtenValue).sum := by
  have inv := (new_spec new).1
  have written := run.accumulates (Inv env) inv
    (fun s => (s.account env).filterMap Call.freedValue) writtenValue
    fun state event next member before step => by
      obtain ⟨after, caused, causes, moved⟩ := step.account before (plain event member)
      exact ⟨after, by rw [moved, Multiset.filterMap_add, causes.freedValue frees]⟩
  rw [account_new new, Multiset.filterMap_zero, add_zero, account_freedValue frees] at written
  refine ⟨written, fun null => null_not_written events ?_, ?_⟩
  · exact written ▸ Multiset.mem_add.mpr (.inl null)
  · obtain ⟨t', deleted, calls⟩ := delete_callsOf (inv.run run)
    exact ⟨t', deleted, by rw [calls, account_freedValue frees, written]⟩

/-- Two values for one key, and the NULL value. -/
theorem run_owns_values_lengths :
    ∃ (env : Env Platform.lp64 Empty) (t t' : Hashtable Platform.lp64 Empty), env.freeValue = true ∧
      t.callsOf Call.freedValue + t.storedValues = {5, 7} ∧ t.delete env = .ok t' ∧
      t'.callsOf Call.freedValue = {5, 7} := by
  let env : Env Platform.lp64 Empty := { Env.lengths with freeValue := true, dup := some fun _ key => some key }
  have answers : (Hashtable.session env 0 [.writeValue (.string (CString.read [97])) 5,
      .writeValue (.string (CString.read [97])) 7, .writeValue (.string (CString.read [98])) 0]).map Prod.fst =
      some [.flag true, .flag false, .flag true] := by
    decide +kernel
  obtain ⟨⟨_, t⟩, completed, rfl⟩ := Option.map_eq_some_iff.mp answers
  obtain ⟨created, new, run⟩ := Hashtable.session_run completed
  have returns : env.DupReturns := by
    rintro dup ⟨⟩ count key
    exact Option.some_ne_none key
  obtain ⟨written, -, t', deleted, freed⟩ :=
    run_owns_values rfl new (run.mono fun _ _ _ step => step.granted returns) (by decide)
  exact ⟨env, t, t', rfl, written, deleted, freed⟩

/-- A duplication handler that returns NULL. The written value lies in a slot that counts as free, and neither
a call of the table nor its deletion passes the value to its handler. -/
theorem run_loses_values :
    ∃ (env : Env Platform.lp64 Empty) (created t t' : Hashtable Platform.lp64 Empty)
      (events : List (Event Platform.lp64 Empty)), env.freeValue = true ∧
      Hashtable.new env 0 = some created ∧ Run env created events t ∧
      (∀ event ∈ events, event.1.counts = false) ∧ (events.map writtenValue).sum = {5} ∧
      t.callsOf Call.freedValue + t.storedValues = 0 ∧ t.delete env = .ok t' ∧ t'.callsOf Call.freedValue = 0 := by
  let env : Env Platform.lp64 Empty := { Env.lengths with freeValue := true, dup := some fun _ _ => none }
  let ops : List (Op Platform.lp64 (Key Empty)) := [.writeValue (.string (CString.read [97])) 5]
  have answers : (Hashtable.session env 0 ops).bind (fun result => (result.2.delete env).toOption.map fun deleted =>
      (result.1, decide (result.2.callsOf Call.freedValue + result.2.storedValues = 0),
        decide (deleted.callsOf Call.freedValue = 0))) = some ([.flag true], true, true) := by
    decide +kernel
  obtain ⟨⟨replies, t⟩, completed, answers⟩ := Option.bind_eq_some_iff.mp answers
  obtain ⟨t', deleted, facts⟩ := Option.map_eq_some_iff.mp answers
  obtain ⟨rfl, kept, freed⟩ : replies = [.flag true] ∧ t.callsOf Call.freedValue + t.storedValues = 0 ∧
      t'.callsOf Call.freedValue = 0 := by
    simpa using facts
  obtain ⟨created, new, run⟩ := Hashtable.session_run completed
  exact ⟨env, created, t, t', _, rfl, new, run, by decide, by decide, kept, Outcome.toOption_eq_some.mp deleted, freed⟩

end Values

section Keys

variable {dup : Nat → Key κ → Option (Key κ)}

/-- The calls that release an entry release its key and duplicate nothing. -/
theorem dues_freedKey (handler : env.dup = some dup) (entry : Entry P κ) :
    (entry.dues env).filterMap Call.freedKey = {.own entry.key} ∧
      (entry.dues env).filterMap Call.returnedKey = 0 ∧
      (entry.dues env).filterMap Call.duplicatedKey = 0 := by
  unfold Entry.dues Env.releases
  rw [handler]
  by_cases released : env.freeValue = true ∧ entry.value ≠ 0
  · rw [if_pos released]
    exact ⟨rfl, rfl, rfl⟩
  · rw [if_neg released]
    exact ⟨rfl, rfl, rfl⟩

/-- The names of a table with a duplication handler are the keys of its entries. -/
theorem names_eq_keys {t : Hashtable P κ} (handler : env.dup = some dup) (managed : env.Managed t.pool t.names) :
    t.names = t.entries.map fun entry => .own entry.key := by
  have keys := congrArg (Multiset.map Name.own) t.map_key_entries
  rw [Multiset.map_map, Multiset.map_map] at keys
  refine Eq.trans (Eq.symm ?_) keys.symm
  refine (Multiset.map_congr rfl fun name member => ?_).trans (Multiset.map_id' t.names)
  exact (managed.own_name (by rw [handler]; rfl) member).symm

theorem account_freedKey {t : Hashtable P κ} (handler : env.dup = some dup)
    (managed : env.Managed t.pool t.names) :
    (t.account env).filterMap Call.freedKey = t.callsOf Call.freedKey + t.names ∧
      (t.account env).filterMap Call.returnedKey = t.callsOf Call.returnedKey ∧
      (t.account env).filterMap Call.duplicatedKey = t.callsOf Call.duplicatedKey := by
  unfold Hashtable.account Hashtable.dues
  simp only [Multiset.filterMap_add, Multiset.filterMap_bind, dues_freedKey handler, Multiset.bind_zero,
    add_zero, Multiset.bind_singleton, names_eq_keys handler managed]
  exact ⟨rfl, rfl, rfl⟩

/-- An event leaves as many keys to release as it has the handler return. It has a key duplicated when
it adds an entry. -/
theorem Causes.freedKey {event : Event P κ} {caused : Multiset (Call P κ)} (handler : env.dup = some dup)
    (causes : Causes env event caused) :
    caused.filterMap Call.freedKey = caused.filterMap Call.returnedKey ∧
      caused.filterMap Call.duplicatedKey = addedKey event := by
  cases causes with
  | replace =>
      unfold Env.releases
      split <;> exact ⟨rfl, rfl⟩
  | insert key copy value hashes =>
      obtain ⟨freed, returned, duplicated⟩ := dues_freedKey handler (⟨copy, value, hashes⟩ : Entry P κ)
      simp only [Multiset.filterMap_add, freed, returned, duplicated, handler]
      exact ⟨rfl, rfl⟩
  | other unwritten =>
      refine ⟨rfl, ?_⟩
      obtain ⟨op, reply⟩ := event
      cases op with
      | writeValue key value => exact absurd rfl (unwritten key value)
      | remove | readValue | exists_ | fetchValueHashes | nitems | inc | dec | enumNext => rfl

/-- With handlers for keys, a run has one key duplicated for each entry that it adds. Each returned key
is the name of a live item, or was passed back to the handlers. The deletion passes all names back. -/
theorem run_owns_keys {initialSize : Nat} {created t : Hashtable P κ} {events : List (Event P κ)}
    (returns : env.DupReturns) (handler : env.dup = some dup)
    (new : Hashtable.new env initialSize = some created) (run : Run env created events t)
    (plain : ∀ event ∈ events, event.1.counts = false) :
    t.callsOf Call.duplicatedKey = (events.map addedKey).sum ∧
      t.callsOf Call.returnedKey = t.callsOf Call.freedKey + t.names ∧
      ∃ t', t.delete env = .ok t' ∧ t'.callsOf Call.returnedKey = t.callsOf Call.returnedKey ∧
        t'.callsOf Call.freedKey = t.callsOf Call.returnedKey := by
  have inv := (new_spec new).1
  have granted := run.mono fun _ _ _ step => step.granted returns
  have final := inv.run granted
  obtain ⟨freed, returned, duplicated⟩ := account_freedKey handler final.managed
  have added := granted.accumulates (Inv env) inv
    (fun s => (s.account env).filterMap Call.duplicatedKey) addedKey
    fun state event next member before step => by
      obtain ⟨after, caused, causes, moved⟩ := step.account before (plain event member)
      exact ⟨after, by rw [moved, Multiset.filterMap_add, (causes.freedKey handler).2]⟩
  rw [account_new new, Multiset.filterMap_zero, add_zero, duplicated] at added
  have balance := (granted.preserves (fun s => Inv env s ∧
    (s.account env).filterMap Call.freedKey = (s.account env).filterMap Call.returnedKey)
    ⟨inv, by rw [account_new new, Multiset.filterMap_zero, Multiset.filterMap_zero]⟩
    fun state event next member before step => by
      obtain ⟨after, caused, causes, moved⟩ := step.account before.1 (plain event member)
      exact ⟨after, by rw [moved, Multiset.filterMap_add, Multiset.filterMap_add, before.2,
        (causes.freedKey handler).1]⟩).2
  rw [freed, returned] at balance
  obtain ⟨t', deleted, calls⟩ := delete_callsOf final
  exact ⟨added, balance.symm, t', deleted, by rw [calls, returned], by rw [calls, freed, balance]⟩

/-- Two keys, one of them written twice and one removed. -/
theorem run_owns_keys_lengths :
    ∃ (env : Env Platform.lp64 Empty) (t t' : Hashtable Platform.lp64 Empty), env.dup.isSome ∧
      t.callsOf Call.duplicatedKey = {.string (CString.read [97]), .string (CString.read [98])} ∧
      t.callsOf Call.returnedKey = t.callsOf Call.freedKey + t.names ∧ t.delete env = .ok t' ∧
      t'.callsOf Call.freedKey = t.callsOf Call.returnedKey := by
  let env : Env Platform.lp64 Empty := { Env.lengths with dup := some fun _ key => some key }
  have answers : (Hashtable.session env 0 [.writeValue (.string (CString.read [97])) 5,
      .writeValue (.string (CString.read [98])) 6, .writeValue (.string (CString.read [97])) 7,
      .remove (.string (CString.read [98]))]).map Prod.fst =
      some [.flag true, .flag true, .flag false, .flag true] := by
    decide +kernel
  obtain ⟨⟨_, t⟩, completed, rfl⟩ := Option.map_eq_some_iff.mp answers
  obtain ⟨created, new, run⟩ := Hashtable.session_run completed
  have returns : env.DupReturns := by
    rintro dup ⟨⟩ count key
    exact Option.some_ne_none key
  obtain ⟨duplicated, returned, t', deleted, -, freed⟩ := run_owns_keys returns rfl new run (by decide)
  exact ⟨env, t, t', rfl, duplicated, returned, deleted, freed⟩

end Keys
end Coucal
