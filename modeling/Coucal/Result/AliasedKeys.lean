import Coucal.Proof.Addresses

namespace Coucal

open Outcome

variable {P : Platform} {κ : Type} {env : Env P κ}

/-- The private copy of the string at an address of the pool. -/
def Hashtable.privateCopy (t : Hashtable P κ) (address : Nat) : Name κ := .own (.string (t.pool.stringAt address))

/-- Calls that only read the table see the content of the key only. -/
theorem apply_congr_of_quiet {t : Hashtable P κ} {name name' : Name κ} (same : t.key name = t.key name')
    {op : Op P Unit} (quiet : op.quiet = true) :
    t.apply env (op.map fun _ => name) = t.apply env (op.map fun _ => name') := by
  have places := locate_congr env same
  have reads : t.readValue env name = t.readValue env name' := by
    simp only [Hashtable.readValue, Hashtable.fetchValue, Hashtable.fetchValueHashes,
      calcHashes_congr env same, places]
  cases op with
  | readValue => simp only [Op.map, Hashtable.apply, reads]
  | exists_ => simp only [Op.map, Hashtable.apply, Hashtable.exists_, reads]
  | fetchValueHashes _ hashes => simp only [Op.map, Hashtable.apply, Hashtable.fetchValueHashes, places]
  | nitems | enumNext => rfl
  | writeValue | remove | inc | dec => cases quiet

/-- A removal uses its key before it changes the pool. -/
theorem remove_congr {t : Hashtable P κ} {name name' : Name κ} (same : t.key name = t.key name') :
    t.remove env name = t.remove env name' := by
  simp only [Hashtable.remove, Hashtable.remove_, calcHashes_congr env same, locate_congr env same]

/-- A call with a pointer to a byte below the watermark of the pool, inside a key or the remains of one, agrees
with the same call with a private copy of the string there. Both return the same answer and leave the same keys
with the same values, or both fail with the same error. Only a lack of memory can part them, since the pointer
may need one more allocation. -/
theorem pooledKey_agrees {t : Hashtable P κ} {offset : Nat} (pool : env.dup = none) (reachable : Reachable env t)
    (inside : offset < t.pool.size) (op : Op P Unit) :
    Agrees (t.ShortOfMemory env) SameOutcome
      (t.apply env (op.map fun _ => .pooled (t.pool.buffer + offset)))
      (t.apply env (op.map fun _ => t.privateCopy (t.pool.buffer + offset))) := by
  have inv := reachable.inv (Env.dupReturns_of_pool pool)
  have readable : t.Readable (.pooled (t.pool.buffer + offset)) := by
    refine ⟨Nat.le_add_right _ _, ?_⟩
    rw [Nat.add_sub_cancel_left]
    exact inside
  have same : t.key (.pooled (t.pool.buffer + offset)) = t.key (t.privateCopy (t.pool.buffer + offset)) := rfl
  have equal {α : Type} (result : Result (α × Hashtable P κ)) :
      Agrees (t.ShortOfMemory env) SameOutcome result result :=
    (Agrees.self result).strengthen fun _ _ _ _ equal => equal ▸ ⟨rfl, rfl⟩
  cases op with
  | writeValue _ value => exact SameOutcome.answer (writeValue_agrees pool inv readable same) Reply.flag
  | inc | dec =>
      refine SameOutcome.answer (SameOutcome.answer ?_ (BitVec.setWidth P.intSize)) Reply.int
      exact inc_agrees pool inv readable same
  | remove =>
      simp only [Op.map, Hashtable.apply, remove_congr same]
      exact equal _
  | readValue | exists_ | fetchValueHashes | nitems | enumNext =>
      rw [apply_congr_of_quiet same rfl]
      exact equal _

/-- A suffix of the only key is written while the pool grows. -/
theorem pooledKey_agrees_suffix :
    ∃ t : Hashtable Platform.lp64 Empty, Reachable Env.lengths t ∧ t.pool.capacity - t.pool.size < 200 ∧
      (t.pool.stringAt (t.pool.buffer + 1)).strlen = 199 ∧
      Agrees (t.ShortOfMemory Env.lengths) SameOutcome
        (t.apply Env.lengths (.writeValue (.pooled (t.pool.buffer + 1)) 7))
        (t.apply Env.lengths (.writeValue (t.privateCopy (t.pool.buffer + 1)) 7)) := by
  let text : CString := ⟨List.replicate 200 97, by decide⟩
  have sizes : (Hashtable.session Env.lengths 0 [.writeValue (.string text) 5]).map (fun result =>
      (result.2.pool.size, result.2.pool.capacity,
        (result.2.pool.stringAt (result.2.pool.buffer + 1)).strlen)) = some (201, 256, 199) := by
    decide +kernel
  obtain ⟨⟨_, t⟩, completed, same⟩ := Option.map_eq_some_iff.mp sizes
  obtain ⟨created, new, run⟩ := Hashtable.session_run completed
  have reachable : Reachable Env.lengths t := ⟨0, created, _, new, run⟩
  obtain ⟨size, capacity, length⟩ : t.pool.size = 201 ∧ t.pool.capacity = 256 ∧
      (t.pool.stringAt (t.pool.buffer + 1)).strlen = 199 := by simpa using same
  refine ⟨t, reachable, by omega, length, ?_⟩
  exact pooledKey_agrees rfl reachable (by omega : 1 < t.pool.size) (.writeValue () 7)

end Coucal
