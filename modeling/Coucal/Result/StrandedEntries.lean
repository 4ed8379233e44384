import Coucal.Proof.Calls

namespace Coucal

variable {P : Platform} {κ : Type} {env : Env P κ}

/-- After a run in which the additions got their duplicates, a write that gets its duplicate and adds an entry
leaves no stash entry with a free candidate slot. -/
theorem added_leaves_blocked {initialSize : Nat} {created t t' : Hashtable P κ} {events : List (Event P κ)}
    {name : Name κ} {value : Value P} (new : Hashtable.new env initialSize = some created)
    (run : Transition.Run (GrantedStep env) created events t) (readable : t.Readable name)
    (granted : t.Grants env name) (added : t.writeValue env name value = .ok (true, t')) :
    ∀ i, (t'.stash.items i).name ≠ none → Blocked t'.lgSize t'.items (t'.stash.items i) := by
  have inv := (new_spec new).1.run run
  have outcome := (writeValue_spec (fun _ => granted) inv readable).of_ok added
  cases outcome with
  | added _ effect => exact effect.blocked

/-- The third string with the same two positions goes to the stash. -/
theorem added_leaves_blocked_lengths :
    ∃ (t t' : Hashtable Platform.lp64 Empty) (name : Name Empty), Reachable Env.lengths t ∧
      t.writeValue Env.lengths name 3 = .ok (true, t') ∧ t'.stash.size = 1 ∧
      ∀ i, (t'.stash.items i).name ≠ none → Blocked t'.lgSize t'.items (t'.stash.items i) := by
  have answers : (Hashtable.session Env.lengths 0 [.writeValue (.string (CString.read [97])) 1,
      .writeValue (.string (CString.read [98])) 2]).map (fun result =>
        (result.2.writeValue Env.lengths (.own (.string (CString.read [99]))) 3).toOption.map
          fun written => (written.1, written.2.stash.size)) = some (some (true, 1)) := by
    decide +kernel
  obtain ⟨⟨_, t⟩, completed, written⟩ := Option.map_eq_some_iff.mp answers
  obtain ⟨created, new, run⟩ := Hashtable.session_run completed
  obtain ⟨⟨_, t'⟩, added, facts⟩ := Option.map_eq_some_iff.mp written
  obtain ⟨rfl, size⟩ := Prod.mk.inj facts
  have returned := Outcome.toOption_eq_some.mp added
  have pool : Env.lengths.DupReturns := Env.dupReturns_of_pool rfl
  have readable : t.Readable (.own (.string (CString.read [99]))) := trivial
  exact ⟨t, t', _, ⟨0, created, _, new, run⟩, returned, size,
    added_leaves_blocked new (run.mono fun _ _ _ step => step.granted pool) readable (pool.grants t _) returned⟩

/-- The duplication of the third string with the same two positions returns NULL. The write adds it all the same,
and the string that it moves to the stash has a free candidate slot. -/
theorem added_leaves_free_slot :
    ∃ (env : Env Platform.lp64 Empty) (created t t' : Hashtable Platform.lp64 Empty)
      (events : List (Event Platform.lp64 Empty)) (name : Name Empty), Hashtable.new env 0 = some created ∧
      Transition.Run (GrantedStep env) created events t ∧ t.writeValue env name 3 = .ok (true, t') ∧
      ∃ i, (t'.stash.items i).name ≠ none ∧ ¬ Blocked t'.lgSize t'.items (t'.stash.items i) := by
  let key : Key Empty := .string (CString.read [99])
  let env := Env.refusing key
  have answers : (Hashtable.session env 0 [.writeValue (.string (CString.read [97])) 1,
      .writeValue (.string (CString.read [98])) 2]).map (fun result =>
        (result.2.writeValue env (.own key) 3).toOption.map fun written => (written.1, decide (
          (written.2.stash.items 0).name ≠ none ∧ (written.2.items
            (hashToPos_ written.2.lgSize (written.2.stash.items 0).hashes.hash1)).name = none))) =
      some (some (true, true)) := by
    decide +kernel
  obtain ⟨⟨_, t⟩, completed, written⟩ := Option.map_eq_some_iff.mp answers
  obtain ⟨⟨_, t'⟩, added, facts⟩ := Option.map_eq_some_iff.mp written
  obtain ⟨rfl, facts⟩ := Prod.mk.inj facts
  obtain ⟨named, free⟩ := of_decide_eq_true facts
  obtain ⟨created, new, replayed⟩ := Option.bind_eq_some_iff.mp completed
  have run := Hashtable.replay_refusing (by decide +kernel) (Outcome.toOption_eq_some.mp replayed)
  exact ⟨env, created, t, t', _, _, new, run, Outcome.toOption_eq_some.mp added, 0, named, fun blocked => blocked.1 free⟩

end Coucal
