import Coucal.Abstract.FiniteMap

namespace Coucal

variable {P : Platform} {κ : Type} {env : Env P κ}

/-- Each run of a table under lawful handlers is a run of a finite map, and the map represents the
entries of the table. -/
theorem run_refines_map {initialSize : Nat} {created t : Hashtable P κ} {events : List (Event P κ)}
    (lawful : env.Lawful) (new : Hashtable.new env initialSize = some created)
    (run : Run env created events t) :
    ∃ map : FiniteMap lawful, FiniteMap.Run lawful ∅ events map ∧ map.Represents t.entries := by
  obtain ⟨inv, empty, -⟩ := new_spec new
  have contents := Run.contents lawful.dupReturns inv run
  rw [empty] at contents
  exact contents.simulated

/-- A write, a write that replaces, a search with other hashes and a removal, on one key. -/
theorem run_refines_map_lengths :
    ∃ (t : Hashtable Platform.lp64 Empty) (map : FiniteMap (Env.strings_lawful _ _ _ : Env.lengths.Lawful)),
      FiniteMap.Run _ ∅
        [(.writeValue (.string ⟨[97], by decide⟩) 5, .flag true),
          (.writeValue (.string ⟨[97], by decide⟩) 7, .flag false),
          (.readValue (.string ⟨[97], by decide⟩), .value (some 7)),
          (.fetchValueHashes (.string ⟨[97], by decide⟩) ⟨0, 0⟩, .value none),
          (.remove (.string ⟨[97], by decide⟩), .flag true), (.nitems, .count 0)] map ∧
      map.Represents t.entries := by
  have answers : (Hashtable.session Env.lengths 0
      [.writeValue (.string ⟨[97], by decide⟩) 5, .writeValue (.string ⟨[97], by decide⟩) 7,
        .readValue (.string ⟨[97], by decide⟩), .fetchValueHashes (.string ⟨[97], by decide⟩) ⟨0, 0⟩,
        .remove (.string ⟨[97], by decide⟩), .nitems]).map Prod.fst =
      some [.flag true, .flag false, .value (some 7), .value none, .flag true, .count 0] := by
    decide +kernel
  obtain ⟨⟨_, t⟩, completed, rfl⟩ := Option.map_eq_some_iff.mp answers
  obtain ⟨created, new, run⟩ := Hashtable.session_run completed
  obtain ⟨map, refined⟩ := run_refines_map (Env.strings_lawful _ _ _) new run
  exact ⟨t, map, refined⟩

end Coucal
