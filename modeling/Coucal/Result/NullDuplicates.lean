import Coucal.Abstract.Contents
import Coucal.Proof.Handlers

namespace Coucal

variable {P : Platform} {κ : Type} {env : Env P κ}

/-- What a caller may expect after a write has added a key: the key is found with its value, and the two
counters count the entries of a full enumeration and those of the stash. -/
structure Hashtable.Holds (env : Env P κ) (t : Hashtable P κ) (key : Key κ) (value : Value P) : Prop where
  found : t.readValue env (.own key) = some value
  counted : ∃ slots, t.Enumeration 0 slots ∧ t.nitems = slots.length
  stashed : t.stash.size = ((Finset.range t.stash.extent).filter fun i => (t.stash.items i).name ≠ none).card

/-- An invariant table counts its entries. -/
theorem Inv.holds {t : Hashtable P κ} (inv : Inv env t) {key : Key κ} {value : Value P}
    (found : t.readValue env (.own key) = some value) : t.Holds env key value := by
  obtain ⟨slots, enumeration⟩ := t.exists_enumeration 0
  refine ⟨found, ⟨slots, enumeration, ?_⟩, ?_⟩
  · rw [enumeration.length_eq inv.stash.toBounded, ← inv.used_eq]
    rfl
  · rw [inv.stash.counted.size_eq, card_liveIn]

section Write

variable {dup : Nat → Key κ → Option (Key κ)} {t t' : Hashtable P κ} {name : Name κ} {value : Value P}

/-- A new entry is the answer to a search that no other entry answers. -/
theorem answers_of_new {entries : Multiset (Entry P κ)} {entry found : Entry P κ} {key : Key κ}
    {hashes : Hashkeys P} (others : ∀ other ∈ entries, ¬ other.Matches env key hashes)
    (answers : Contents.Answers env (entry ::ₘ entries) key hashes (some found)) : found = entry := by
  rcases Multiset.mem_cons.mp answers.1 with same | member
  · exact same
  · exact absurd answers.2 (others found member)

/-- With a duplicate of the key the new entry is found exactly when the duplicate equals the key. -/
theorem holds_iff_of_copy (handler : env.dup = some dup) (inv : Inv env t) (readable : t.Readable name)
    (missing : t.locate env name (t.calcHashes env name) = none)
    (returned : t.writeValue env name value = .ok (true, t')) {copy : Key κ}
    (granted : dup t.calls.length (t.key name) = some copy) :
    t'.Holds env (t.key name) value ↔ env.equals copy (t.key name) = true := by
  have grants : t.Grants env name := by
    intro dup' handler'
    cases handler.symm.trans handler'
    rw [granted]
    exact Option.some_ne_none copy
  have outcome := (writeValue_spec (fun _ => grants) inv readable).of_ok returned
  have others := Hashtable.locate_none inv.placed inv.stash missing
  cases outcome with
  | added _ effect =>
      obtain ⟨copy', -, entries, calls⟩ := effect.copied
      have same : copy' = copy := by
        rw [(writeValue_asked handler missing returned).2.calls_eq, handler, granted] at calls
        cases calls
        rfl
      subst same
      obtain ⟨found, answers, read⟩ := Hashtable.readValue_answers effect.inv (.own (t.key name))
      rw [entries] at answers
      constructor
      · intro holds
        rw [holds.found] at read
        cases found with
        | none => cases read
        | some found =>
            have equal := answers.2.2
            rw [answers_of_new others answers] at equal
            exact equal
      · intro equal
        refine effect.inv.holds ?_
        rw [read]
        cases found with
        | none => exact absurd ⟨rfl, equal⟩ (answers _ (Multiset.mem_cons_self _ _))
        | some found => rw [answers_of_new others answers, Option.map_some]

/-- With NULL the table has no entry for the key: each live item was there before. -/
theorem not_found_of_null (handler : env.dup = some dup) (inv : Inv env t)
    (missing : t.locate env name (t.calcHashes env name) = none)
    (returned : t.writeValue env name value = .ok (true, t')) (null : dup t.calls.length (t.key name) = none) :
    t'.readValue env (.own (t.key name)) = none := by
  obtain ⟨-, arranged⟩ := writeValue_asked handler missing returned
  rw [null] at arranged
  let Old (item : Item P κ) : Prop := item.name ≠ none → ∃ slot, t.Within slot ∧ t.item slot = item
  have each : t'.Each Old := by
    refine arranged.each Old (fun named => absurd rfl named) (fun named => absurd rfl named) ⟨?_, ?_, ?_⟩
    · exact Nat.le_trans (by decide) inv.lgSize_ge
    · exact fun pos inside _ => ⟨.table pos, inside, rfl⟩
    · intro index named
      refine ⟨.stash index, ?_, rfl⟩
      by_contra outside
      exact named (inv.stash.above index (inv.stash.extent_le.trans (Nat.le_of_not_lt outside)))
  cases located : t'.locate env (.own (t.key name)) (t'.calcHashes env (.own (t.key name))) with
  | none => rw [Hashtable.readValue, Hashtable.fetchValue, Hashtable.fetchValueHashes, located]; rfl
  | some slot =>
      exfalso
      obtain ⟨below, answer⟩ := Hashtable.locate_matches located
      obtain ⟨entry, stored, matches_⟩ := Hashtable.matches_iff.mp answer
      have named := Hashtable.locate_named located
      have old : Old (t'.item slot) := by
        cases slot with
        | table pos => exact each.table pos below
        | stash index => exact each.stash index
      obtain ⟨before, inside, same⟩ := old named
      rw [← same, arranged.pool_eq] at stored
      exact Hashtable.locate_none inv.placed inv.stash missing entry
        (Hashtable.mem_entries.mpr ⟨before, inside, stored⟩) matches_

end Write

/-- After a run in which the additions got their duplicates, a write that adds a key keeps its promises
exactly when the duplication handler returns an equal key. -/
theorem addition_holds_iff {dup : Nat → Key κ → Option (Key κ)} {initialSize : Nat} {created t t' : Hashtable P κ}
    {events : List (Event P κ)} {name : Name κ} {value : Value P} (handler : env.dup = some dup)
    (new : Hashtable.new env initialSize = some created)
    (run : Transition.Run (GrantedStep env) created events t) (readable : t.Readable name)
    (absent : t.readValue env name = none) (returned : t.writeValue env name value = .ok (true, t')) :
    t'.Holds env (t.key name) value ↔
      ∃ copy, dup t.calls.length (t.key name) = some copy ∧ env.equals copy (t.key name) = true := by
  have inv := (new_spec new).1.run run
  have missing : t.locate env name (t.calcHashes env name) = none := Option.map_eq_none_iff.mp absent
  cases granted : dup t.calls.length (t.key name) with
  | none =>
      constructor
      · intro holds
        have lost := not_found_of_null handler inv missing returned granted
        rw [holds.found] at lost
        cases lost
      · rintro ⟨copy, none, -⟩
        cases none
  | some copy =>
      rw [holds_iff_of_copy handler inv readable missing returned granted]
      constructor
      · exact fun equal => ⟨copy, rfl, equal⟩
      · rintro ⟨_, ⟨⟩, equal⟩
        exact equal

/-- Strings with a duplication handler. -/
def Env.duplicated (dup : Nat → Key Empty → Option (Key Empty)) : Env Platform.lp64 Empty :=
  { Env.lengths with dup := some dup }

/-- A handler that returns the key itself. The first two strings have the same two positions as the third,
which the write adds through an eviction that ends in the stash. -/
theorem addition_holds_iff_copied :
    ∃ (t t' : Hashtable Platform.lp64 Empty) (key : Key Empty), t.nitems = 2 ∧
      t.writeValue (Env.duplicated fun _ key => some key) (.own key) 5 = .ok (true, t') ∧ t'.stash.size = 1 ∧
      t'.Holds (Env.duplicated fun _ key => some key) key 5 := by
  let env := Env.duplicated fun _ key => some key
  let key : Key Empty := .string (CString.read [99])
  have answers : (Hashtable.session env 0 [.writeValue (.string (CString.read [97])) 1,
      .writeValue (.string (CString.read [98])) 2]).bind (fun result =>
        (result.2.writeValue env (.own key) 5).toOption.map fun written =>
          (result.2.nitems, result.2.readValue env (.own key), written.1, written.2.stash.size)) =
      some (2, none, true, 1) := by
    decide +kernel
  obtain ⟨⟨_, t⟩, completed, answers⟩ := Option.bind_eq_some_iff.mp answers
  obtain ⟨⟨added, t'⟩, written, facts⟩ := Option.map_eq_some_iff.mp answers
  obtain ⟨items, absent, same, size⟩ : t.nitems = 2 ∧ t.readValue env (.own key) = none ∧ added = true ∧
      t'.stash.size = 1 := by
    simpa using facts
  cases same
  obtain ⟨created, new, run⟩ := Hashtable.session_run completed
  have returns : env.DupReturns := by
    rintro dup ⟨⟩ count key
    exact Option.some_ne_none key
  have returned := Outcome.toOption_eq_some.mp written
  have equal : env.equals key key = true := by decide +kernel
  have readable : t.Readable (.own key) := trivial
  exact ⟨t, t', key, items, returned, size, (addition_holds_iff rfl new
    (run.mono fun _ _ _ step => step.granted returns) readable absent returned).mpr ⟨key, rfl, equal⟩⟩

/-- A handler that returns NULL. The write reports an added key that no search finds, and the table counts an
entry that no enumeration returns. -/
theorem addition_lost :
    ∃ (created t : Hashtable Platform.lp64 Empty) (key : Key Empty),
      Hashtable.new (Env.duplicated fun _ _ => none) 0 = some created ∧
      created.writeValue (Env.duplicated fun _ _ => none) (.own key) 5 = .ok (true, t) ∧
      t.readValue (Env.duplicated fun _ _ => none) (.own key) = none ∧ t.nitems = 1 ∧ t.Enumeration 0 [] ∧
      ¬ t.Holds (Env.duplicated fun _ _ => none) key 5 := by
  let env := Env.duplicated fun _ _ => none
  let key : Key Empty := .string (CString.read [97])
  have answers : (Hashtable.new env 0).bind (fun created => (created.writeValue env (.own key) 5).toOption.map
      fun result => (result.1, result.2.readValue env (.own key), result.2.nitems, (result.2.enumNext 0).2)) =
      some (true, none, 1, none) := by
    decide +kernel
  obtain ⟨created, new, answers⟩ := Option.bind_eq_some_iff.mp answers
  obtain ⟨⟨added, t⟩, written, facts⟩ := Option.map_eq_some_iff.mp answers
  obtain ⟨same, lost, items, ends⟩ : added = true ∧ t.readValue env (.own key) = none ∧ t.nitems = 1 ∧
      (t.enumNext 0).2 = none := by
    simpa using facts
  cases same
  refine ⟨created, t, key, new, Outcome.toOption_eq_some.mp written, lost, items, .last ends, fun holds => ?_⟩
  have found := holds.found
  rw [lost] at found
  cases found

end Coucal
