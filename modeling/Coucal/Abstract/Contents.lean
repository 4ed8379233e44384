import Coucal.Proof.Calls
import Coucal.Proof.Cursor

namespace Coucal

variable {P : Platform} {κ : Type} {env : Env P κ}

namespace Contents

/-- The answer of a search in a multiset of entries. -/
def Answers (env : Env P κ) (entries : Multiset (Entry P κ)) (key : Key κ) (hashes : Hashkeys P) :
    Option (Entry P κ) → Prop
  | some entry => entry ∈ entries ∧ entry.Matches env key hashes
  | none => ∀ entry ∈ entries, ¬ entry.Matches env key hashes

/-- An increment by one, or a decrement by one. -/
inductive Counts : Op P (Key κ) → Key κ → Value P → Prop where
  | inc (key : Key κ) : Counts (.inc key) key 1
  | dec (key : Key κ) : Counts (.dec key) key (-1)

/-- The table as its callers see it: a multiset of entries. A call that adds an entry copies the key,
and no later call changes it. -/
inductive Step (env : Env P κ) : Multiset (Entry P κ) → Event P κ → Multiset (Entry P κ) → Prop where
  | replace {entries : Multiset (Entry P κ)} {entry : Entry P κ} {key : Key κ} {value : Value P}
      (matches_ : entry.Matches env key (env.hash key)) :
      Step env (entry ::ₘ entries) (.writeValue key value, .flag false) ({ entry with value } ::ₘ entries)
  | insert {entries : Multiset (Entry P κ)} {key copy : Key κ} {value : Value P}
      (absent : Answers env entries key (env.hash key) none) (copies : env.Copies key copy) :
      Step env entries (.writeValue key value, .flag true) (⟨copy, value, env.hash key⟩ ::ₘ entries)
  | remove {entries : Multiset (Entry P κ)} {entry : Entry P κ} {key : Key κ}
      (matches_ : entry.Matches env key (env.hash key)) :
      Step env (entry ::ₘ entries) (.remove key, .flag true) entries
  | keep {entries : Multiset (Entry P κ)} {key : Key κ}
      (absent : Answers env entries key (env.hash key) none) :
      Step env entries (.remove key, .flag false) entries
  | readValue {entries : Multiset (Entry P κ)} {key : Key κ} {found : Option (Entry P κ)}
      (answers : Answers env entries key (env.hash key) found) :
      Step env entries (.readValue key, .value (found.map Entry.value)) entries
  | exists_ {entries : Multiset (Entry P κ)} {key : Key κ} {found : Option (Entry P κ)}
      (answers : Answers env entries key (env.hash key) found) :
      Step env entries (.exists_ key, .flag found.isSome) entries
  | fetchValueHashes {entries : Multiset (Entry P κ)} {key : Key κ} {hashes : Hashkeys P}
      {found : Option (Entry P κ)} (answers : Answers env entries key hashes found) :
      Step env entries (.fetchValueHashes key hashes, .value (found.map Entry.value)) entries
  | nitems {entries : Multiset (Entry P κ)} : Step env entries (.nitems, .count entries.card) entries
  | count {entries : Multiset (Entry P κ)} {op : Op P (Key κ)} {entry : Entry P κ} {key : Key κ}
      {inc : Value P} (counts : Counts op key inc) (matches_ : entry.Matches env key (env.hash key)) :
      Step env (entry ::ₘ entries) (op, .int ((entry.value + inc).setWidth P.intSize))
        ({ entry with value := entry.value + inc } ::ₘ entries)
  | create {entries : Multiset (Entry P κ)} {op : Op P (Key κ)} {key copy : Key κ} {inc : Value P}
      (counts : Counts op key inc) (absent : Answers env entries key (env.hash key) none)
      (copies : env.Copies key copy) :
      Step env entries (op, .int (inc.setWidth P.intSize)) (⟨copy, inc, env.hash key⟩ ::ₘ entries)
  | enumNext {entries : Multiset (Entry P κ)} {index next : Nat} {found : Option (Key κ × Value P)}
      (among : ∀ key value, found = some (key, value) →
        ∃ entry ∈ entries, entry.key = key ∧ entry.value = value) :
      Step env entries (.enumNext index, .entry next found) entries

abbrev Run (env : Env P κ) := Transition.Run (Step env)

end Contents

namespace Hashtable

variable {t t' : Hashtable P κ}

/-- A search in the table answers the search in its entries. -/
theorem locate_answers (inv : Inv env t) (name : Name κ) (hashes : Hashkeys P) :
    Contents.Answers env t.entries (t.key name) hashes
      ((t.locate env name hashes).bind t.entryAt) := by
  cases located : t.locate env name hashes with
  | none => exact locate_none inv.placed inv.stash located
  | some slot =>
      obtain ⟨inside, entry, stored, matches_⟩ := locate_some inv.stash.toBounded located
      rw [Option.bind_some, stored]
      exact ⟨mem_entries.mpr ⟨slot, inside, stored⟩, matches_⟩

theorem map_value_locate (inv : Inv env t) (name : Name κ) (hashes : Hashkeys P) :
    (t.locate env name hashes).map (fun slot => (t.item slot).value) =
      ((t.locate env name hashes).bind t.entryAt).map Entry.value := by
  cases located : t.locate env name hashes with
  | none => rfl
  | some slot =>
      obtain ⟨-, entry, stored, -⟩ := locate_some inv.stash.toBounded located
      obtain ⟨-, -, -, value, -⟩ := item_of_entryAt stored
      rw [Option.map_some, Option.bind_some, stored, value]
      rfl

/-- The value that is read belongs to an entry that answers the search. -/
theorem readValue_answers (inv : Inv env t) (name : Name κ) :
    ∃ found, Contents.Answers env t.entries (t.key name) (env.hash (t.key name)) found ∧
      t.readValue env name = found.map Entry.value :=
  ⟨_, locate_answers inv name _, map_value_locate inv name _⟩

end Hashtable

/-- A call that only reads answers from the contents. -/
theorem contents_of_quiet {t : Hashtable P κ} {op : Op P (Name κ)} {reply : Reply P κ} (inv : Inv env t)
    (quiet : op.quiet = true) (answer : t.apply env op = .ok (reply, t)) :
    Contents.Step env t.entries (op.map t.key, reply) t.entries := by
  cases op with
  | writeValue | remove | inc | dec => cases quiet
  | readValue name =>
      cases answer
      have step := Contents.Step.readValue (Hashtable.locate_answers inv name (t.calcHashes env name))
      rw [← Hashtable.map_value_locate inv] at step
      exact step
  | exists_ name =>
      cases answer
      have step := Contents.Step.exists_ (Hashtable.locate_answers inv name (t.calcHashes env name))
      have same := congrArg Option.isSome (Hashtable.map_value_locate inv name (t.calcHashes env name))
      rw [Option.isSome_map (x := Option.bind _ _)] at same
      rw [← same] at step
      exact step
  | fetchValueHashes name hashes =>
      cases answer
      have step := Contents.Step.fetchValueHashes (Hashtable.locate_answers inv name hashes)
      rw [← Hashtable.map_value_locate inv] at step
      exact step
  | nitems =>
      cases answer
      rw [Hashtable.nitems, inv.used_eq, ← t.card_entries]
      exact .nitems
  | enumNext index =>
      have returned : t.apply env (.enumNext index) =
        .ok (.entry (t.enumNext index).1 ((t.enumNext index).2.bind t.binding), t) := rfl
      rw [returned] at answer
      cases answer
      refine .enumNext fun key value found => ?_
      have moves := Hashtable.enumNext_spec inv.stash.toBounded index
      obtain ⟨slot, chosen, binding⟩ := Option.bind_eq_some_iff.mp found
      rw [chosen] at moves
      obtain ⟨name, named, same⟩ := Option.map_eq_some_iff.mp binding
      cases same
      exact ⟨_, Hashtable.mem_entries.mpr ⟨slot, moves.1, Item.entry_of_named named⟩, rfl, rfl⟩

/-- An increment is a step of the contents. -/
theorem IncOutcome.contents {t t' : Hashtable P κ} {name : Name κ} {inc value : Value P} (inv : Inv env t)
    (outcome : IncOutcome env t name inc value t') {op : Op P (Key κ)}
    (counts : Contents.Counts op (t.key name) inc) :
    Contents.Step env t.entries (op, .int (value.setWidth P.intSize)) t'.entries := by
  cases outcome with
  | present found stored =>
      obtain ⟨inside, entry, stored', matches_⟩ := Hashtable.locate_some inv.stash.toBounded found
      cases stored.symm.trans stored'
      rw [Hashtable.entries_eq_cons inside stored, Hashtable.entries_setValue inside stored]
      exact .count counts matches_
  | created missing effect =>
      obtain ⟨copy, copies, entries, -⟩ := effect.copied
      rw [entries]
      exact .create counts (Hashtable.locate_none inv.placed inv.stash missing) copies

/-- Each call of the table is a step of its contents. -/
theorem Effect.contents {t t' : Hashtable P κ} {op : Op P (Name κ)} {reply : Reply P κ} (inv : Inv env t)
    (effect : Effect env t op reply t') :
    Contents.Step env t.entries (op.map t.key, reply) t'.entries := by
  cases effect with
  | @write name value _ _ outcome =>
      cases outcome with
      | @replaced slot _ found stored =>
          obtain ⟨inside, entry, stored', matches_⟩ := Hashtable.locate_some inv.stash.toBounded found
          cases stored.symm.trans stored'
          change Contents.Step env t.entries _ (t.setValue slot value).entries
          rw [Hashtable.entries_eq_cons inside stored, Hashtable.entries_setValue inside stored]
          exact .replace matches_
      | added missing effect =>
          obtain ⟨copy, copies, entries, -⟩ := effect.copied
          rw [entries]
          exact .insert (Hashtable.locate_none inv.placed inv.stash missing) copies
  | remove outcome =>
      cases outcome with
      | absent missing => exact .keep (Hashtable.locate_none inv.placed inv.stash missing)
      | removed found stored effect =>
          obtain ⟨inside, entry, stored', matches_⟩ := Hashtable.locate_some inv.stash.toBounded found
          cases stored.symm.trans stored'
          rw [effect.entries]
          exact .remove matches_
  | inc outcome => exact outcome.contents inv (.inc _)
  | dec outcome => exact outcome.contents inv (.dec _)
  | observe quiet answer => exact contents_of_quiet inv quiet answer

/-- Each run of the table is a run of its contents. -/
theorem Run.contents {t t' : Hashtable P κ} {events : List (Event P κ)} (returns : env.DupReturns)
    (inv : Inv env t) (run : Run env t events t') : Contents.Run env t.entries events t'.entries := by
  obtain ⟨entries, simulated, -, rfl⟩ := Transition.Run.simulate run
    (fun s (entries : Multiset (Entry P κ)) => Inv env s ∧ s.entries = entries)
    (fun s event s' entries _ related step => by
      obtain ⟨before, rfl⟩ := related
      obtain ⟨op, named, effect⟩ := step.effect returns before
      have simulated := effect.contents before
      rw [← named] at simulated
      exact ⟨s'.entries, simulated, effect.inv before, rfl⟩) ⟨inv, rfl⟩
  exact simulated

end Coucal
