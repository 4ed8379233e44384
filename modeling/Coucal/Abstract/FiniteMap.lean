import Mathlib.Data.Finmap
import Coucal.Abstract.Contents

namespace Coucal

variable {P : Platform} {κ : Type} {env : Env P κ}

/-- Equal keys are one key of the map. -/
def Env.Lawful.setoid (lawful : env.Lawful) : Setoid (Key κ) where
  r a b := env.equals a b = true
  iseqv := ⟨lawful.refl, fun {a b} => lawful.symm a b, fun {a b c} => lawful.trans a b c⟩

instance (lawful : env.Lawful) : DecidableEq (Quotient lawful.setoid) :=
  @Quotient.decidableEq _ lawful.setoid fun a b => inferInstanceAs (Decidable (env.equals a b = true))

/-- A finite map from keys to values. -/
abbrev FiniteMap (lawful : env.Lawful) := Finmap fun _ : Quotient lawful.setoid => Value P

namespace FiniteMap

variable {lawful : env.Lawful}

/-- The value that the map binds to a key. -/
def find (map : FiniteMap lawful) (key : Key κ) : Option (Value P) := map.lookup (Quotient.mk _ key)

/-- Each call on the map, with its answer. -/
inductive Step (lawful : env.Lawful) : FiniteMap lawful → Event P κ → FiniteMap lawful → Prop where
  | writeValue (map : FiniteMap lawful) (key : Key κ) (value : Value P) :
      Step lawful map (.writeValue key value, .flag (map.find key).isNone)
        (map.insert (Quotient.mk _ key) value)
  | remove (map : FiniteMap lawful) (key : Key κ) :
      Step lawful map (.remove key, .flag (map.find key).isSome) (map.erase (Quotient.mk _ key))
  | readValue (map : FiniteMap lawful) (key : Key κ) :
      Step lawful map (.readValue key, .value (map.find key)) map
  | exists_ (map : FiniteMap lawful) (key : Key κ) :
      Step lawful map (.exists_ key, .flag (map.find key).isSome) map
  | fetchValueHashes (map : FiniteMap lawful) (key : Key κ) (hashes : Hashkeys P) :
      Step lawful map (.fetchValueHashes key hashes,
        .value (if hashes = env.hash key then map.find key else none)) map
  | nitems (map : FiniteMap lawful) : Step lawful map (.nitems, .count map.keys.card) map
  | count (map : FiniteMap lawful) {op : Op P (Key κ)} {key : Key κ} {inc : Value P}
      (counts : Contents.Counts op key inc) :
      Step lawful map (op, .int (((map.find key).getD 0 + inc).setWidth P.intSize))
        (map.insert (Quotient.mk _ key) ((map.find key).getD 0 + inc))
  | enumNext (map : FiniteMap lawful) (index next : Nat) {found : Option (Key κ × Value P)}
      (among : ∀ key value, found = some (key, value) → map.find key = some value) :
      Step lawful map (.enumNext index, .entry next found) map

abbrev Run (lawful : env.Lawful) := Transition.Run (Step lawful)

/-- The map binds the key of each entry to its value, and nothing else. -/
structure Represents (map : FiniteMap lawful) (entries : Multiset (Entry P κ)) : Prop where
  find_eq : ∀ key value, map.find key = some value ↔
    ∃ entry ∈ entries, entry.Equals env key ∧ entry.value = value
  card_eq : map.keys.card = entries.card

end FiniteMap

namespace FiniteMap.Represents

variable {lawful : env.Lawful} {map : FiniteMap lawful} {entries : Multiset (Entry P κ)}

theorem empty : Represents (∅ : FiniteMap lawful) 0 := by
  refine ⟨fun key value => ?_, by simp⟩
  simp [find]

/-- A search with the hashes of the key finds what the map binds. -/
theorem find_answer (represents : Represents map entries) (keyed : env.Keyed entries) {key : Key κ}
    (found : Option (Entry P κ)) (answers : Contents.Answers env entries key (env.hash key) found) :
    map.find key = found.map Entry.value := by
  cases found with
  | some entry =>
      exact (represents.find_eq key entry.value).mpr ⟨entry, answers.1, answers.2.2, rfl⟩
  | none =>
      rw [Option.map_none, Option.eq_none_iff_forall_ne_some]
      intro value bound
      obtain ⟨entry, member, equal, -⟩ := (represents.find_eq key value).mp bound
      exact answers entry member ((keyed.matches_iff lawful member).mpr equal)

theorem mk_eq {a b : Key κ} :
    (Quotient.mk lawful.setoid a = Quotient.mk lawful.setoid b) ↔ env.equals a b = true :=
  ⟨fun same => Quotient.exact same, fun equal => Quotient.sound equal⟩

theorem find_insert (map : FiniteMap lawful) (key other : Key κ) (value : Value P) :
    find (map.insert (Quotient.mk _ key) value) other =
      if env.equals key other = true then some value else map.find other := by
  unfold find
  split
  next equal => rw [mk_eq.mpr equal, Finmap.lookup_insert]
  next apart =>
    rw [Finmap.lookup_insert_of_ne]
    intro same
    exact apart (mk_eq.mp same.symm)

theorem find_erase (map : FiniteMap lawful) (key other : Key κ) :
    find (map.erase (Quotient.mk _ key)) other =
      if env.equals key other = true then none else map.find other := by
  unfold find
  split
  next equal => rw [mk_eq.mpr equal, Finmap.lookup_erase]
  next apart =>
    rw [Finmap.lookup_erase_ne]
    intro same
    exact apart (mk_eq.mp same.symm)

theorem keys_insert (map : FiniteMap lawful) (key : Key κ) (value : Value P) :
    Finmap.keys (map.insert (Quotient.mk _ key) value) = insert (Quotient.mk _ key) map.keys := by
  ext other
  rw [Finmap.mem_keys, Finmap.mem_insert, Finset.mem_insert, Finmap.mem_keys]

/-- The key of an entry is bound. -/
theorem mem_keys (represents : Represents map entries) {entry : Entry P κ} (member : entry ∈ entries)
    {key : Key κ} (equal : entry.Equals env key) : Quotient.mk lawful.setoid key ∈ map.keys := by
  rw [Finmap.mem_keys, Finmap.mem_iff]
  exact ⟨entry.value, (represents.find_eq key entry.value).mpr ⟨entry, member, equal, rfl⟩⟩

/-- A key that no entry has is not bound. -/
theorem notMem_keys (represents : Represents map entries) {key : Key κ}
    (absent : ∀ other ∈ entries, ¬ other.Equals env key) : Quotient.mk lawful.setoid key ∉ map.keys := by
  rw [Finmap.mem_keys, Finmap.mem_iff]
  rintro ⟨bound, found⟩
  obtain ⟨e, member, matches_, -⟩ := (represents.find_eq key bound).mp found
  exact absent e member matches_

/-- A binding for the key of a new entry, next to the bindings of the other entries. -/
theorem insert_cons (entry : Entry P κ) {key : Key κ} (equal : entry.Equals env key)
    (apart : ∀ other ∈ entries, ¬ other.Equals env key)
    (others : ∀ other value, ¬ env.equals key other = true → (map.find other = some value ↔
      ∃ e ∈ entries, e.Equals env other ∧ e.value = value))
    (card : Finset.card (insert (Quotient.mk lawful.setoid key) map.keys) = entries.card + 1) :
    Represents (map.insert (Quotient.mk _ key) entry.value) (entry ::ₘ entries) := by
  refine ⟨fun other value => ?_, ?_⟩
  · rw [find_insert]
    split
    next same =>
      constructor
      · intro bound
        cases bound
        exact ⟨entry, Multiset.mem_cons_self _ _, lawful.trans _ _ _ equal same, rfl⟩
      · rintro ⟨e, member, matches_, rfl⟩
        rcases Multiset.mem_cons.mp member with rfl | member
        · rfl
        · exact absurd (lawful.trans _ _ _ matches_ (lawful.symm _ _ same)) (apart e member)
    next different =>
      rw [others other value different]
      constructor
      · rintro ⟨e, member, found⟩
        exact ⟨e, Multiset.mem_cons_of_mem member, found⟩
      · rintro ⟨e, member, matches_, rfl⟩
        rcases Multiset.mem_cons.mp member with rfl | member
        · exact absurd (lawful.trans _ _ _ (lawful.symm _ _ equal) matches_) different
        · exact ⟨e, member, matches_, rfl⟩
  · rw [keys_insert, card, Multiset.card_cons]

/-- The bindings of the other keys come from the other entries. -/
theorem find_others {entry : Entry P κ} {key other : Key κ} {value : Value P}
    (represents : Represents map (entry ::ₘ entries)) (equal : entry.Equals env key)
    (different : ¬ env.equals key other = true) :
    map.find other = some value ↔ ∃ e ∈ entries, e.Equals env other ∧ e.value = value := by
  rw [represents.find_eq]
  constructor
  · rintro ⟨e, member, matches_, rfl⟩
    rcases Multiset.mem_cons.mp member with rfl | member
    · exact absurd (lawful.trans _ _ _ (lawful.symm _ _ equal) matches_) different
    · exact ⟨e, member, matches_, rfl⟩
  · rintro ⟨e, member, found⟩
    exact ⟨e, Multiset.mem_cons_of_mem member, found⟩

/-- No other entry has the key of an entry. -/
theorem apart_of_keyed {entry : Entry P κ} {key : Key κ} (keyed : env.Keyed (entry ::ₘ entries))
    (lawful : env.Lawful) (equal : entry.Equals env key) : ∀ other ∈ entries, ¬ other.Equals env key :=
  fun _ member matches_ =>
    keyed.apart lawful member (lawful.trans _ _ _ matches_ (lawful.symm _ _ equal))

theorem setValue {entry : Entry P κ} {key : Key κ} {value : Value P}
    (represents : Represents map (entry ::ₘ entries)) (keyed : env.Keyed (entry ::ₘ entries))
    (equal : entry.Equals env key) :
    Represents (map.insert (Quotient.mk _ key) value) ({ entry with value } ::ₘ entries) := by
  refine insert_cons { entry with value } equal (apart_of_keyed keyed lawful equal)
    (fun other value different => represents.find_others equal different) ?_
  rw [Finset.insert_eq_of_mem (represents.mem_keys (Multiset.mem_cons_self _ _) equal),
    represents.card_eq, Multiset.card_cons]

theorem insert {key copy : Key κ} {value : Value P} {hashes : Hashkeys P}
    (represents : Represents map entries) (equal : env.equals copy key = true)
    (absent : ∀ other ∈ entries, ¬ other.Equals env key) :
    Represents (map.insert (Quotient.mk _ key) value) (⟨copy, value, hashes⟩ ::ₘ entries) := by
  refine insert_cons ⟨copy, value, hashes⟩ equal absent
    (fun other value _ => represents.find_eq other value) ?_
  rw [Finset.card_insert_of_notMem (represents.notMem_keys absent), represents.card_eq]

/-- The bindings of the other entries, without one for the key. -/
theorem erase_key {key : Key κ} (apart : ∀ other ∈ entries, ¬ other.Equals env key)
    (others : ∀ other value, ¬ env.equals key other = true → (map.find other = some value ↔
      ∃ e ∈ entries, e.Equals env other ∧ e.value = value))
    (card : Finset.card (map.keys.erase (Quotient.mk lawful.setoid key)) = entries.card) :
    Represents (map.erase (Quotient.mk _ key)) entries := by
  refine ⟨fun other value => ?_, ?_⟩
  · rw [find_erase]
    split
    next same =>
      constructor
      · rintro ⟨⟩
      · rintro ⟨e, member, matches_, rfl⟩
        exact absurd (lawful.trans _ _ _ matches_ (lawful.symm _ _ same)) (apart e member)
    next different => exact others other value different
  · rw [Finmap.keys_erase, card]

theorem erase {entry : Entry P κ} {key : Key κ} (represents : Represents map (entry ::ₘ entries))
    (keyed : env.Keyed (entry ::ₘ entries)) (equal : entry.Equals env key) :
    Represents (map.erase (Quotient.mk _ key)) entries := by
  refine erase_key (apart_of_keyed keyed lawful equal)
    (fun other value different => represents.find_others equal different) ?_
  rw [Finset.card_erase_of_mem (represents.mem_keys (Multiset.mem_cons_self _ _) equal),
    represents.card_eq, Multiset.card_cons, Nat.add_sub_cancel]

/-- The removal of an absent key changes nothing. -/
theorem erase_absent {key : Key κ} (represents : Represents map entries)
    (absent : ∀ other ∈ entries, ¬ other.Equals env key) :
    Represents (map.erase (Quotient.mk _ key)) entries := by
  refine erase_key absent (fun other value _ => represents.find_eq other value) ?_
  rw [Finset.erase_eq_of_notMem (represents.notMem_keys absent), represents.card_eq]

end FiniteMap.Represents

section Simulation

variable {lawful : env.Lawful} {map : FiniteMap lawful} {entries entries' : Multiset (Entry P κ)}
  {event : Event P κ}

/-- A search with hashes that are not those of the key finds nothing. -/
theorem Env.Keyed.answer_other {key : Key κ} {hashes : Hashkeys P} {found : Option (Entry P κ)}
    (keyed : env.Keyed entries) (lawful : env.Lawful) (different : hashes ≠ env.hash key)
    (answers : Contents.Answers env entries key hashes found) : found = none := by
  cases found with
  | none => rfl
  | some entry =>
      obtain ⟨member, same, equal⟩ := answers
      have hash := (keyed.matches_iff lawful member).mpr equal
      exact absurd (same.symm.trans hash.1) different

/-- Each step of the contents is a step of the map. -/
theorem Contents.Step.simulated (keyed : env.Keyed entries) (represents : map.Represents entries)
    (step : Contents.Step env entries event entries') :
    ∃ map', FiniteMap.Step lawful map event map' ∧ FiniteMap.Represents map' entries' := by
  have found {key : Key κ} {entry : Entry P κ} {rest : Multiset (Entry P κ)}
      (whole : entries = entry ::ₘ rest) (matches_ : entry.Matches env key (env.hash key)) :
      map.find key = some entry.value :=
    represents.find_answer keyed (some entry) ⟨whole ▸ Multiset.mem_cons_self _ _, matches_⟩
  have missing {key : Key κ} (absent : Contents.Answers env entries key (env.hash key) none) :
      map.find key = none ∧ ∀ other ∈ entries, ¬ other.Equals env key :=
    ⟨represents.find_answer keyed none absent, fun other member equal =>
      absent other member ((keyed.matches_iff lawful member).mpr equal)⟩
  cases step with
  | @replace _ entry key value matches_ =>
      have step := FiniteMap.Step.writeValue map key value
      rw [found rfl matches_] at step
      exact ⟨_, step, represents.setValue keyed matches_.2⟩
  | @insert _ key copy value absent copies =>
      have step := FiniteMap.Step.writeValue map key value
      rw [(missing absent).1] at step
      exact ⟨_, step, represents.insert (copies.equals lawful) (missing absent).2⟩
  | @remove _ entry key matches_ =>
      have step := FiniteMap.Step.remove map key
      rw [found rfl matches_] at step
      exact ⟨_, step, represents.erase keyed matches_.2⟩
  | @keep _ key absent =>
      have step := FiniteMap.Step.remove map key
      rw [(missing absent).1] at step
      exact ⟨_, step, represents.erase_absent (missing absent).2⟩
  | @readValue _ key answer answers =>
      have step := FiniteMap.Step.readValue map key
      rw [represents.find_answer keyed answer answers] at step
      exact ⟨map, step, represents⟩
  | @exists_ _ key answer answers =>
      have step := FiniteMap.Step.exists_ map key
      rw [represents.find_answer keyed answer answers, Option.isSome_map] at step
      exact ⟨map, step, represents⟩
  | @fetchValueHashes _ key hashes answer answers =>
      have step := FiniteMap.Step.fetchValueHashes map key hashes
      split at step
      next same =>
        subst same
        rw [represents.find_answer keyed answer answers] at step
        exact ⟨map, step, represents⟩
      next different =>
        cases keyed.answer_other lawful different answers
        exact ⟨map, step, represents⟩
  | nitems =>
      have step := FiniteMap.Step.nitems map
      rw [represents.card_eq] at step
      exact ⟨map, step, represents⟩
  | @count _ op entry key inc counts matches_ =>
      have step := FiniteMap.Step.count map counts
      rw [found rfl matches_] at step
      exact ⟨_, step, represents.setValue keyed matches_.2⟩
  | @create _ op key copy inc counts absent copies =>
      have step := FiniteMap.Step.count map counts
      have zero : (0 : Value P) + inc = inc := BitVec.zero_add inc
      rw [(missing absent).1, Option.getD_none, zero] at step
      exact ⟨_, step, represents.insert (copies.equals lawful) (missing absent).2⟩
  | @enumNext _ index next answer among =>
      refine ⟨map, .enumNext map index next fun key value same => ?_, represents⟩
      obtain ⟨entry, member, rfl, rfl⟩ := among key value same
      exact (represents.find_eq _ _).mpr ⟨entry, member, lawful.refl _, rfl⟩

/-- Each step keeps the keys apart. -/
theorem Contents.Step.keyed (keyed : env.Keyed entries) (step : Contents.Step env entries event entries') :
    env.Keyed entries' := by
  cases step with
  | replace => exact keyed.setValue _
  | insert absent copies => exact keyed.insert copies absent
  | remove => exact keyed.of_cons
  | count => exact keyed.setValue _
  | create _ absent copies => exact keyed.insert copies absent
  | keep | readValue | exists_ | fetchValueHashes | nitems | enumNext => exact keyed

/-- Each run of the contents from nothing is a run of the map. -/
theorem Contents.Run.simulated {events : List (Event P κ)} (run : Contents.Run env 0 events entries) :
    ∃ map : FiniteMap lawful, FiniteMap.Run lawful ∅ events map ∧ map.Represents entries := by
  obtain ⟨map, simulated, -, represents⟩ := Transition.Run.simulate run
    (fun entries (map : FiniteMap lawful) => env.Keyed entries ∧ map.Represents entries)
    (fun entries event entries' map _ related step => by
      obtain ⟨map', next, represents⟩ := step.simulated related.1 related.2
      exact ⟨map', next, step.keyed related.1, represents⟩) ⟨.zero, .empty⟩
  exact ⟨map, simulated, represents⟩

end Simulation
end Coucal
