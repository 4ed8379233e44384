import Coucal.Abstract.Views
import Coucal.Result.Representation

namespace Coucal

variable {P : Platform} {κ : Type} {env env' : Env P κ} {lawful : env.Lawful} {lawful' : env'.Lawful}

/-- The calls whose answers depend on the contents alone: not on the order of the slots, and not on hashes
that the caller brings. -/
def Op.visible {ν : Type} : Op P ν → Bool
  | .enumNext _ | .fetchValueHashes .. => false
  | .writeValue .. | .remove _ | .readValue _ | .exists_ _ | .nitems | .inc _ | .dec _ => true

namespace FiniteMap

variable {map : FiniteMap lawful} {map' : FiniteMap lawful'}

/-- Two maps bind the same keys to the same values. -/
def Alike (map : FiniteMap lawful) (map' : FiniteMap lawful') : Prop := ∀ key, map.find key = map'.find key

theorem mem_keys {key : Key κ} : Quotient.mk _ key ∈ map.keys ↔ map.find key ≠ none := by
  rw [Finmap.mem_keys, ← Finmap.lookup_isSome]
  exact Option.isSome_iff_ne_none

/-- A map that binds no more has no more keys. -/
theorem Alike.card_le (same : env.equals = env'.equals) (alike : Alike map map') :
    map.keys.card ≤ map'.keys.card := by
  let move : Quotient lawful.setoid → Quotient lawful'.setoid :=
    Quotient.map' id fun a b (equal : env.equals a b = true) => (same ▸ equal : env'.equals a b = true)
  apply Finset.card_le_card_of_injOn move
  · intro key
    induction key using Quotient.inductionOn with
    | h key =>
        intro member
        have bound := mem_keys.mp (Finset.mem_coe.mp member)
        rw [alike] at bound
        exact Finset.mem_coe.mpr (mem_keys.mpr bound)
  · intro a _ b _
    induction a, b using Quotient.inductionOn₂ with
    | h a b =>
        intro equal
        have equal' : env'.equals a b = true := Quotient.exact equal
        rw [← same] at equal'
        exact Quotient.sound equal'

theorem Alike.card_eq (same : env.equals = env'.equals) (alike : Alike map map') :
    map.keys.card = map'.keys.card :=
  le_antisymm (alike.card_le same) (Alike.card_le same.symm fun key => (alike key).symm)

theorem Alike.insert (same : env.equals = env'.equals) (alike : Alike map map') (key : Key κ) (value : Value P) :
    Alike (map.insert (Quotient.mk _ key) value : FiniteMap lawful)
      (map'.insert (Quotient.mk _ key) value : FiniteMap lawful') := by
  intro other
  rw [Represents.find_insert, Represents.find_insert, same, alike]

theorem Alike.erase (same : env.equals = env'.equals) (alike : Alike map map') (key : Key κ) :
    Alike (map.erase (Quotient.mk _ key) : FiniteMap lawful)
      (map'.erase (Quotient.mk _ key) : FiniteMap lawful') := by
  intro other
  rw [Represents.find_erase, Represents.find_erase, same, alike]

/-- A visible call on alike maps has one answer, and leaves alike maps. -/
theorem Step.alike {next : FiniteMap lawful} {next' : FiniteMap lawful'} {op : Op P (Key κ)} {reply reply' : Reply P κ}
    (same : env.equals = env'.equals) (alike : Alike map map') (visible : op.visible = true)
    (step : Step lawful map (op, reply) next) (step' : Step lawful' map' (op, reply') next') :
    reply = reply' ∧ Alike next next' := by
  cases step with
  | writeValue key value =>
      cases step' with
      | writeValue =>
          rw [alike key]
          exact ⟨rfl, alike.insert same key value⟩
      | count counts => cases counts
  | remove key =>
      cases step' with
      | remove =>
          rw [alike key]
          exact ⟨rfl, alike.erase same key⟩
      | count counts => cases counts
  | readValue key =>
      cases step' with
      | readValue =>
          rw [alike key]
          exact ⟨rfl, alike⟩
      | count counts => cases counts
  | exists_ key =>
      cases step' with
      | exists_ =>
          rw [alike key]
          exact ⟨rfl, alike⟩
      | count counts => cases counts
  | nitems =>
      cases step' with
      | nitems =>
          rw [alike.card_eq same]
          exact ⟨rfl, alike⟩
      | count counts => cases counts
  | @count _ key inc counts =>
      cases counts with
      | inc =>
          cases step' with
          | count counts' =>
              cases counts'
              rw [alike key]
              exact ⟨rfl, alike.insert same key _⟩
      | dec =>
          cases step' with
          | count counts' =>
              cases counts'
              rw [alike key]
              exact ⟨rfl, alike.insert same key _⟩
  | fetchValueHashes | enumNext => cases visible

end FiniteMap

/-- Two tables whose contents read the same. -/
structure SameContents (lawful : env.Lawful) (lawful' : env'.Lawful) (t t' : Hashtable P κ) : Prop where
  shows : ∃ map, Shows lawful t map ∧ ∃ map', Shows lawful' t' map' ∧ map.Alike map'

/-- A reachable table shows a map. -/
theorem Reachable.shows {t : Hashtable P κ} (lawful : env.Lawful) (reachable : Reachable env t) :
    ∃ map, Shows lawful t map := by
  obtain ⟨initialSize, created, events, new, run⟩ := reachable
  obtain ⟨inv, empty, -⟩ := new_spec new
  have contents := Run.contents lawful.dupReturns inv run
  rw [empty] at contents
  obtain ⟨map, -, represents⟩ :
      ∃ map : FiniteMap lawful, FiniteMap.Run lawful ∅ events map ∧ map.Represents t.entries := contents.simulated
  exact ⟨map, Run.inv lawful.dupReturns inv run, represents⟩

/-- One visible call on two tables whose contents read the same. -/
theorem Step.sameContents {t t' next next' : Hashtable P κ} {event event' : Event P κ} (same : env.equals = env'.equals)
    (contents : SameContents lawful lawful' t t') (visible : event.1.visible = true) (calls : event.1 = event'.1)
    (step : Step env t event next) (step' : Step env' t' event' next') :
    event = event' ∧ SameContents lawful lawful' next next' := by
  obtain ⟨map, shows, map', shows', alike⟩ := contents.shows
  obtain ⟨op, named, effect⟩ := step.effect lawful.dupReturns shows.inv
  obtain ⟨op', named', effect'⟩ := step'.effect lawful'.dupReturns shows'.inv
  obtain ⟨after, simulated, shown⟩ := shows.effect effect
  obtain ⟨after', simulated', shown'⟩ := shows'.effect effect'
  rw [← named] at simulated
  rw [← named', ← calls] at simulated'
  obtain ⟨replies, alike⟩ := simulated.alike same alike visible simulated'
  exact ⟨Prod.ext calls replies, after, shown, after', shown', alike⟩

/-- Two runs with the same visible calls, from tables whose contents read the same. -/
theorem Run.sameContents {t t' last last' : Hashtable P κ} {events events' : List (Event P κ)}
    (same : env.equals = env'.equals) (contents : SameContents lawful lawful' t t') (run : Run env t events last)
    (run' : Run env' t' events' last') (calls : events.map Prod.fst = events'.map Prod.fst)
    (visible : ∀ event ∈ events, event.1.visible = true) : events = events' ∧ SameContents lawful lawful' last last' :=
  run.lockstep run' Prod.fst calls (SameContents lawful lawful') contents
    fun _ _ _ _ _ _ member before head step step' => step.sameContents same before (visible _ member) head step'

namespace SameContents

variable {t t' : Hashtable P κ}

/-- New tables have the same contents. -/
theorem new {initialSize initialSize' : Nat} (new : Hashtable.new env initialSize = some t)
    (new' : Hashtable.new env' initialSize' = some t') : SameContents lawful lawful' t t' := by
  refine ⟨∅, Shows.new new, ∅, Shows.new new', fun key => ?_⟩
  rw [FiniteMap.find, FiniteMap.find, Finmap.lookup_empty, Finmap.lookup_empty]

theorem of_contents (reachable : Reachable env t) (reachable' : Reachable env' t')
    (contents : ∀ key, t.readValue env (.own key) = t'.readValue env' (.own key)) : SameContents lawful lawful' t t' := by
  obtain ⟨map, shows⟩ := reachable.shows lawful
  obtain ⟨map', shows'⟩ := reachable'.shows lawful'
  refine ⟨map, shows, map', shows', fun key => ?_⟩
  have read := contents key
  rw [shows.readValue_eq, shows'.readValue_eq] at read
  exact read

theorem contents (same : SameContents lawful lawful' t t') (key : Key κ) :
    t.readValue env (.own key) = t'.readValue env' (.own key) := by
  obtain ⟨map, shows, map', shows', alike⟩ := same.shows
  rw [shows.readValue_eq, shows'.readValue_eq]
  exact alike key

end SameContents

/-- Two tables whose contents read the same answer all further calls alike and keep reading the same,
whatever their histories, initial sizes, hash functions, allocators and kinds of keys were. -/
theorem same_contents_same_answers {t t' last last' : Hashtable P κ} {events events' : List (Event P κ)}
    (lawful : env.Lawful) (lawful' : env'.Lawful) (same : env.equals = env'.equals) (reachable : Reachable env t)
    (reachable' : Reachable env' t')
    (contents : ∀ key, t.readValue env (.own key) = t'.readValue env' (.own key))
    (run : Run env t events last) (run' : Run env' t' events' last')
    (calls : events.map Prod.fst = events'.map Prod.fst)
    (visible : ∀ event ∈ events, event.1.visible = true) :
    events = events' ∧ ∀ key, last.readValue env (.own key) = last'.readValue env' (.own key) := by
  have start : SameContents lawful lawful' t t' := .of_contents reachable reachable' contents
  obtain ⟨answers, after⟩ := run.sameContents same start run' calls visible
  exact ⟨answers, after.contents⟩

/-- Strings that all have the same hashes. -/
def Env.collides : Env Platform.lp64 Empty := Env.strings (fun _ => ⟨3, 5⟩) true fun count => 64 * (count + 1)

/-- Two new tables of different sizes, with different hash functions and allocators. -/
theorem same_contents_same_answers_lengths :
    ∃ last last' : Hashtable Platform.lp64 Empty,
      ∀ key, last.readValue Env.lengths (.own key) = last'.readValue Env.collides (.own key) := by
  let calls : List (Op Platform.lp64 (Key Empty)) :=
    [.writeValue (.string (CString.read [97])) 1, .writeValue (.string (CString.read [98])) 2,
      .remove (.string (CString.read [97])), .inc (.string (CString.read [98])), .nitems]
  have answers : (Hashtable.session Env.lengths 0 calls).map Prod.fst =
      some [.flag true, .flag true, .flag true, .int 3, .count 1] := by decide +kernel
  have answers' : (Hashtable.session Env.collides 100 calls).map Prod.fst =
      some [.flag true, .flag true, .flag true, .int 3, .count 1] := by decide +kernel
  obtain ⟨⟨_, last⟩, completed, rfl⟩ := Option.map_eq_some_iff.mp answers
  obtain ⟨⟨_, last'⟩, completed', rfl⟩ := Option.map_eq_some_iff.mp answers'
  obtain ⟨created, new, run⟩ := Hashtable.session_run completed
  obtain ⟨created', new', run'⟩ := Hashtable.session_run completed'
  have lawful : Env.lengths.Lawful := Env.strings_lawful _ _ _
  have lawful' : Env.collides.Lawful := Env.strings_lawful _ _ _
  have empty : SameContents lawful lawful' created created' := .new new new'
  exact ⟨last, last', (same_contents_same_answers lawful lawful' rfl ⟨0, created, [], new, .nil _⟩
    ⟨100, created', [], new', .nil _⟩ empty.contents run run' rfl (by decide)).2⟩

namespace Hashtable

variable {t : Hashtable P κ} {map : FiniteMap lawful} {slots : List Slot}

/-- The keys and the values that the slots of an enumeration show. -/
def bindings (t : Hashtable P κ) (slots : List Slot) : List (Key κ × Value P) := slots.filterMap t.binding

theorem binding_eq_some {slot : Slot} {key : Key κ} {value : Value P} (shown : t.binding slot = some (key, value)) :
    ∃ name, (t.item slot).name = some name ∧ t.key name = key ∧ (t.item slot).value = value := by
  obtain ⟨name, named, same⟩ := Option.map_eq_some_iff.mp shown
  cases same
  exact ⟨name, named, rfl, rfl⟩

/-- A complete enumeration shows the bindings of the map, when equal keys are the same. -/
theorem Enumeration.mem_bindings (enumeration : t.Enumeration 0 slots) (shows : Shows lawful t map)
    (exact_ : ∀ a b, env.equals a b = true → a = b) (key : Key κ) (value : Value P) :
    (key, value) ∈ t.bindings slots ↔ map.find key = some value := by
  have members := (enumeration.spec shows.inv.stash.toBounded).2
  constructor
  · intro member
    obtain ⟨slot, listed, shown⟩ := List.mem_filterMap.mp member
    obtain ⟨name, named, rfl, rfl⟩ := binding_eq_some shown
    exact shows.find_entry ((members slot).mp listed).1 (entryAt_of_named named)
  · intro bound
    obtain ⟨entry, member, equal, rfl⟩ := (shows.represents.find_eq key value).mp bound
    cases exact_ _ _ equal
    obtain ⟨slot, inside, stored⟩ := mem_entries.mp member
    obtain ⟨name, named, key, value, -⟩ := item_of_entryAt stored
    have listed : slot ∈ slots :=
      (members slot).mpr ⟨inside, by rw [named]; exact Option.some_ne_none name, Nat.zero_le _⟩
    apply List.mem_filterMap.mpr ⟨slot, listed, _⟩
    rw [binding, named, Option.map_some, key, value]

/-- A complete enumeration shows each key once. -/
theorem Enumeration.nodup_bindings (enumeration : t.Enumeration 0 slots) (inv : Inv env t) (lawful : env.Lawful) :
    (t.bindings slots).Nodup := by
  obtain ⟨nodup, members⟩ := enumeration.spec inv.stash.toBounded
  apply List.pairwise_filterMap.mpr
  apply nodup.imp_of_mem
  intro slot other member member' apart shown first shown' second same
  obtain ⟨name, named, key, -⟩ := binding_eq_some (first.trans rfl : t.binding slot = some (shown.1, shown.2))
  obtain ⟨name', named', key', -⟩ := binding_eq_some (second.trans rfl : t.binding other = some (shown'.1, shown'.2))
  apply apart
  apply inv.slot_unique lawful ((members slot).mp member).1 ((members other).mp member').1
    (entryAt_of_named named) (entryAt_of_named named')
  dsimp only
  rw [key, key', same]
  exact lawful.refl _

end Hashtable

/-- Complete enumerations of two tables whose contents read the same show the same keys with the same
values, in some order. -/
theorem same_contents_same_enumeration {t t' : Hashtable P κ} {slots slots' : List Slot}
    (lawful : env.Lawful) (lawful' : env'.Lawful) (exact_ : ∀ a b, env.equals a b = true → a = b)
    (exact' : ∀ a b, env'.equals a b = true → a = b) (reachable : Reachable env t) (reachable' : Reachable env' t')
    (contents : ∀ key, t.readValue env (.own key) = t'.readValue env' (.own key))
    (enumeration : t.Enumeration 0 slots) (enumeration' : t'.Enumeration 0 slots') :
    (t.bindings slots).Perm (t'.bindings slots') := by
  have both : SameContents lawful lawful' t t' := .of_contents reachable reachable' contents
  obtain ⟨map, shows, map', shows', alike⟩ := both.shows
  apply (List.perm_ext_iff_of_nodup (enumeration.nodup_bindings shows.inv lawful)
    (enumeration'.nodup_bindings shows'.inv lawful')).mpr
  rintro ⟨key, value⟩
  rw [enumeration.mem_bindings shows exact_, enumeration'.mem_bindings shows' exact', alike]

/-- Two strings, in the order of their hashes and in the order of their insertion. -/
theorem same_contents_same_enumeration_lengths :
    ∃ (t t' : Hashtable Platform.lp64 Empty) (slots slots' : List Slot), t.used = 2 ∧ t.Enumeration 0 slots ∧
      t'.Enumeration 0 slots' ∧ (t.bindings slots).Perm (t'.bindings slots') := by
  let calls : List (Op Platform.lp64 (Key Empty)) :=
    [.writeValue (.string (CString.read [97, 97])) 1, .inc (.string (CString.read [98])),
      .inc (.string (CString.read [98]))]
  have answers : (Hashtable.session Env.lengths 0 calls).map (fun result => (result.1, result.2.used)) =
      some ([.flag true, .int 1, .int 2], 2) := by decide +kernel
  have answers' : (Hashtable.session Env.collides 100 calls).map Prod.fst =
      some [.flag true, .int 1, .int 2] := by decide +kernel
  obtain ⟨⟨_, t⟩, completed, facts⟩ := Option.map_eq_some_iff.mp answers
  obtain ⟨rfl, used⟩ := Prod.mk.inj facts
  obtain ⟨⟨_, t'⟩, completed', rfl⟩ := Option.map_eq_some_iff.mp answers'
  obtain ⟨created, new, run⟩ := Hashtable.session_run completed
  obtain ⟨created', new', run'⟩ := Hashtable.session_run completed'
  have lawful : Env.lengths.Lawful := Env.strings_lawful _ _ _
  have lawful' : Env.collides.Lawful := Env.strings_lawful _ _ _
  have empty : SameContents lawful lawful' created created' := .new new new'
  have same : Env.lengths.equals = Env.collides.equals := rfl
  have after := (Run.sameContents same empty run run' rfl (by decide)).2
  obtain ⟨slots, enumeration⟩ := t.exists_enumeration 0
  obtain ⟨slots', enumeration'⟩ := t'.exists_enumeration 0
  exact ⟨t, t', slots, slots', used, enumeration, enumeration',
    same_contents_same_enumeration lawful lawful' (fun _ _ => of_decide_eq_true) (fun _ _ => of_decide_eq_true)
      ⟨0, created, _, new, run⟩ ⟨100, created', _, new', run'⟩ after.contents enumeration enumeration'⟩

end Coucal
