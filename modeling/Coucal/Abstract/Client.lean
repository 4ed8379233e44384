import Coucal.Abstract.Views
import Coucal.Construction.Client

namespace Coucal

variable {P : Platform} {κ : Type} {env : Env P κ}

namespace FiniteMap

variable {lawful : env.Lawful}

/-- Each call of the interface on the map, with its answer. The client holds pointers to values. -/
inductive Serves (lawful : env.Lawful) (held : List (Slot × Key κ)) (map : FiniteMap lawful) :
    Request P (Key κ) → Answer P → FiniteMap lawful → Prop where
  | writeValue (key : Key κ) (value : Value P) :
      Serves lawful held map (.writeValue key value) (.flag (map.find key).isNone)
        (map.insert (Quotient.mk _ key) value)
  | write (key : Key κ) (value : Value P) :
      Serves lawful held map (.write key value) (.flag (map.find key).isNone)
        (map.insert (Quotient.mk _ key) value)
  | add (key : Key κ) (value : Value P) :
      Serves lawful held map (.add key value) .done (map.insert (Quotient.mk _ key) value)
  | writePvoid (key : Key κ) (value : Value P) :
      Serves lawful held map (.writePvoid key value) (.flag (map.find key).isNone)
        (map.insert (Quotient.mk _ key) value)
  | addPvoid (key : Key κ) (value : Value P) :
      Serves lawful held map (.addPvoid key value) .done (map.insert (Quotient.mk _ key) value)
  | readValue (key : Key κ) : Serves lawful held map (.readValue key) (.value (map.find key)) map
  | read (key : Key κ) :
      Serves lawful held map (.read key) (.delivered (map.find key).isSome ((map.find key).getD 0)) map
  | readptr (key : Key κ) :
      Serves lawful held map (.readptr key)
        (.delivered ((map.find key).getD 0 ≠ 0) ((map.find key).getD 0)) map
  | getIntptr (key : Key κ) : Serves lawful held map (.getIntptr key) (.word ((map.find key).getD 0)) map
  | readPvoid (key : Key κ) :
      Serves lawful held map (.readPvoid key) (.delivered (map.find key).isSome ((map.find key).getD 0)) map
  | getPvoid (key : Key κ) : Serves lawful held map (.getPvoid key) (.word ((map.find key).getD 0)) map
  | exists_ (key : Key κ) : Serves lawful held map (.exists_ key) (.flag (map.find key).isSome) map
  | remove (key : Key κ) :
      Serves lawful held map (.remove key) (.flag (map.find key).isSome) (map.erase (Quotient.mk _ key))
  | inc (key : Key κ) :
      Serves lawful held map (.inc key) (.int (((map.find key).getD 0 + 1).setWidth P.intSize))
        (map.insert (Quotient.mk _ key) ((map.find key).getD 0 + 1))
  | dec (key : Key κ) :
      Serves lawful held map (.dec key) (.int (((map.find key).getD 0 + -1).setWidth P.intSize))
        (map.insert (Quotient.mk _ key) ((map.find key).getD 0 + -1))
  | nitems : Serves lawful held map .nitems (.count map.keys.card) map
  | fetchValue (key : Key κ) (pointer : Option Slot) (found : pointer.isSome = (map.find key).isSome) :
      Serves lawful held map (.fetchValue key) (.place pointer) map
  | fetchValueHashes (key : Key κ) (hashes : Hashkeys P) (pointer : Option Slot)
      (found : pointer.isSome = (decide (hashes = env.hash key) && (map.find key).isSome)) :
      Serves lawful held map (.fetchValueHashes key hashes) (.place pointer) map
  | load {place : Slot} {key : Key κ} {value : Value P} (holds : (place, key) ∈ held)
      (bound : map.find key = some value) : Serves lawful held map (.load place) (.word value) map
  | assign {place : Slot} {key : Key κ} (holds : (place, key) ∈ held) (bound : (map.find key).isSome)
      (value : Value P) :
      Serves lawful held map (.assign place value) .done (map.insert (Quotient.mk _ key) value)

end FiniteMap

/-- The map that a client sees, and the pointers that it holds. -/
structure Client {env : Env P κ} (lawful : env.Lawful) where
  map : FiniteMap lawful
  held : List (Slot × Key κ)

/-- A call on the map keeps the pointers to other keys, unless the map has grown. -/
inductive Client.Step {env : Env P κ} (lawful : env.Lawful) :
    Client lawful → Request P (Key κ) × Answer P → Client lawful → Prop where
  | call {client : Client lawful} {request : Request P (Key κ)} {answer : Answer P} {map : FiniteMap lawful}
      (serves : FiniteMap.Serves lawful client.held client.map request answer map) :
      Step lawful client (request, answer)
        ⟨map, heldAfter env (client.map.keys.card < map.keys.card) client.held request answer⟩

abbrev Client.Run {env : Env P κ} (lawful : env.Lawful) := Transition.Run (Client.Step lawful)

/-- A removal keeps the bounds of the table. -/
theorem Removed.within {t t' : Hashtable P κ} {slot : Slot} {entry : Entry P κ}
    (effect : Removed env t slot entry t') (place : Slot) : t'.Within place ↔ t.Within place := by
  cases place <;> simp [Hashtable.Within, effect.lgSize_eq]

/-- A pointer designates the value of the entry of its key. -/
def Hashtable.Points (env : Env P κ) (t : Hashtable P κ) (pointer : Slot × Key κ) : Prop :=
  t.Within pointer.1 ∧ ∃ entry, t.entryAt pointer.1 = some entry ∧ entry.Equals env pointer.2

namespace Hashtable.Points

variable {t t' : Hashtable P κ} {pointer : Slot × Key κ}

/-- A fetch returns a pointer to the entry of its key. -/
theorem of_locate (inv : Inv env t) {name : Name κ} {hashes : Hashkeys P} {slot : Slot}
    (found : t.locate env name hashes = some slot) : t.Points env (slot, t.key name) := by
  obtain ⟨inside, entry, stored, matches_⟩ := locate_some inv.stash.toBounded found
  exact ⟨inside, entry, stored, matches_.2⟩

/-- A store through any pointer moves no entry. -/
theorem setValue (points : t.Points env pointer) (slot : Slot) (value : Value P) :
    (t.setValue slot value).Points env pointer := by
  obtain ⟨inside, entry, stored, equal⟩ := points
  refine ⟨(within_setItem _).mpr inside, ?_⟩
  by_cases same : pointer.1 = slot
  · subst same
    exact ⟨_, entryAt_setValue stored value, equal⟩
  · exact ⟨entry, (entryAt_setItem_of_ne _ same).trans stored, equal⟩

/-- A removal of another key moves no entry. -/
theorem remove (lawful : env.Lawful) (inv : Inv env t) {name : Name κ} {removed : Bool}
    (outcome : RemoveOutcome env t name removed t') (points : t.Points env pointer)
    (apart : env.equals pointer.2 (t.key name) ≠ true) : t'.Points env pointer := by
  obtain ⟨inside, entry, stored, equal⟩ := points
  cases outcome with
  | absent => exact ⟨inside, entry, stored, equal⟩
  | @removed slot entry' after found stored' effect =>
      obtain ⟨-, entry'', stored'', matches_⟩ := locate_some inv.stash.toBounded found
      cases stored'.symm.trans stored''
      have elsewhere : pointer.1 ≠ slot := by
        rintro rfl
        cases stored.symm.trans stored'
        exact apart (lawful.trans _ _ _ (lawful.symm _ _ equal) matches_.2)
      have kept : after.entryAt pointer.1 = some entry := (effect.others _ elsewhere inside).trans stored
      exact ⟨(effect.within _).mpr inside, entry, kept, equal⟩

end Hashtable.Points
/-- The pointers that a client keeps still point, when the call moves nothing and a fetch delivers a pointer
to its key. -/
theorem heldAfter_points {t t' : Hashtable P κ} {grown : Bool} {held : List (Slot × Key κ)}
    {request : Request P (Key κ)} {answer : Answer P} (points : ∀ pointer ∈ held, t.Points env pointer)
    (kept : grown = false → ∀ pointer, (∀ key, request = .remove key → env.equals pointer.2 key ≠ true) →
      t.Points env pointer → t'.Points env pointer)
    (fetched : ∀ key slot, request = .fetchValue key ∨ (∃ hashes, request = .fetchValueHashes key hashes) →
      answer = .place (some slot) → t'.Points env (slot, key)) :
    ∀ pointer ∈ heldAfter env grown held request answer, t'.Points env pointer := by
  intro pointer member
  unfold heldAfter at member
  split at member
  next => exact absurd member List.not_mem_nil
  next same =>
    have stays := kept (Bool.eq_false_iff.mpr same)
    split at member
    next key _ =>
      obtain ⟨member, apart⟩ := List.mem_filter.mp member
      apply stays pointer
      · intro other equal
        cases equal
        simpa using apart
      · exact points pointer member
    next key place =>
      rcases List.mem_cons.mp member with rfl | member
      · exact fetched key place (.inl rfl) rfl
      · exact stays pointer (fun _ equal => by cases equal) (points pointer member)
    next key hashes place =>
      rcases List.mem_cons.mp member with rfl | member
      · exact fetched key place (.inr ⟨hashes, rfl⟩) rfl
      · exact stays pointer (fun _ equal => by cases equal) (points pointer member)
    next other _ _ =>
      exact stays pointer (fun key equal => absurd equal (other key)) (points pointer member)

end Coucal
