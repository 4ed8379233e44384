import Coucal.Proof.Cursor
import Coucal.Proof.Handlers

namespace Coucal

variable {P : Platform} {κ : Type} {env : Env P κ}

/-- A turn of a caller that enumerates a table and changes it: the place of the item that the enumerator returns,
or NULL, the removal of a key with the place where it was found, or the replacement of a value. -/
inductive Turn (P : Platform) where
  | next (found : Option Slot)
  | remove (place : Option Slot)
  | replace (place : Slot) (value : Value P)

/-- The turns of a caller with one enumerator. The state has the table and the index of the enumerator. -/
inductive Turns (env : Env P κ) : Hashtable P κ × Nat → Turn P → Hashtable P κ × Nat → Prop where
  | next (t : Hashtable P κ) (index : Nat) :
      Turns env (t, index) (.next (t.enumNext index).2) (t, (t.enumNext index).1)
  | remove {t t' : Hashtable P κ} {name : Name κ} {removed : Bool} (index : Nat)
      (returns : t.remove env name = .ok (removed, t')) :
      Turns env (t, index) (.remove (t.locate env name (t.calcHashes env name))) (t', index)
  | replace {t t' : Hashtable P κ} {name : Name κ} {slot : Slot} {value : Value P} (index : Nat)
      (found : t.locate env name (t.calcHashes env name) = some slot)
      (returns : t.writeValue env name value = .ok (false, t')) :
      Turns env (t, index) (.replace slot value) (t', index)

/-- The content of a place after a turn. -/
def Turn.content (slot : Slot) (content : Option (Entry P κ)) : Turn P → Option (Entry P κ)
  | .next _ => content
  | .remove place => if place = some slot then none else content
  | .replace place value => if place = slot then content.map fun entry => { entry with value } else content

/-- The content of a place after some turns. -/
def contentAfter (t : Hashtable P κ) (turns : List (Turn P)) (slot : Slot) : Option (Entry P κ) :=
  turns.foldl (Turn.content slot) (t.entryAt slot)

/-- The place that a turn returns. -/
def Turn.returned : Turn P → Option Slot
  | .next found => found
  | .remove _ | .replace .. => none

def Turn.isNext : Turn P → Bool
  | .next _ => true
  | .remove _ | .replace .. => false

/-- The places that some turns return. -/
def returnedPlaces (turns : List (Turn P)) : List Slot := turns.filterMap Turn.returned

/-- The promises of an enumeration at some point. A pointer that the next turn returns designates an entry with its
current content, at a place that was not returned before. The turn returns NULL only when each entry that is left
has been returned, and it does so after at most as many turns as the table had entries. -/
structure Enumerates (env : Env P κ) (t : Hashtable P κ) (turns : List (Turn P))
    (state : Hashtable P κ × Nat) : Prop where
  current : ∀ slot after, Turns env state (.next (some slot)) after →
    t.Within slot ∧ slot ∉ returnedPlaces turns ∧
      ∃ entry, state.1.entryAt slot = some entry ∧ contentAfter t turns slot = some entry
  complete : ∀ after, Turns env state (.next none) after → ∀ slot, t.Within slot →
    contentAfter t turns slot ≠ none → slot ∈ returnedPlaces turns
  finite : .next none ∉ turns → turns.countP Turn.isNext ≤ t.entries.card

theorem contentAfter_append (t : Hashtable P κ) (turns : List (Turn P)) (turn : Turn P) (slot : Slot) :
    contentAfter t (turns ++ [turn]) slot = turn.content slot (contentAfter t turns slot) := by
  unfold contentAfter
  rw [List.foldl_append]
  rfl

theorem returnedPlaces_append (turns : List (Turn P)) (turn : Turn P) :
    returnedPlaces (turns ++ [turn]) = returnedPlaces turns ++ turn.returned.toList := by
  unfold returnedPlaces
  rw [List.filterMap_append]
  cases returned : turn.returned <;> simp [returned]

/-- The places behind the index are returned or free, and no entry moves. -/
structure Enumerating (env : Env P κ) (t : Hashtable P κ) (turns : List (Turn P))
    (state : Hashtable P κ × Nat) : Prop where
  sound : state.1.Sound env
  lgSize_eq : state.1.lgSize = t.lgSize
  content : ∀ slot, t.Within slot → state.1.entryAt slot = contentAfter t turns slot
  behind : ∀ slot, t.Within slot → t.position slot < state.2 → state.1.entryAt slot ≠ none →
    slot ∈ returnedPlaces turns
  returned : ∀ slot ∈ returnedPlaces turns, t.Within slot ∧ t.position slot < state.2 ∧ t.entryAt slot ≠ none
  nodup : (returnedPlaces turns).Nodup

theorem contentAfter_of_free {t : Hashtable P κ} (turns : List (Turn P)) {slot : Slot}
    (free : t.entryAt slot = none) : contentAfter t turns slot = none := by
  induction turns using List.reverseRecOn with
  | nil => exact free
  | append_singleton turns turn ih =>
      rw [contentAfter_append, ih]
      unfold Turn.content
      split
      next => rfl
      next => split <;> rfl
      next => split <;> rfl

theorem Hashtable.within_iff {t s : Hashtable P κ} (same : s.lgSize = t.lgSize) (slot : Slot) :
    s.Within slot ↔ t.Within slot := by
  cases slot <;> simp [Within, same]

theorem Hashtable.position_eq {t s : Hashtable P κ} (same : s.lgSize = t.lgSize) (slot : Slot) :
    s.position slot = t.position slot := by
  cases slot <;> simp [position, same]

theorem Hashtable.entryAt_eq_none {t : Hashtable P κ} {slot : Slot} :
    t.entryAt slot = none ↔ (t.item slot).name = none := Item.entry_eq_none

namespace Enumerating

variable {t s s' : Hashtable P κ} {turns : List (Turn P)} {index : Nat}

theorem start (sound : t.Sound env) : Enumerating env t [] (t, 0) where
  sound := sound
  lgSize_eq := rfl
  content _ _ := rfl
  behind _ _ below := absurd below (Nat.not_lt_zero _)
  returned _ member := absurd member List.not_mem_nil
  nodup := List.nodup_nil

/-- A turn that changes one place keeps the others, and the places behind the index. -/
theorem change {turn : Turn P} (state : Enumerating env t turns (s, index)) (sound : s'.Sound env)
    (lgSize_eq : s'.lgSize = s.lgSize) (silent : turn.returned = none)
    (content : ∀ slot, s.Within slot → s'.entryAt slot = turn.content slot (s.entryAt slot)) :
    Enumerating env t (turns ++ [turn]) (s', index) := by
  have places : returnedPlaces (turns ++ [turn]) = returnedPlaces turns := by
    rw [returnedPlaces_append, silent, Option.toList_none, List.append_nil]
  have lgSize : s'.lgSize = t.lgSize := lgSize_eq.trans state.lgSize_eq
  have after : ∀ slot, t.Within slot → s'.entryAt slot = contentAfter t (turns ++ [turn]) slot := by
    intro slot inside
    rw [contentAfter_append, ← state.content slot inside]
    exact content slot ((Hashtable.within_iff state.lgSize_eq slot).mpr inside)
  refine ⟨sound, lgSize, after, ?_, places ▸ state.returned, places ▸ state.nodup⟩
  intro slot inside below live
  rw [places]
  refine state.behind slot inside below fun free => live ?_
  rw [content slot ((Hashtable.within_iff state.lgSize_eq slot).mpr inside), free]
  unfold Turn.content
  split
  next => rfl
  next => split <;> rfl
  next => split <;> rfl

/-- The next item lies at the index or beyond, and the places up to it are free. -/
theorem next (state : Enumerating env t turns (s, index)) :
    Enumerating env t (turns ++ [.next (s.enumNext index).2]) (s, (s.enumNext index).1) := by
  have moves := Hashtable.enumNext_spec state.sound.roomy.toBounded index
  have within := Hashtable.within_iff state.lgSize_eq
  have position := Hashtable.position_eq state.lgSize_eq
  have same : ∀ found slot, contentAfter t (turns ++ [.next found]) slot = contentAfter t turns slot :=
    fun found slot => contentAfter_append ..
  cases chosen : (s.enumNext index).2 with
  | none =>
      rw [chosen] at moves
      obtain ⟨later, free⟩ := moves
      have places : returnedPlaces (turns ++ [.next none]) = returnedPlaces turns := by
        rw [returnedPlaces_append]
        exact List.append_nil _
      refine ⟨state.sound, state.lgSize_eq,
        fun slot inside => (state.content slot inside).trans (same _ slot).symm, ?_, ?_, ?_⟩
      · intro slot inside below live
        rw [places]
        refine state.behind slot inside ?_ live
        by_contra ahead
        refine live (Hashtable.entryAt_eq_none.mpr (free slot ((within slot).mpr inside) ?_))
        rw [position]
        exact Nat.le_of_not_lt ahead
      · intro slot member
        rw [places] at member
        obtain ⟨inside, below, live⟩ := state.returned slot member
        exact ⟨inside, Nat.lt_of_lt_of_le below later, live⟩
      · rw [places]
        exact state.nodup
  | some place =>
      rw [chosen] at moves
      obtain ⟨inside, named, ahead, index', free⟩ := moves
      have stored : s.entryAt place ≠ none := fun free => named (Hashtable.entryAt_eq_none.mp free)
      have inside' := (within place).mp inside
      have places : returnedPlaces (turns ++ [.next (some place)]) = returnedPlaces turns ++ [place] :=
        returnedPlaces_append ..
      refine ⟨state.sound, state.lgSize_eq,
        fun slot inside => (state.content slot inside).trans (same _ slot).symm, ?_, ?_, ?_⟩
      · intro slot inside'' below live
        rw [places, List.mem_append, List.mem_singleton]
        rw [index', ← position] at below
        rcases Nat.lt_succ_iff_lt_or_eq.mp below with earlier | equal
        · refine .inl (state.behind slot inside'' ?_ live)
          by_contra beyond
          refine live (Hashtable.entryAt_eq_none.mpr (free slot ((within slot).mpr inside'') ?_ earlier))
          rw [position]
          exact Nat.le_of_not_lt beyond
        · exact .inr (Hashtable.position_injective ((within slot).mpr inside'') inside equal)
      · intro slot member
        rw [places, List.mem_append, List.mem_singleton] at member
        rw [index', position]
        rcases member with earlier | rfl
        · obtain ⟨inside'', below, live⟩ := state.returned slot earlier
          rw [position] at ahead
          exact ⟨inside'', by omega, live⟩
        · refine ⟨inside', Nat.lt_succ_self _, fun absent => stored ?_⟩
          rw [state.content slot inside', contentAfter_of_free turns absent]
      · rw [places, ← List.concat_eq_append]
        refine state.nodup.concat fun member => ?_
        have below := (state.returned place member).2.1
        rw [position] at ahead
        omega

/-- NULL means that no entry lies at the index or beyond. -/
theorem finished (state : Enumerating env t turns (s, index)) (ends : (s.enumNext index).2 = none)
    {slot : Slot} (inside : t.Within slot) (live : s.entryAt slot ≠ none) : slot ∈ returnedPlaces turns := by
  have moves := Hashtable.enumNext_spec state.sound.roomy.toBounded index
  rw [ends] at moves
  refine state.behind slot inside ?_ live
  by_contra ahead
  refine live (Hashtable.entryAt_eq_none.mpr
    (moves.2 slot ((Hashtable.within_iff state.lgSize_eq slot).mpr inside) ?_))
  rw [Hashtable.position_eq state.lgSize_eq]
  exact Nat.le_of_not_lt ahead

/-- A returned pointer designates an entry. -/
theorem found (state : Enumerating env t turns (s, index)) {slot : Slot}
    (returns : (s.enumNext index).2 = some slot) : s.entryAt slot ≠ none := by
  have moves := Hashtable.enumNext_spec state.sound.roomy.toBounded index
  rw [returns] at moves
  exact fun free => moves.2.1 (Hashtable.entryAt_eq_none.mp free)

/-- Each turn keeps the invariant of the enumeration. -/
theorem step {turn : Turn P} {index' : Nat} (state : Enumerating env t turns (s, index))
    (step : Turns env (s, index) turn (s', index')) : Enumerating env t (turns ++ [turn]) (s', index') := by
  cases step with
  | next => exact state.next
  | @remove _ _ name _ _ returns =>
      obtain ⟨sound, lgSize, content⟩ := state.sound.remove returns
      exact state.change sound lgSize rfl content
  | @replace _ _ name slot value _ found returns =>
      obtain ⟨sound, lgSize, content⟩ := state.sound.replace found returns
      exact state.change sound lgSize rfl fun other _ => content other

end Enumerating

/-- Different live slots are counted. -/
theorem Hashtable.length_le_entries {t : Hashtable P κ} {slots : List Slot} (nodup : slots.Nodup)
    (live : ∀ slot ∈ slots, t.Within slot ∧ t.entryAt slot ≠ none) : slots.length ≤ t.entries.card := by
  have covered : slots.toFinset ⊆ t.liveSlots := by
    intro slot member
    obtain ⟨inside, stored⟩ := live slot (List.mem_toFinset.mp member)
    exact Hashtable.mem_liveSlots.mpr ⟨inside, fun free => stored (Hashtable.entryAt_eq_none.mpr free)⟩
  rw [← List.toFinset_card_of_nodup nodup, t.card_entries, ← t.card_liveSlots]
  exact Finset.card_le_card covered

/-- Without NULL each call of the enumerator returns a place. -/
theorem countP_isNext {turns : List (Turn P)} (unfinished : .next none ∉ turns) :
    turns.countP Turn.isNext = (returnedPlaces turns).length := by
  induction turns with
  | nil => rfl
  | cons turn turns ih =>
      obtain ⟨head, tail⟩ := not_or.mp (mt List.mem_cons.mpr unfinished)
      have rest := ih tail
      cases turn with
      | next found =>
          cases found with
          | none => exact absurd rfl head
          | some found =>
              rw [List.countP_cons_of_pos rfl, rest]
              rfl
      | remove | replace =>
          rw [List.countP_cons_of_neg (by simp [Turn.isNext]), rest]
          rfl

/-- An enumeration of a reachable table, interleaved with removals and replacements, returns each entry that is not
removed before, once and with its current content, and nothing else, whatever the handlers return. -/
theorem enumeration_enumerates {t : Hashtable P κ} {turns : List (Turn P)} {state : Hashtable P κ × Nat}
    (reachable : Reachable env t) (run : Transition.Run (Turns env) (t, 0) turns state) :
    Enumerates env t turns state := by
  obtain ⟨s, index⟩ := state
  have enumerating : Enumerating env t turns (s, index) :=
    run.history (Enumerating env t) (Enumerating.start reachable.sound) fun past state turn next before step =>
      before.step step
  refine ⟨?_, ?_, ?_⟩
  · rintro slot ⟨s', index'⟩ step
    have after := enumerating.step step
    have places : returnedPlaces (turns ++ [.next (some slot)]) = returnedPlaces turns ++ [slot] :=
      returnedPlaces_append ..
    have inside := (after.returned slot (by rw [places]; simp)).1
    have distinct := after.nodup
    rw [places, List.nodup_append] at distinct
    refine ⟨inside, fun member => distinct.2.2 slot member slot (List.mem_singleton_self _) rfl, ?_⟩
    rw [← enumerating.content slot inside]
    generalize label : Turn.next (some slot) = turn at step
    cases step with
    | next =>
        have live := enumerating.found (Turn.next.inj label).symm
        obtain ⟨entry, stored⟩ := Option.ne_none_iff_exists'.mp live
        exact ⟨entry, stored, stored⟩
    | remove | replace => cases label
  · rintro ⟨s', index'⟩ step slot inside live
    rw [← enumerating.content slot inside] at live
    generalize label : Turn.next none = turn at step
    cases step with
    | next => exact enumerating.finished (Turn.next.inj label).symm inside live
    | remove | replace => cases label
  · intro unfinished
    rw [countP_isNext unfinished]
    exact Hashtable.length_le_entries enumerating.nodup fun slot member =>
      ⟨(enumerating.returned slot member).1, (enumerating.returned slot member).2.2⟩

/-- An enumeration of three strings, one of them in the stash. The caller removes two of them on the way. -/
theorem enumeration_enumerates_lengths :
    ∃ (t : Hashtable Platform.lp64 Empty) (turns : List (Turn Platform.lp64))
      (state : Hashtable Platform.lp64 Empty × Nat), t.stash.size = 1 ∧
      Transition.Run (Turns Env.lengths) (t, 0) turns state ∧ turns.countP Turn.isNext = 2 ∧
      Enumerates Env.lengths t turns state := by
  let first : Name Empty := .own (.string (CString.read [97]))
  let third : Name Empty := .own (.string (CString.read [99]))
  have answers : (Hashtable.session Env.lengths 0 [.writeValue (.string (CString.read [97])) 1,
      .writeValue (.string (CString.read [98])) 2, .writeValue (.string (CString.read [99])) 3]).map
        (fun result => (result.2.stash.size, (result.2.remove Env.lengths first).toOption.map fun removed =>
          (removed.2.remove Env.lengths third).isOk)) = some (1, some true) := by
    decide +kernel
  obtain ⟨⟨_, t⟩, completed, facts⟩ := Option.map_eq_some_iff.mp answers
  obtain ⟨size, facts⟩ := Prod.mk.inj facts
  obtain ⟨⟨flag, t'⟩, removed, facts⟩ := Option.map_eq_some_iff.mp facts
  obtain ⟨created, new, run⟩ := Hashtable.session_run completed
  cases removed₁ : t.remove Env.lengths first with
  | error =>
      rw [removed₁] at removed
      cases removed
  | ok result =>
      rw [removed₁] at removed
      cases removed
      cases removed₂ : t'.remove Env.lengths third with
      | error =>
          rw [removed₂] at facts
          cases facts
      | ok result =>
          have turns := Transition.Run.cons (Turns.next t 0) (.cons (.remove _ removed₁)
            (.cons (.remove _ removed₂) (.cons (.next _ _ : Turns Env.lengths _ _ _) (.nil _))))
          exact ⟨t, _, _, size, turns, rfl,
            enumeration_enumerates ⟨0, created, _, new, run⟩ turns⟩

end Coucal
