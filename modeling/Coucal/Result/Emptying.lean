import Coucal.Construction.Programs
import Coucal.Proof.Harness
import Coucal.Proof.Cursor
import Coucal.Result.Enumeration

namespace Coucal

open Driven Outcome

variable {P : Platform} {κ : Type} {env : Env P κ}

/-- Under lawful handlers no two entries have one key. -/
theorem Env.Keyed.nodup_keys {entries : Multiset (Entry P κ)} (keyed : env.Keyed entries) (lawful : env.Lawful) :
    (entries.map Entry.key).Nodup := by
  induction entries using Multiset.induction with
  | empty => exact Multiset.nodup_zero
  | cons entry entries ih =>
      rw [Multiset.map_cons, Multiset.nodup_cons]
      refine ⟨fun member => ?_, ih keyed.of_cons⟩
      obtain ⟨other, among, same⟩ := Multiset.mem_map.mp member
      apply keyed.apart lawful among
      show env.equals other.key entry.key = true
      rw [same]
      exact lawful.refl _

/-- A search for the key of an entry finds its slot. -/
theorem Inv.locate_entry {t : Hashtable P κ} (inv : Inv env t) (lawful : env.Lawful) {slot : Slot}
    {entry : Entry P κ} (inside : t.Within slot) (stored : t.entryAt slot = some entry) :
    t.locate env (.own entry.key) (env.hash entry.key) = some slot := by
  have member : entry ∈ t.entries := Hashtable.mem_entries.mpr ⟨slot, inside, stored⟩
  cases located : t.locate env (.own entry.key) (env.hash entry.key) with
  | none =>
      have missing := Hashtable.locate_none inv.placed inv.stash located entry member
      exact absurd ((inv.keyed.matches_iff lawful member).mpr (lawful.refl _)) missing
  | some other =>
      obtain ⟨inside', entry', stored', matches_⟩ := Hashtable.locate_some inv.stash.toBounded located
      rw [inv.slot_unique lawful inside' inside stored' stored matches_.2]

/-- The loop has removed the keys that it has seen, and all other entries lie at the index or beyond. -/
structure Emptying (env : Env P κ) (t : Hashtable P κ) (index : Nat) (seen : List (Key κ))
    (h : Hashtable P κ) : Prop where
  inv : Inv env h
  ahead : ∀ slot, h.Within slot → h.entryAt slot ≠ none → index ≤ h.position slot
  removed : t.entries.map Entry.key = ↑seen + h.entries.map Entry.key

namespace Emptying

variable {t h : Hashtable P κ} {index index' : Nat} {seen : List (Key κ)} {slot : Slot}

theorem start (inv : Inv env t) : Emptying env t 0 [] t where
  inv := inv
  ahead _ _ _ := Nat.zero_le _
  removed := (zero_add _).symm

/-- The enumerator returns a key that the loop has not seen. -/
theorem found (emptying : Emptying env t index seen h) (lawful : env.Lawful) (start : Inv env t)
    (returns : h.enumNext index = (index', some slot)) :
    h.Within slot ∧ ∃ name entry, (h.item slot).name = some name ∧ h.key name = entry.key ∧
      h.entryAt slot = some entry ∧ entry.key ∉ seen := by
  have moves := h.enumNext_spec emptying.inv.stash.toBounded index
  rw [returns] at moves
  obtain ⟨inside, live, -⟩ := moves
  obtain ⟨name, named⟩ := Option.ne_none_iff_exists'.mp live
  have stored := Hashtable.entryAt_of_named named
  refine ⟨inside, name, _, named, rfl, stored, fun member => ?_⟩
  have distinct := start.keyed.nodup_keys lawful
  rw [emptying.removed, Multiset.nodup_add] at distinct
  apply Multiset.disjoint_left.mp distinct.2.2 (Multiset.mem_coe.mpr member)
  exact Multiset.mem_map_of_mem Entry.key (Hashtable.mem_entries.mpr ⟨slot, inside, stored⟩)

/-- The removal of the key that the enumerator has returned clears its slot, and the next index is behind it. -/
theorem advance {entry : Entry P κ} {after : Hashtable P κ} (emptying : Emptying env t index seen h)
    (returns : h.enumNext index = (index', some slot)) (effect : Removed env h slot entry after) :
    Emptying env t index' (seen ++ [entry.key]) { after with used := after.used - 1 } := by
  have moves := h.enumNext_spec emptying.inv.stash.toBounded index
  rw [returns] at moves
  obtain ⟨inside, live, least, rfl, free⟩ := moves
  refine ⟨(effect.inv emptying.inv).2, ?_, ?_⟩
  · intro other within present
    change after.entryAt other ≠ none at present
    have within' : h.Within other := (Hashtable.within_iff effect.lgSize_eq other).mp within
    have apart : other ≠ slot := fun same => present (same ▸ effect.cleared)
    rw [effect.others other apart within'] at present
    have position : after.position other = h.position other := Hashtable.position_eq effect.lgSize_eq other
    change h.position slot + 1 ≤ after.position other
    rw [position]
    have ahead := emptying.ahead other within' present
    rcases Nat.lt_trichotomy (h.position other) (h.position slot) with earlier | same | later
    · exact absurd (Hashtable.entryAt_eq_none.mpr (free other within' ahead earlier)) present
    · exact absurd (Hashtable.position_injective within' inside same) apart
    · exact later
  · show t.entries.map Entry.key = ↑(seen ++ [entry.key]) + after.entries.map Entry.key
    rw [emptying.removed, effect.entries, Multiset.map_cons, ← Multiset.coe_add, add_assoc]
    rfl

end Emptying

/-- How the loop stops early: after the removal of some keys, the removal of the next one compacts the pool, and
the allocation of this compaction returns NULL. -/
inductive EmptyingStop (env : Env P κ) (t : Hashtable P κ) : Stop → Prop where
  | compaction {h : Hashtable P κ} {seen : List (Key κ)} {key : Key κ} (pool : env.dup = none)
      (reached : drive (Hashtable.makes env) (seen.map .remove) t = .ok h)
      (failed : h.remove env (.own key) = .error (.assertion .compactionMemory)) (null : env.alloc h.allocs = 0) :
      EmptyingStop env t (.table (.assertion .compactionMemory))

/-- The loop removes the entries that are left, and sees each of their keys. -/
theorem removeEach_spec [DecidableEq κ] {t h : Hashtable P κ} {rounds index : Nat} {seen : List (Key κ)}
    (lawful : env.Lawful) (inv : Inv env t) (emptying : Emptying env t index seen h)
    (reached : drive (Hashtable.makes env) (seen.map .remove) t = .ok h) (enough : h.used < rounds) :
    Meets (removeEach env rounds index seen h)
      (fun result => Inv env result.2 ∧ result.2.entries = 0 ∧ t.entries.map Entry.key = ↑result.1)
      (EmptyingStop env t) := by
  induction rounds generalizing index seen h with
  | zero => cases enough
  | succ rounds ih =>
      unfold removeEach
      cases returns : h.enumNext index with
      | mk index' found =>
          cases found with
          | none =>
              have moves := h.enumNext_spec emptying.inv.stash.toBounded index
              rw [returns] at moves
              have empty : h.entries = 0 := by
                apply Multiset.eq_zero_of_forall_notMem
                intro entry member
                obtain ⟨slot, inside, stored⟩ := Hashtable.mem_entries.mp member
                have present : h.entryAt slot ≠ none := stored ▸ Option.some_ne_none entry
                have free := moves.2 slot inside (emptying.ahead slot inside present)
                exact present (Hashtable.entryAt_eq_none.mpr free)
              refine ⟨emptying.inv, empty, ?_⟩
              rw [emptying.removed, empty]
              exact add_zero _
          | some slot =>
              obtain ⟨inside, name, entry, named, key, stored, fresh⟩ := emptying.found lawful inv returns
              have located := emptying.inv.locate_entry lawful inside stored
              dsimp only
              rw [named, Option.elim_some, key]
              change Meets (Except.ok entry.key >>= _) _ _
              rw [ok_bind, check_of fresh, ok_bind]
              have removal : Meets (h.remove env (.own entry.key)) _ _ := remove_spec emptying.inv
              cases removing : h.remove env (.own entry.key) with
              | error failure =>
                  have failed := removal.of_error removing
                  cases failed.asserted
                  exact .compaction failed.pool reached removing failed.null
              | ok result =>
                  have outcome := removal.of_ok removing
                  obtain ⟨removed, h'⟩ := result
                  have next : drive (Hashtable.makes env) ((seen ++ [entry.key]).map .remove) t = .ok h' := by
                    rw [List.map_append, drive_append, reached, ok_bind, List.map_singleton, drive, makes_remove,
                      removing]
                    rfl
                  cases outcome with
                  | absent missing => cases missing.symm.trans located
                  | @removed slot' entry' after found stored' effect =>
                      cases found.symm.trans located
                      cases stored'.symm.trans stored
                      apply ih (emptying.advance returns effect) next
                      have positive := (effect.inv emptying.inv).1
                      show after.used - 1 < rounds
                      rw [effect.used_eq]
                      omega

/-- A loop that removes each item that the enumerator returns empties each reachable table. It removes each
key once and stops early only when a removal compacts the pool and gets no memory for it. -/
theorem removeEach_empties [DecidableEq κ] {t : Hashtable P κ} (lawful : env.Lawful) (reachable : Reachable env t) :
    Meets (removeEach env (t.nitems + 1) 0 [] t)
      (fun result => result.1.length = t.nitems ∧ result.2.nitems = 0 ∧
        (∀ key, key ∈ result.1 ↔ ∃ slot, t.Within slot ∧ ∃ value, t.binding slot = some (key, value)) ∧
        ∀ name, result.2.exists_ env name = false)
      (EmptyingStop env t) := by
  have inv := reachable.inv lawful.dupReturns
  refine (removeEach_spec lawful inv (.start inv) rfl (Nat.lt_succ_self _)).imp ?_
  rintro ⟨seen, h⟩ ⟨inv', empty, removed⟩
  have count := congrArg Multiset.card removed
  refine ⟨?_, ?_, ?_, ?_⟩
  · rw [Multiset.card_map, t.card_entries, ← inv.used_eq] at count
    exact count.symm
  · have none := congrArg Multiset.card empty
    rw [h.card_entries, ← inv'.used_eq] at none
    exact none
  · intro key
    change key ∈ seen ↔ _
    rw [← Multiset.mem_coe, ← removed, Multiset.mem_map]
    constructor
    · rintro ⟨entry, member, rfl⟩
      obtain ⟨slot, inside, stored⟩ := Hashtable.mem_entries.mp member
      obtain ⟨name, named, same, value, -⟩ := Hashtable.item_of_entryAt stored
      refine ⟨slot, inside, entry.value, ?_⟩
      rw [Hashtable.binding, named, Option.map_some, same, value]
    · rintro ⟨slot, inside, value, shown⟩
      obtain ⟨name, named, same⟩ := Option.map_eq_some_iff.mp shown
      cases same
      exact ⟨_, Hashtable.mem_entries.mpr ⟨slot, inside, Hashtable.entryAt_of_named named⟩, rfl⟩
  · intro name
    obtain ⟨found, answers, read⟩ := Hashtable.readValue_answers inv' name
    rw [Hashtable.exists_, read]
    cases found with
    | none => rfl
    | some entry =>
        have member := answers.1
        rw [empty] at member
        exact absurd member (Multiset.notMem_zero entry)

/-- The loop on three strings with the same hashes, one of them in the stash. -/
theorem removeEach_empties_lengths :
    ∃ (t : Hashtable Platform.lp64 Empty) (seen : List (Key Empty)) (h : Hashtable Platform.lp64 Empty),
      t.stash.size = 1 ∧ removeEach Env.lengths (t.nitems + 1) 0 [] t = .ok (seen, h) ∧
      seen.length = t.nitems ∧ h.nitems = 0 := by
  have answers : (Hashtable.session Env.lengths 0 [.writeValue (.string (CString.read [97])) 1,
      .writeValue (.string (CString.read [98])) 2, .writeValue (.string (CString.read [99])) 3]).map
        (fun result => (result.2.stash.size,
          (removeEach Env.lengths (result.2.nitems + 1) 0 [] result.2).isOk)) = some (1, true) := by
    decide +kernel
  obtain ⟨⟨_, t⟩, completed, facts⟩ := Option.map_eq_some_iff.mp answers
  obtain ⟨size, facts⟩ := Prod.mk.inj facts
  obtain ⟨created, new, run⟩ := Hashtable.session_run completed
  have emptied := removeEach_empties (Env.strings_lawful _ _ _) ⟨0, created, _, new, run⟩
  cases removed : removeEach Env.lengths (t.nitems + 1) 0 [] t with
  | error stop =>
      rw [removed] at facts
      cases facts
  | ok result =>
      obtain ⟨length, empty, -⟩ := emptied.of_ok removed
      exact ⟨t, result.1, result.2, size, removed, length, empty⟩

end Coucal
