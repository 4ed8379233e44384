import Coucal.Proof.Handlers

namespace Coucal

open Outcome

variable {P : Platform} {κ : Type} {env : Env P κ}

/-- An insertion of an item into a table, during a write on a table that the caller holds: the insertion
of the new key with the name that its duplication returns, or one of those in the merge after a doubling, when
the write has got its duplicate. -/
inductive Insertion (env : Env P κ) (t : Hashtable P κ) : Hashtable P κ → Item P κ → Prop where
  | write {name : Name κ} {copy : Option (Name κ)} {value : Value P} {s : Hashtable P κ}
      (readable : t.Readable name) (missing : t.locate env name (t.calcHashes env name) = none)
      (duplicated : (if t.stash.size ≠ 0 then t.drainStash else t).dupName env name = .ok (copy, s)) :
      Insertion env t s { name := copy, value, hashes := t.calcHashes env name }
  | merge {name : Name κ} {value : Value P} {added expanded s : Hashtable P κ} {index : Nat}
      (readable : t.Readable name) (missing : t.locate env name (t.calcHashes env name) = none)
      (granted : t.Grants env name) (written : t.writeValue_ env name value = .ok (true, added))
      (full : 2 ^ (added.lgSize - 1) ≤ added.used + 1 ∨ stashSize / 2 ≤ added.stash.size)
      (doubled : ({ added with used := added.used + 1 } : Hashtable P κ).expand env = .ok expanded)
      (inside : index < expanded.stash.extent)
      (before : forUpTo (Hashtable.mergeEntry expanded.stash) index
        { expanded with stash := { items := fun _ => Item.null P κ, size := 0, extent := 0 } } = .ok s)
      (named : (expanded.stash.items index).name ≠ none) :
      Insertion env t s (expanded.stash.items index)

/-- A free slot is reachable from the candidate slots of an item. -/
def Vacancy (t : Hashtable P κ) (item : Item P κ) : Prop :=
  ∃ free ∈ reachableSlots t.lgSize t.items item, (t.items free).name = none

/-- A table takes an insertion when its items are in place and less than half of it is occupied. -/
structure Insertable (t : Hashtable P κ) (item : Item P κ) : Prop where
  placed : Placed t.lgSize t.items
  stash : t.stash.Ok
  half : HalfFree t.lgSize t.items
  named : item.name ≠ none

theorem Ready.insertable {t s : Hashtable P κ} {name copy : Name κ} (ready : Ready env t name copy s)
    (inv : Inv env t) {value : Value P} {hashes : Hashkeys P} :
    Insertable s { name := some copy, value, hashes } :=
  ⟨ready.placed, ready.stash, ready.halfFree inv, Option.some_ne_none copy⟩

/-- The duplication of a name asks the handler once, about the key of the name. -/
theorem granted_of_dupName {t s : Hashtable P κ} {name copy : Name κ}
    (duplicated : (if t.stash.size ≠ 0 then t.drainStash else t).dupName env name = .ok (some copy, s)) :
    t.Grants env name := by
  have drained := drained_rearranged t
  generalize (if t.stash.size ≠ 0 then t.drainStash else t) = d at drained duplicated
  intro dup handler null
  rw [Hashtable.dupName, handler] at duplicated
  dsimp only at duplicated
  rw [drained.calls_eq, drained.key_eq, null] at duplicated
  cases duplicated

/-- Each insertion of a named item during a write meets a table that takes it. -/
theorem Insertion.insertable {t s : Hashtable P κ} {item : Item P κ} (inv : Inv env t)
    (insertion : Insertion env t s item) (named : item.name ≠ none) : Insertable s item := by
  cases insertion with
  | @write name copy _ _ readable missing duplicated =>
      obtain ⟨copy, rfl⟩ := Option.ne_none_iff_exists'.mp named
      obtain ⟨_, same, ready⟩ := (ready_spec (granted_of_dupName duplicated) inv readable).of_ok duplicated
      cases same
      exact ready.insertable inv
  | @merge name value added expanded _ index readable missing granted written full doubled inside before named =>
      obtain ⟨-, joined⟩ := (writeLocal_added granted inv readable missing).of_ok written
      change Joined env t name value added at joined
      have positive : 0 < added.lgSize :=
        Nat.lt_of_lt_of_le (by decide) (joined.lgSize_eq.symm ▸ inv.lgSize_ge)
      have split := (expand_spec (t := { added with used := added.used + 1 }) positive joined.placed).of_ok doubled
      have lgSize : expanded.lgSize = added.lgSize + 1 := by rw [split.frame]
      have stash : expanded.stash = added.stash := by rw [split.frame]
      have placed : Placed expanded.lgSize expanded.items := lgSize.symm ▸ split.placed
      have ok : expanded.stash.Ok := stash.symm ▸ joined.stash
      have live : expanded.live = added.live := by
        unfold Hashtable.live
        rw [lgSize, split.live, stash]
      have half : 2 * expanded.live.card + 2 ≤ 2 ^ expanded.lgSize := by
        rw [live, lgSize]
        exact joined.half inv
      have state : Merging expanded index s := (Meets.forUpTo (Merging expanded) (merging_start placed)
        fun i below s state => mergeEntry_step ok (below.trans inside) state).of_ok before
      have same : s.lgSize = expanded.lgSize := by rw [state.frame]
      exact ⟨same.symm ▸ state.placed, state.stashOk, state.halfFree ok (Nat.le_of_lt inside) half, named⟩

/-- With a reachable free slot, and no stored hash equal to the first hash of the item, all items go to
the table. -/
theorem addItem_of_vacancy {t : Hashtable P κ} {item : Item P κ} (insertable : Insertable t item)
    (distinct : ∀ u < 2 ^ t.lgSize, (t.items u).name ≠ none →
      (t.items u).hashes.hash1 ≠ item.hashes.hash1 ∧ (t.items u).hashes.hash2 ≠ item.hashes.hash1)
    (vacancy : Vacancy t item) : ∃ items, t.addItem_ item = .ok (true, { t with items }) := by
  unfold Hashtable.addItem_
  dsimp only
  split
  next => exact ⟨_, rfl⟩
  next =>
    split
    next => exact ⟨_, rfl⟩
    next =>
      obtain ⟨free, reached, vacant⟩ := vacancy
      obtain ⟨items, places⟩ :=
        evict_places insertable.placed insertable.named insertable.half distinct reached vacant
      rw [places]
      exact ⟨items, rfl⟩

/-- Without a reachable free slot one item goes to the stash. -/
theorem addItem_of_full {t : Hashtable P κ} {item : Item P κ} (insertable : Insertable t item)
    (room : t.stash.size < stashSize) (full : ¬ Vacancy t item) :
    ∃ items left, left.name ≠ none ∧
      t.addItem_ item = .ok (true, { t with items, stash := t.stash.insert left }) := by
  have occupied : ∀ u ∈ reachableSlots t.lgSize t.items item, (t.items u).name ≠ none :=
    fun u reached free => full ⟨u, reached, free⟩
  have first := occupied _ (.inl .refl)
  have second := occupied _ (.inr .refl)
  have closed := evict_closed item.hashes.hash1 (2 ^ t.lgSize) insertable.placed (fun u reached =>
    ⟨occupied u reached, reachableSlots_next insertable.placed reached (occupied u reached)⟩)
    insertable.named ⟨.inl .refl, .inr .refl⟩ (.inl rfl)
  have evicted := evict_spec item.hashes.hash1 (2 ^ t.lgSize) insertable.placed insertable.named (.inl rfl)
  cases run : evict t.lgSize item.hashes.hash1 (2 ^ t.lgSize) t.items item item.hashes.hash1 with
  | error => exact (evicted.of_error run).elim
  | ok result =>
      obtain ⟨items, _⟩ := result
      obtain ⟨left, rfl, -⟩ := closed.of_ok run
      refine ⟨items, left, (evicted.of_ok run).named left rfl, ?_⟩
      unfold Hashtable.addItem_
      simp only [Hashtable.isFree, Hashtable.hashToPos, Option.isNone_iff_eq_none, if_neg first, if_neg second]
      rw [run, ok_bind]
      dsimp only
      rw [coucalAssert, Outcome.guard, if_pos room]
      rfl

/-- An insertion of a named item leaves the stash alone exactly when a free slot is reachable, and puts one item
into it otherwise. In both cases it loses no item. -/
theorem Insertable.stashes {s : Hashtable P κ} {item : Item P κ} (insertable : Insertable s item)
    (room : s.stash.size < stashSize)
    (distinct : ∀ u < 2 ^ s.lgSize, (s.items u).name ≠ none →
      (s.items u).hashes.hash1 ≠ item.hashes.hash1 ∧ (s.items u).hashes.hash2 ≠ item.hashes.hash1) :
    ∃ s', s.addItem_ item = .ok (true, s') ∧ s'.live = item ::ₘ s.live ∧
      (s'.stash = s.stash ↔ Vacancy s item) ∧
      (¬ Vacancy s item → ∃ left, left.name ≠ none ∧ s'.stash = s.stash.insert left ∧
        s'.stash.size = s.stash.size + 1) := by
  have added {s' : Hashtable P κ} (run : s.addItem_ item = .ok (true, s')) : Added s item s' :=
    ((addItem_spec insertable.placed insertable.stash insertable.named).of_ok run).2
  by_cases vacancy : Vacancy s item
  · obtain ⟨items, run⟩ := addItem_of_vacancy insertable distinct vacancy
    exact ⟨_, run, (added run).live, ⟨fun _ => vacancy, fun _ => rfl⟩, fun full => absurd vacancy full⟩
  · obtain ⟨items, left, named, run⟩ := addItem_of_full insertable room vacancy
    refine ⟨_, run, (added run).live, ⟨fun same => ?_, fun vacancy' => absurd vacancy' vacancy⟩,
      fun _ => ⟨left, named, rfl, rfl⟩⟩
    have size := congrArg Stash.size same
    exact absurd size (Nat.succ_ne_self _)

/-- After a run in which the additions got their duplicates, an insertion during a write leaves the stash alone
exactly when a free slot is reachable, puts one item into it otherwise, and loses no item, exactly when the new
item has a name. -/
theorem insertion_stashes_iff {initialSize : Nat} {created t s : Hashtable P κ} {events : List (Event P κ)}
    {item : Item P κ} (new : Hashtable.new env initialSize = some created)
    (run : Transition.Run (GrantedStep env) created events t) (insertion : Insertion env t s item)
    (room : s.stash.size < stashSize)
    (distinct : ∀ u < 2 ^ s.lgSize, (s.items u).name ≠ none →
      (s.items u).hashes.hash1 ≠ item.hashes.hash1 ∧ (s.items u).hashes.hash2 ≠ item.hashes.hash1) :
    (∃ s', s.addItem_ item = .ok (true, s') ∧ s'.live = item ::ₘ s.live ∧
      (s'.stash = s.stash ↔ Vacancy s item) ∧
      (¬ Vacancy s item → ∃ left, left.name ≠ none ∧ s'.stash = s.stash.insert left ∧
        s'.stash.size = s.stash.size + 1)) ↔ item.name ≠ none := by
  constructor
  · rintro ⟨s', -, live, -⟩
    have member : item ∈ s'.live := live ▸ Multiset.mem_cons_self item s.live
    rcases Multiset.mem_add.mp member with stored | stashed
    · exact (mem_liveIn.mp stored).elim fun _ => fun found => found.2.2
    · exact (mem_liveIn.mp stashed).elim fun _ => fun found => found.2.2
  · intro named
    exact (insertion.insertable ((new_spec new).1.run run) named).stashes room distinct

/-- A string whose two positions hold two other strings of one chain. -/
theorem insertion_stashes_iff_lengths :
    ∃ (t s s' : Hashtable Platform.lp64 Empty) (item : Item Platform.lp64 Empty),
      Insertion Env.lengths t s item ∧ s.addItem_ item = .ok (true, s') ∧
      (s'.stash = s.stash ↔ Vacancy s item) := by
  let key : Key Empty := .string (CString.read (List.replicate 33 97))
  let ready (t : Hashtable Platform.lp64 Empty) : Result (Option (Name Empty) × Hashtable Platform.lp64 Empty) :=
    (if t.stash.size ≠ 0 then t.drainStash else t).dupName Env.lengths (.own key)
  have answers : (Hashtable.session Env.lengths 0 [.writeValue (.string (CString.read [97])) 1,
      .writeValue (.string (CString.read [98])) 2]).map (fun result =>
        ((result.2.locate Env.lengths (.own key) (Env.lengths.hash key)).isNone,
          (ready result.2).toOption.map fun duplicated => (duplicated.1.isSome, decide (
            duplicated.2.stash.size < stashSize ∧ ∀ u < 2 ^ duplicated.2.lgSize,
              (duplicated.2.items u).hashes.hash1 ≠ 33 ∧ (duplicated.2.items u).hashes.hash2 ≠ 33)))) =
      some (true, some (true, true)) := by
    decide +kernel
  obtain ⟨⟨_, t⟩, completed, facts⟩ := Option.map_eq_some_iff.mp answers
  obtain ⟨missing, facts⟩ := Prod.mk.inj facts
  obtain ⟨⟨copy, s⟩, duplicated, facts⟩ := Option.map_eq_some_iff.mp facts
  obtain ⟨named, facts⟩ := Prod.mk.inj facts
  obtain ⟨room, distinct⟩ := of_decide_eq_true facts
  obtain ⟨created, new, run⟩ := Hashtable.session_run completed
  have returned := Outcome.toOption_eq_some.mp duplicated
  have insertion : Insertion Env.lengths t s ⟨copy, 0, t.calcHashes Env.lengths (.own key)⟩ :=
    .write trivial (Option.isNone_iff_eq_none.mp missing) returned
  obtain ⟨s', run', -, same, -⟩ := (insertion_stashes_iff new
    (run.mono fun _ _ _ step => step.granted (Env.dupReturns_of_pool rfl)) insertion room
    fun u inside _ => distinct u inside).mpr (Option.isSome_iff_ne_none.mp named)
  exact ⟨t, s, s', _, insertion, run', same⟩

/-- Occupied slots that no chain leaves have no free slot among them. -/
theorem not_vacancy {t : Hashtable P κ} {item : Item P κ} {region : Set Nat}
    (closed : ∀ u ∈ region, (t.items u).name ≠ none ∧
      hashToPos_ t.lgSize (t.items u).hashes.hash1 ∈ region ∧ hashToPos_ t.lgSize (t.items u).hashes.hash2 ∈ region)
    (within : hashToPos_ t.lgSize item.hashes.hash1 ∈ region ∧ hashToPos_ t.lgSize item.hashes.hash2 ∈ region) :
    ¬ Vacancy t item := by
  have stays : ∀ start ∈ region, ∀ slot,
      Eviction.Reaches (candidates t.lgSize) (occupant t.lgSize t.items) start slot → slot ∈ region := by
    intro start inside slot reaches
    induction reaches with
    | refl => exact inside
    | tail _ onward ih =>
        obtain ⟨stored, occupied, rfl⟩ := onward
        obtain ⟨-, rfl, -⟩ := occupant_eq_some.mp occupied
        unfold Eviction.Candidates.other candidates
        split
        next => exact (closed _ ih).2.2
        next => exact (closed _ ih).2.1
  rintro ⟨free, reached | reached, vacant⟩
  · exact (closed _ (stays _ within.1 _ reached)).1 vacant
  · exact (closed _ (stays _ within.2 _ reached)).1 vacant

/-- The duplication of the third string returns NULL. Its two positions hold two other strings of one chain, so
no free slot is reachable, but nothing goes to the stash: the eviction puts an item over the unnamed one. -/
theorem unnamed_insertion_overwritten :
    ∃ (env : Env Platform.lp64 Empty) (created t s s' : Hashtable Platform.lp64 Empty)
      (events : List (Event Platform.lp64 Empty)) (item : Item Platform.lp64 Empty),
      Hashtable.new env 0 = some created ∧ Transition.Run (GrantedStep env) created events t ∧
      Insertion env t s item ∧ s.stash.size < stashSize ∧
      (∀ u < 2 ^ s.lgSize, (s.items u).name ≠ none →
        (s.items u).hashes.hash1 ≠ item.hashes.hash1 ∧ (s.items u).hashes.hash2 ≠ item.hashes.hash1) ∧
      ¬ Vacancy s item ∧ s.addItem_ item = .ok (true, s') ∧ s'.stash.size = s.stash.size := by
  let key : Key Empty := .string (CString.read (List.replicate 33 97))
  let env := Env.refusing key
  let ops : List (Op Platform.lp64 (Key Empty)) :=
    [.writeValue (.string (CString.read [97])) 1, .writeValue (.string (CString.read [98])) 2]
  let ready (t : Hashtable Platform.lp64 Empty) : Result (Option (Name Empty) × Hashtable Platform.lp64 Empty) :=
    (if t.stash.size ≠ 0 then t.drainStash else t).dupName env (.own key)
  have answers : (Hashtable.session env 0 ops).map (fun result =>
        ((result.2.locate env (.own key) (env.hash key)).isNone,
          (ready result.2).toOption.map fun duplicated => (decide (duplicated.2.stash.size < stashSize ∧
            (∀ u < 2 ^ duplicated.2.lgSize, (duplicated.2.items u).name ≠ none →
              (duplicated.2.items u).hashes.hash1 ≠ 33 ∧ (duplicated.2.items u).hashes.hash2 ≠ 33) ∧
            ∀ u < 2, (duplicated.2.items u).name ≠ none ∧
              hashToPos_ duplicated.2.lgSize (duplicated.2.items u).hashes.hash1 < 2 ∧
              hashToPos_ duplicated.2.lgSize (duplicated.2.items u).hashes.hash2 < 2 ∧
              hashToPos_ duplicated.2.lgSize (33 : Hashkey Platform.lp64) < 2 ∧
              hashToPos_ duplicated.2.lgSize (16 : Hashkey Platform.lp64) < 2),
            (duplicated.2.addItem_ ⟨duplicated.1, 3, ⟨33, 16⟩⟩).toOption.map fun added =>
              (added.1, decide (added.2.stash.size = duplicated.2.stash.size))))) =
      some (true, some (true, some (true, true))) := by
    decide +kernel
  obtain ⟨⟨replies, t⟩, completed, facts⟩ := Option.map_eq_some_iff.mp answers
  obtain ⟨missing, facts⟩ := Prod.mk.inj facts
  obtain ⟨⟨copy, s⟩, duplicated, facts⟩ := Option.map_eq_some_iff.mp facts
  obtain ⟨facts, answers⟩ := Prod.mk.inj facts
  obtain ⟨room, distinct, closed⟩ := of_decide_eq_true facts
  obtain ⟨⟨flag, s'⟩, added, facts⟩ := Option.map_eq_some_iff.mp answers
  obtain ⟨rfl, same⟩ := Prod.mk.inj facts
  obtain ⟨created, new, replayed⟩ := Option.bind_eq_some_iff.mp completed
  have run := Hashtable.replay_refusing (by decide +kernel) (Outcome.toOption_eq_some.mp replayed)
  have hashes : t.calcHashes env (.own key) = ⟨33, 16⟩ := (by decide +kernel : env.hash key = ⟨33, 16⟩)
  have insertion : Insertion env t s ⟨copy, 3, ⟨33, 16⟩⟩ :=
    hashes ▸ .write trivial (Option.isNone_iff_eq_none.mp missing) (Outcome.toOption_eq_some.mp duplicated)
  have stays := (closed 0 (by decide)).2.2.2
  -- the two slots of the first items are closed under candidate slots
  have two : ∀ u ∈ {u | u < 2}, (s.items u).name ≠ none ∧ hashToPos_ s.lgSize (s.items u).hashes.hash1 ∈ {u | u < 2} ∧
      hashToPos_ s.lgSize (s.items u).hashes.hash2 ∈ {u | u < 2} :=
    fun u inside => ⟨(closed u inside).1, (closed u inside).2.1, (closed u inside).2.2.1⟩
  exact ⟨env, created, t, s, s', _, _, new, run, insertion, room, distinct,
    not_vacancy two stays, Outcome.toOption_eq_some.mp added, of_decide_eq_true same⟩

end Coucal
