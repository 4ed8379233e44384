import Mathlib.Data.Multiset.Bind
import Coucal.Proof.Calls

namespace Coucal

open Outcome

variable {P : Platform} {κ : Type} {env : Env P κ}

/-- The handler calls that release an entry. -/
def Entry.dues (env : Env P κ) (entry : Entry P κ) : Multiset (Call P κ) :=
  (if env.dup.isNone then 0 else {.freeKey (.own entry.key)}) + (env.releases entry.value : Multiset _)

/-- The handler calls that release all entries. -/
def Hashtable.dues (env : Env P κ) (t : Hashtable P κ) : Multiset (Call P κ) := t.entries.bind (Entry.dues env)

/-- The handler calls so far, and those that release the entries. -/
def Hashtable.account (env : Env P κ) (t : Hashtable P κ) : Multiset (Call P κ) := t.calls + t.dues env

/-- A call that changes a value in place. -/
def Op.counts {ν : Type} : Op P ν → Bool
  | .inc _ | .dec _ => true
  | .writeValue .. | .remove _ | .readValue _ | .exists_ _ | .fetchValueHashes .. | .nitems | .enumNext _ => false

/-- The handler calls that an event makes or leaves to the release of its entry. -/
inductive Causes (env : Env P κ) : Event P κ → Multiset (Call P κ) → Prop where
  | replace (key : Key κ) (value : Value P) :
      Causes env (.writeValue key value, .flag false) (env.releases value : Multiset _)
  | insert (key copy : Key κ) (value : Value P) (hashes : Hashkeys P) :
      Causes env (.writeValue key value, .flag true)
        ((if env.dup.isNone then 0 else {.dup key (some copy)}) + Entry.dues env ⟨copy, value, hashes⟩)
  | other {event : Event P κ} (unwritten : ∀ key value, event.1 ≠ .writeValue key value) : Causes env event 0

/-- The keys of a table with a duplication handler are its names. -/
theorem Env.Managed.own_name {t : Hashtable P κ} (managed : env.Managed t.pool t.names)
    (handler : env.dup.isNone = false) {name : Name κ} (member : name ∈ t.names) : name = .own (t.key name) := by
  cases dup : env.dup with
  | none => simp [dup] at handler
  | some =>
      obtain ⟨key, rfl⟩ := (Env.managed_own dup).mp managed name member
      rfl

/-- The dues of an entry are the calls of its release. -/
theorem Entry.dues_eq {entry : Entry P κ} {name : Name κ}
    (own : env.dup.isNone = false → name = .own entry.key) : entry.dues env =
      ((if env.dup.isNone then [] else [.freeKey name]) ++ env.releases entry.value : List (Call P κ)) := by
  unfold dues
  cases handler : env.dup.isNone with
  | true => rfl
  | false =>
      rw [own handler]
      rfl

/-- A stored value leaves the other dues alone. -/
theorem Hashtable.dues_setValue (env : Env P κ) {t : Hashtable P κ} {slot : Slot} {entry : Entry P κ}
    (inside : t.Within slot) (stored : t.entryAt slot = some entry) (value : Value P) :
    (env.releases entry.value : Multiset _) + (t.setValue slot value).dues env =
      (env.releases value : Multiset _) + t.dues env := by
  unfold dues
  rw [entries_setValue inside stored, entries_eq_cons inside stored, Multiset.cons_bind, Multiset.cons_bind]
  unfold Entry.dues
  dsimp only
  ac_rfl

/-- Each call that changes no value in place moves dues to calls, and adds what it causes. -/
theorem Effect.account {t t' : Hashtable P κ} {op : Op P (Name κ)} {reply : Reply P κ} (inv : Inv env t)
    (effect : Effect env t op reply t') (plain : op.counts = false) :
    ∃ caused, Causes env (op.map t.key, reply) caused ∧ t'.account env = caused + t.account env := by
  unfold Hashtable.account
  cases effect with
  | @write name value _ _ outcome =>
      cases outcome with
      | @replaced slot entry found stored =>
          have inside := (Hashtable.locate_some inv.stash.toBounded found).1
          refine ⟨_, .replace _ _, ?_⟩
          have moved := Hashtable.dues_setValue env inside stored value
          change ((env.releases entry.value ++ t.calls : List _) : Multiset _) + (t.setValue slot value).dues env = _
          rw [← Multiset.coe_add, add_right_comm, moved]
          ac_rfl
      | added missing effect =>
          obtain ⟨copy, -, entries, calls⟩ := effect.copied
          refine ⟨_, .insert _ copy value (t.calcHashes env name), ?_⟩
          unfold Hashtable.dues
          rw [entries, calls, Multiset.cons_bind]
          split
          next => ac_rfl
          next =>
            rw [← Multiset.cons_coe, ← Multiset.singleton_add]
            ac_rfl
  | @remove name removed _ outcome =>
      refine ⟨0, .other nofun, ?_⟩
      cases outcome with
      | absent => exact (zero_add _).symm
      | removed found stored effect =>
          obtain ⟨name', named, calls⟩ := effect.calls
          have inside := (Hashtable.locate_some inv.stash.toBounded found).1
          obtain ⟨_, same, key, -⟩ := Hashtable.item_of_entryAt stored
          cases named.symm.trans same
          have own : env.dup.isNone = false → name' = .own _ := fun handler =>
            (inv.managed.own_name handler (Hashtable.mem_names.mpr ⟨_, inside, named⟩)).trans (congrArg _ key)
          unfold Hashtable.dues
          rw [effect.entries, Multiset.cons_bind, zero_add, Entry.dues_eq own]
          change (_ : Multiset _) + Multiset.bind (Hashtable.entries _) _ = _
          rw [calls, ← Multiset.coe_add]
          ac_rfl
  | inc => cases plain
  | dec => cases plain
  | observe quiet =>
      refine ⟨0, .other fun key value same => ?_, (zero_add _).symm⟩
      cases op <;> cases quiet <;> cases same

/-- The item that `coucal_delete` leaves in a live slot. -/
def Item.deleted (env : Env P κ) (item : Item P κ) : Item P κ :=
  if env.dup.isNone then { item with value := 0 } else Item.null P κ

/-- A deletion pass releases the value, and the name when a handler has made it. -/
theorem deleteSlot_eq {t : Hashtable P κ} {slot : Slot} {name : Name κ} (named : (t.item slot).name = some name) :
    Hashtable.deleteSlot env slot t = .ok { t.setItem slot ((t.item slot).deleted env) with
      calls := (if env.dup.isNone then [] else [.freeKey name]) ++ env.releases (t.item slot).value ++ t.calls } := by
  unfold Hashtable.deleteSlot Item.deleted
  rw [if_neg (by simp [named])]
  cases handler : env.dup with
  | none =>
      rw [Hashtable.delValue_eq]
      rfl
  | some dup =>
      have deleted : t.delItem env slot = _ := Hashtable.delItem_eq named
      unfold Hashtable.delItem Hashtable.freeKey at deleted
      rw [handler] at deleted
      exact deleted

/-- The deletion of a table has settled some of the slots. -/
structure Deleting (env : Env P κ) (t : Hashtable P κ) (settled : Slot → Prop) (s : Hashtable P κ) : Prop where
  lgSize_eq : s.lgSize = t.lgSize
  extent_eq : s.stash.extent = t.stash.extent
  bounded : s.stash.Bounded
  own : env.dup.isNone = false → ∀ name ∈ s.names, name = .own (s.key name)
  settled : ∀ slot entry, settled slot → s.entryAt slot = some entry → entry.dues env = 0
  account_eq : s.account env = t.account env

theorem Deleting.weaken {t s : Hashtable P κ} {settled settled' : Slot → Prop} (state : Deleting env t settled s)
    (fewer : ∀ slot, settled' slot → settled slot) : Deleting env t settled' s :=
  { state with settled := fun slot entry done => state.settled slot entry (fewer slot done) }

/-- The calls of a pass account for the item that it deletes. -/
theorem account_deleted {s : Hashtable P κ} {slot : Slot} {name : Name κ} (within : s.Within slot)
    (named : (s.item slot).name = some name) (own : env.dup.isNone = false → name = .own (s.key name)) :
    Hashtable.account env { s.setItem slot ((s.item slot).deleted env) with
      calls := (if env.dup.isNone then [] else [.freeKey name]) ++ env.releases (s.item slot).value ++ s.calls } =
      s.account env := by
  have stored : s.entryAt slot = some ⟨s.key name, (s.item slot).value, (s.item slot).hashes⟩ :=
    Item.entry_of_named named
  unfold Hashtable.account
  change (_ : Multiset _) + (s.setItem slot _).dues env = _
  unfold Item.deleted
  split
  next =>
    have moved := Hashtable.dues_setValue env within stored 0
    rw [show env.releases (0 : Value P) = [] by simp [Env.releases], Multiset.coe_nil, zero_add] at moved
    rw [← moved, List.nil_append, ← Multiset.coe_add]
    unfold Hashtable.setValue
    ac_rfl
  next handler =>
    have cleared : s.dues env = Entry.dues env ⟨s.key name, (s.item slot).value, (s.item slot).hashes⟩ +
        (s.setItem slot (Item.null P κ)).dues env := by
      unfold Hashtable.dues
      rw [Hashtable.entries_eq_cons within stored, Multiset.cons_bind]
    rw [cleared, Entry.dues_eq own, if_neg handler, ← Multiset.coe_add]
    ac_rfl

/-- A pass settles its slot. -/
theorem deleteSlot_step {t s : Hashtable P κ} {settled : Slot → Prop} {slot : Slot} (inside : t.Within slot)
    (state : Deleting env t settled s) :
    Meets (Hashtable.deleteSlot env slot s) (Deleting env t fun other => other = slot ∨ settled other)
      fun _ => False := by
  have within : s.Within slot := by
    cases slot with
    | table => simpa only [Hashtable.Within, state.lgSize_eq] using inside
    | stash => exact inside
  cases named : (s.item slot).name with
  | none =>
      rw [Hashtable.deleteSlot, if_pos (by simp [named])]
      refine { state with settled := ?_ }
      rintro other entry (rfl | done) stored
      · obtain ⟨_, same, -⟩ := Hashtable.item_of_entryAt stored
        cases named.symm.trans same
      · exact state.settled other entry done stored
  | some name =>
      rw [deleteSlot_eq named]
      have key : ∀ name', (s.setItem slot ((s.item slot).deleted env)).key name' = s.key name' := fun name' => by
        rw [Hashtable.key, Hashtable.setItem_pool, Hashtable.key]
      refine ⟨(Hashtable.setItem_lgSize ..).trans state.lgSize_eq,
        (Hashtable.setItem_extent ..).trans state.extent_eq, ?_, ?_, ?_, ?_⟩
      · change (s.setItem slot _).stash.Bounded
        unfold Item.deleted
        split
        next => exact (s.alike_setValue slot 0).bounded state.bounded
        next => exact Hashtable.bounded_clear state.bounded Item.null_name
      · intro handler name' member
        change name' ∈ (s.setItem slot _).names at member
        refine (state.own handler name' ?_).trans (congrArg _ (key name').symm)
        rw [Item.deleted, if_neg (by simp [handler])] at member
        rw [Hashtable.names_clear within named Item.null_name]
        exact Multiset.mem_cons_of_mem member
      · intro other entry done stored'
        change (s.setItem slot _).entryAt other = some entry at stored'
        by_cases same : other = slot
        · subst same
          rw [Hashtable.entryAt, Hashtable.item_setItem, Item.deleted] at stored'
          split at stored'
          next pool =>
            rw [Item.entry_of_named (by exact named)] at stored'
            cases stored'
            simp [Entry.dues, pool, Env.releases]
          next =>
            rw [Item.entry_of_free Item.null_name] at stored'
            cases stored'
        · rw [Hashtable.entryAt_setItem_of_ne _ same] at stored'
          exact state.settled other entry (done.resolve_left same) stored'
      · refine (account_deleted within named fun handler => ?_).trans state.account_eq
        exact state.own handler name (Hashtable.mem_names.mpr ⟨_, within, named⟩)

/-- The deletion makes the calls that release all entries, and no others. -/
theorem delete_spec {t : Hashtable P κ} (bounded : t.stash.Bounded) (managed : env.Managed t.pool t.names) :
    Meets (t.delete env) (fun t' => (t'.calls : Multiset (Call P κ)) = t.account env) fun _ => False := by
  unfold Hashtable.delete
  have start : Deleting env t (fun slot => ∃ i < 0, slot = .table i) t := by
    refine ⟨rfl, rfl, bounded, fun handler name member => managed.own_name handler member, ?_, rfl⟩
    rintro slot entry ⟨i, below, -⟩
    exact absurd below (Nat.not_lt_zero i)
  refine (Meets.forUpTo (fun index s => Deleting env t (fun slot => ∃ i < index, slot = .table i) s) start
    fun index inside s state => (deleteSlot_step (show t.Within (.table index) from inside) state).imp
      fun s' next => next.weaken ?_).bind fun s tables => ?_
  · rintro slot ⟨i, below, rfl⟩
    rcases Nat.lt_succ_iff_lt_or_eq.mp below with earlier | rfl
    · exact .inr ⟨i, earlier, rfl⟩
    · exact .inl rfl
  have start : Deleting env t (fun slot => (∃ i < 2 ^ t.lgSize, slot = .table i) ∨ ∃ i < 0, slot = .stash i) s := by
    refine tables.weaken ?_
    rintro slot (table | ⟨i, below, -⟩)
    · exact table
    · exact absurd below (Nat.not_lt_zero i)
  refine (Meets.forUpTo (fun index s => Deleting env t (fun slot =>
    (∃ i < 2 ^ t.lgSize, slot = .table i) ∨ ∃ i < index, slot = .stash i) s) start
    fun index inside s' state => (deleteSlot_step (show t.Within (.stash index) from ?_) state).imp
      fun s'' next => next.weaken ?_).bind fun s' all => ?_
  · rw [tables.extent_eq] at inside
    exact Nat.lt_of_lt_of_le inside bounded.extent_le
  · rintro slot (table | ⟨i, below, rfl⟩)
    · exact .inr (.inl table)
    · rcases Nat.lt_succ_iff_lt_or_eq.mp below with earlier | rfl
      · exact .inr (.inr ⟨i, earlier, rfl⟩)
      · exact .inl rfl
  · have settled : s'.dues env = 0 := by
      refine Multiset.eq_zero_of_forall_notMem fun call owed => ?_
      obtain ⟨entry, member, due⟩ := Multiset.mem_bind.mp owed
      obtain ⟨slot, within, stored⟩ := Hashtable.mem_entries.mp member
      have done : entry.dues env = 0 := by
        refine all.settled slot entry ?_ stored
        cases slot with
        | table pos => exact .inl ⟨pos, by simpa only [Hashtable.Within, all.lgSize_eq] using within, rfl⟩
        | stash index =>
            refine .inr ⟨index, ?_, rfl⟩
            obtain ⟨name, named, -⟩ := Hashtable.item_of_entryAt stored
            by_contra beyond
            rw [tables.extent_eq, ← all.extent_eq] at beyond
            cases (all.bounded.above index (Nat.le_of_not_lt beyond)).symm.trans named
      rw [done] at due
      exact Multiset.notMem_zero call due
    rw [← all.account_eq, Hashtable.account, settled, add_zero]
    rfl

end Coucal
