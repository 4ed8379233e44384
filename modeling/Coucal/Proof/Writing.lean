import Coucal.Proof.Reshuffle
import Coucal.Proof.Updates

namespace Coucal

open Outcome

variable {P : Platform} {κ : Type} {env : Env P κ}

/-- Items in the same places with the same hashes block the same entries. -/
theorem Alike.blocked {t t' : Hashtable P κ} (alike : Alike t t') {i : Nat}
    (before : (t.stash.items i).name ≠ none → Blocked t.lgSize t.items (t.stash.items i))
    (named : (t'.stash.items i).name ≠ none) : Blocked t'.lgSize t'.items (t'.stash.items i) := by
  obtain ⟨free, hashes⟩ := alike.stash i
  have occupied := (not_congr free).mp named
  have blocked := before occupied
  unfold Blocked
  rw [hashes occupied, alike.lgSize_eq]
  exact ⟨(not_congr (alike.table _ (hashToPos_lt _ _)).1).mpr blocked.1,
    (not_congr (alike.table _ (hashToPos_lt _ _)).1).mpr blocked.2⟩

/-- A table with the same live items in the same pool has the same entries. -/
theorem entries_of_live {t t' : Hashtable P κ} (live : t'.live = t.live) (pool : t'.pool = t.pool) :
    t'.entries = t.entries := by
  unfold Hashtable.entries
  rw [live, pool]

theorem names_of_live {t t' : Hashtable P κ} (live : t'.live = t.live) : t'.names = t.names := by
  unfold Hashtable.names
  rw [live]

/-- The powers of two around half of a table. -/
theorem pow_half {lgSize : Nat} (lower : minLgSize ≤ lgSize) :
    2 ^ lgSize = 2 ^ (lgSize - 1) * 2 ∧ 2 ^ (lgSize + 1) = 2 ^ (lgSize - 1) * 4 ∧
      8 ≤ 2 ^ (lgSize - 1) := by
  have double := doubled_half ((by decide : 1 ≤ minLgSize).trans lower)
  have least : 2 ^ (minLgSize - 1) ≤ 2 ^ (lgSize - 1) :=
    Nat.pow_le_pow_right Nat.two_pos (Nat.sub_le_sub_right lower 1)
  refine ⟨double.symm, ?_, least⟩
  rw [Nat.pow_succ, ← double, Nat.mul_assoc]

/-- A table is ready for a new item when the stash is drained and the key is duplicated. -/
structure Ready (env : Env P κ) (t : Hashtable P κ) (name copy : Name κ) (s : Hashtable P κ) : Prop where
  lgSize_eq : s.lgSize = t.lgSize
  used_eq : s.used = t.used
  placed : Placed s.lgSize s.items
  stash : s.stash.Ok
  blocked : ∀ i, (s.stash.items i).name ≠ none → Blocked s.lgSize s.items (s.stash.items i)
  entries_eq : s.entries = t.entries
  managed : env.Managed s.pool (copy ::ₘ s.names)
  copies : env.Copies (t.key name) (s.key copy)
  calls_eq : s.calls = if env.dup.isNone then t.calls else .dup (t.key name) (some (s.key copy)) :: t.calls
  capacity : env.dup = none → ∀ text, t.key name = .string text → Room t text s.pool.capacity
  spent : Spent t s

/-- The stash is drained when it has entries. -/
theorem drain_spec {t : Hashtable P κ} (placed : Placed t.lgSize t.items) (stash : t.stash.Ok) :
    Drained t (if t.stash.size ≠ 0 then t.drainStash else t) := by
  split
  next => exact drainStash_spec placed stash
  next empty =>
    have empty : t.stash.size = 0 := by simpa using empty
    exact ⟨rfl, placed, Fills.refl _, rfl, stash, fun i named => absurd (stash.free_of_size empty i) named⟩

theorem ready_spec {t : Hashtable P κ} {name : Name κ} (granted : t.Grants env name) (inv : Inv env t)
    (readable : t.Readable name) :
    Meets ((if t.stash.size ≠ 0 then t.drainStash else t).dupName env name)
      (fun result => ∃ copy, result.1 = some copy ∧ Ready env t name copy result.2)
      fun error => env.dup = none ∧ DupError env t name error := by
  have drained := drain_spec inv.placed inv.stash
  generalize (if t.stash.size ≠ 0 then t.drainStash else t) = d at drained
  have pool : d.pool = t.pool := by rw [drained.frame]
  have lgSize : d.lgSize = t.lgSize := by rw [drained.frame]
  have used : d.used = t.used := by rw [drained.frame]
  have calls : d.calls = t.calls := by rw [drained.frame]
  have allocs : d.allocs = t.allocs := by rw [drained.frame]
  have key : d.key name = t.key name := by rw [Hashtable.key, pool]; rfl
  have held : d.Readable name := by
    cases name with
    | own | emptyString => trivial
    | pooled => rw [Hashtable.Readable, pool]; exact readable
  have managed : env.Managed d.pool d.names := by
    rw [pool, names_of_live drained.live]
    exact inv.managed
  have asked : d.Grants env name := by
    unfold Hashtable.Grants
    rw [calls, key]
    exact granted
  refine (dupName_spec asked drained.stashOk.toBounded managed held).mono ?_ ?_
  · rintro ⟨_, s⟩ ⟨copy, rfl, duplicated⟩
    have alike := duplicated.repooled.alike
    refine ⟨copy, rfl, alike.lgSize_eq.trans lgSize, duplicated.repooled.used_eq.trans used,
      alike.placed (lgSize.symm ▸ drained.placed), alike.stashOk drained.stashOk,
      fun i => alike.blocked (lgSize.symm ▸ drained.blocked i), ?_, duplicated.managed, ?_, ?_, ?_,
      duplicated.spent.from_eq allocs⟩
    · exact duplicated.repooled.entries_eq.trans (entries_of_live drained.live pool)
    · rw [← key]
      exact duplicated.copies
    · rw [← key, ← calls]
      exact duplicated.calls_eq
    · intro handler text same
      have room := duplicated.capacity handler text (key.trans same)
      unfold Room at room ⊢
      rw [pool] at room
      exact room
  · rintro error ⟨handler, failed⟩
    exact ⟨handler, failed.of_eq key pool allocs⟩

/-- The table of a ready insertion is less than half full. -/
theorem Ready.halfFree {t s : Hashtable P κ} {name copy : Name κ} (ready : Ready env t name copy s)
    (inv : Inv env t) : HalfFree s.lgSize s.items := by
  have half := inv.half
  obtain ⟨double, -, -⟩ := pow_half inv.lgSize_ge
  have count : s.live.card = t.used := by
    rw [← s.card_entries, ready.entries_eq, t.card_entries, inv.used_eq]
  unfold Hashtable.live at count
  rw [Multiset.card_add] at count
  unfold HalfFree
  have lgSize := ready.lgSize_eq
  rw [lgSize] at count ⊢
  omega

/-- The doubling with the merge of the stash keeps the items. -/
structure Doubled (t t' : Hashtable P κ) : Prop where
  frame : t' = { t with
    lgSize := t.lgSize + 1
    items := t'.items
    stash := t'.stash
    allocs := t'.allocs }
  placed : Placed t'.lgSize t'.items
  stash : t'.stash.Ok
  live : t'.live = t.live
  blocked : ∀ i, (t'.stash.items i).name ≠ none → Blocked t'.lgSize t'.items (t'.stash.items i)

theorem double_spec {t : Hashtable P κ} (positive : 0 < t.lgSize) (placed : Placed t.lgSize t.items)
    (stash : t.stash.Ok) (half : 2 * t.live.card + 2 ≤ 2 ^ (t.lgSize + 1)) :
    Meets (t.expand env >>= Hashtable.mergeStash) (Doubled t) (ExpandError env t) := by
  refine (expand_spec positive placed).bind fun s expanded => ?_
  have frame := expanded.frame
  have lgSize : s.lgSize = t.lgSize + 1 := by rw [frame]
  have same : s.stash = t.stash := by rw [frame]
  have live : s.live = t.live := by
    unfold Hashtable.live
    rw [lgSize, expanded.live, same]
  refine (mergeStash_spec (lgSize.symm ▸ expanded.placed) (same.symm ▸ stash)).mono ?_ fun _ => False.elim
  rintro t' ⟨merged, blocked⟩
  have lgSize' : t'.lgSize = s.lgSize := by rw [merged.frame]
  refine ⟨?_, lgSize'.symm ▸ merged.placed, merged.stashOk, merged.live.trans live, ?_⟩
  · conv_lhs => rw [merged.frame, frame]
    rw [merged.frame, frame]
  · intro i named
    rw [lgSize']
    exact blocked (by rw [live, lgSize]; exact half) i named

/-- The item of a new entry. -/
def Hashtable.newItem (env : Env P κ) (t : Hashtable P κ) (name copy : Name κ) (value : Value P) : Item P κ :=
  ⟨some copy, value, t.calcHashes env name⟩

/-- A new item joins a ready table. -/
structure Joined (env : Env P κ) (t : Hashtable P κ) (name : Name κ) (value : Value P)
    (t' : Hashtable P κ) : Prop where
  lgSize_eq : t'.lgSize = t.lgSize
  used_eq : t'.used = t.used
  placed : Placed t'.lgSize t'.items
  stash : t'.stash.Ok
  blocked : ∀ i, (t'.stash.items i).name ≠ none → Blocked t'.lgSize t'.items (t'.stash.items i)
  managed : env.Managed t'.pool t'.names
  capacity : env.dup = none → ∀ text, t.key name = .string text → Room t text t'.pool.capacity
  copied : ∃ copy, env.Copies (t.key name) copy ∧
    t'.entries = ⟨copy, value, t.calcHashes env name⟩ ::ₘ t.entries ∧
    t'.calls = if env.dup.isNone then t.calls else .dup (t.key name) (some copy) :: t.calls
  spent : Spent t t'

theorem Ready.joined {t s t' : Hashtable P κ} {name copy : Name κ} {value : Value P}
    (ready : Ready env t name copy s) (inv : Inv env t) (added : Added s (t.newItem env name copy value) t') :
    Joined env t name value t' := by
  have lgSize := added.lgSize_eq
  have pool : t'.pool = s.pool := by rw [added.frame]
  have names : t'.names = copy ::ₘ s.names := by
    unfold Hashtable.names
    rw [added.live]
    exact Multiset.filterMap_cons_some Item.name _ _ rfl
  have entries : t'.entries = ⟨s.key copy, value, t.calcHashes env name⟩ ::ₘ s.entries := by
    unfold Hashtable.entries
    rw [added.live, pool]
    exact Multiset.filterMap_cons_some (Item.entry s.pool) _ _ rfl
  refine ⟨lgSize.trans ready.lgSize_eq, ?_, lgSize.symm ▸ added.placed, added.stashOk, ?_, ?_, ?_,
    ⟨s.key copy, ready.copies, ?_, ?_⟩, ready.spent.of_eq (by rw [added.frame])⟩
  · rw [added.frame]
    exact ready.used_eq
  · rw [lgSize]
    exact added.blocked (ready.halfFree inv) ready.blocked
  · rw [pool, names]
    exact ready.managed
  · rw [pool]
    exact ready.capacity
  · rw [entries, ready.entries_eq]
  · rw [added.frame]
    exact ready.calls_eq

/-- The number of items after the new one fits in half of the doubled table. -/
theorem Joined.half {t s : Hashtable P κ} {name : Name κ} {value : Value P} (inv : Inv env t)
    (joined : Joined env t name value s) : 2 * s.live.card + 2 ≤ 2 ^ (s.lgSize + 1) := by
  have lower : minLgSize ≤ s.lgSize := joined.lgSize_eq.symm ▸ inv.lgSize_ge
  obtain ⟨double, quadruple, least⟩ := pow_half lower
  have used := inv.half
  rw [← joined.lgSize_eq] at used
  obtain ⟨copy, -, entries, -⟩ := joined.copied
  have total := congrArg Multiset.card entries
  rw [Multiset.card_cons, s.card_entries, t.card_entries, ← inv.used_eq] at total
  omega

/-- The calls that store a value at a located slot. -/
theorem writeLocal_found {t : Hashtable P κ} {name : Name κ} {value : Value P} {slot : Slot}
    (found : t.locate env name (t.calcHashes env name) = some slot) :
    t.writeValue_ env name value = .ok (false, { t.setValue slot value with
      calls := env.releases (t.item slot).value ++ t.calls }) := by
  unfold Hashtable.writeValue_
  dsimp only
  rw [found]
  dsimp only
  rw [Hashtable.delValue_eq]
  cases slot <;> simp [Hashtable.setValue, Hashtable.setItem, Hashtable.item]

/-- A write on a located slot stores its value. -/
theorem writeValue_found {t : Hashtable P κ} {name : Name κ} {value : Value P} {slot : Slot}
    (found : t.locate env name (t.calcHashes env name) = some slot) :
    t.writeValue env name value = .ok (false, { t.setValue slot value with
      calls := env.releases (t.item slot).value ++ t.calls }) := by
  unfold Hashtable.writeValue
  rw [writeLocal_found found, ok_bind]
  rfl

theorem writeLocal_added {t : Hashtable P κ} {name : Name κ} {value : Value P} (granted : t.Grants env name)
    (inv : Inv env t) (readable : t.Readable name)
    (missing : t.locate env name (t.calcHashes env name) = none) :
    Meets (t.writeValue_ env name value)
      (fun result => result.1 = true ∧ Joined env t name value result.2)
      fun error => env.dup = none ∧ DupError env t name error ∨ error = .assertion .stashCollision := by
  unfold Hashtable.writeValue_
  dsimp only
  rw [missing]
  refine ((ready_spec granted inv readable).mono (fun _ => id) fun _ => .inl).bind ?_
  rintro ⟨_, s⟩ ⟨copy, rfl, ready⟩
  refine (addItem_spec ready.placed ready.stash (Option.some_ne_none copy)).mono ?_
    fun error full => .inr full.1
  rintro ⟨flag, t'⟩ ⟨rfl, added⟩
  exact ⟨rfl, ready.joined inv added⟩

/-- A write that adds an entry keeps the invariant and leaves no stash entry with a free slot. -/
structure Inserted (env : Env P κ) (t : Hashtable P κ) (name : Name κ) (value : Value P)
    (t' : Hashtable P κ) : Prop where
  inv : Inv env t'
  lgSize_le : t'.lgSize ≤ t.lgSize + 1
  blocked : ∀ i, (t'.stash.items i).name ≠ none → Blocked t'.lgSize t'.items (t'.stash.items i)
  capacity : env.dup = none → ∀ text, t.key name = .string text → Room t text t'.pool.capacity
  copied : ∃ copy, env.Copies (t.key name) copy ∧
    t'.entries = ⟨copy, value, t.calcHashes env name⟩ ::ₘ t.entries ∧
    t'.calls = if env.dup.isNone then t.calls else .dup (t.key name) (some copy) :: t.calls

/-- An insertion counts one entry more. -/
theorem Inserted.used_eq {t t' : Hashtable P κ} {name : Name κ} {value : Value P} (inv : Inv env t)
    (effect : Inserted env t name value t') : t'.used = t.used + 1 := by
  obtain ⟨copy, -, entries, -⟩ := effect.copied
  have count := congrArg Multiset.card entries
  rwa [Multiset.card_cons, t'.card_entries, t.card_entries, ← inv.used_eq, ← effect.inv.used_eq] at count

/-- A table with the items of a joined one, one more in the count and enough room is an insertion. -/
theorem Joined.inserted {t s t' : Hashtable P κ} {name : Name κ} {value : Value P}
    (joined : Joined env t name value s) (inv : Inv env t) (lgSize : s.lgSize ≤ t'.lgSize)
    (lgSize' : t'.lgSize ≤ s.lgSize + 1)
    (live : t'.live = s.live) (pool : t'.pool = s.pool) (calls : t'.calls = s.calls)
    (used : t'.used = s.used + 1) (half : t'.used < 2 ^ (t'.lgSize - 1)) (placed : Placed t'.lgSize t'.items)
    (stash : t'.stash.Ok)
    (blocked : ∀ i, (t'.stash.items i).name ≠ none → Blocked t'.lgSize t'.items (t'.stash.items i))
    (missing : t.locate env name (t.calcHashes env name) = none) : Inserted env t name value t' := by
  obtain ⟨copy, copies, entries, called⟩ := joined.copied
  have entries' : t'.entries = ⟨copy, value, t.calcHashes env name⟩ ::ₘ t.entries :=
    (entries_of_live live pool).trans entries
  have count := congrArg Multiset.card entries'
  rw [Multiset.card_cons, t'.card_entries, t.card_entries, ← inv.used_eq] at count
  refine ⟨⟨?_, placed, stash, ?_, half, ?_, ?_⟩, joined.lgSize_eq ▸ lgSize', blocked, pool.symm ▸ joined.capacity,
    copy, copies, entries', calls.trans called⟩
  · exact inv.lgSize_ge.trans (joined.lgSize_eq ▸ lgSize)
  · rw [used, joined.used_eq, count]
  · rw [pool, names_of_live live]
    exact joined.managed
  · rw [entries']
    exact inv.keyed.insert copies (Hashtable.locate_none inv.placed inv.stash missing)

/-- The two outcomes of a write: the located entry has the new value, or a new entry is there. -/
inductive WriteOutcome (env : Env P κ) (t : Hashtable P κ) (name : Name κ) (value : Value P) :
    Bool → Hashtable P κ → Prop where
  | replaced {slot : Slot} {entry : Entry P κ}
      (found : t.locate env name (t.calcHashes env name) = some slot)
      (stored : t.entryAt slot = some entry) :
      WriteOutcome env t name value false { t.setValue slot value with
        calls := env.releases entry.value ++ t.calls }
  | added {t' : Hashtable P κ} (missing : t.locate env name (t.calcHashes env name) = none)
      (effect : Inserted env t name value t') : WriteOutcome env t name value true t'

/-- The errors of a write: the duplication of its key, a full stash at its own insertion, a size limit of the
table, or no memory for the doubled one. -/
inductive WriteError (env : Env P κ) (t : Hashtable P κ) (name : Name κ) (value : Value P) : Failure → Prop where
  | duplication {error : Failure} (pool : env.dup = none) (failed : DupError env t name error) :
      WriteError env t name value error
  | stashCollision (own : t.writeValue_ env name value = .error (.assertion .stashCollision)) :
      WriteError env t name value (.assertion .stashCollision)
  | acceptablePow2 (limit : ¬ isAcceptablePow2 P (t.lgSize + 1)) :
      WriteError env t name value (.assertion .acceptablePow2)
  | sizeOverflow (limit : (2 ^ P.wordSize - 1) / (2 * P.itemSize) < 2 ^ t.lgSize) :
      WriteError env t name value (.assertion .sizeOverflow)
  | tableMemory (short : t.ShortOfMemory env) : WriteError env t name value (.assertion .tableMemory)

theorem writeValue_spec {t : Hashtable P κ} {name : Name κ} {value : Value P}
    (granted : t.locate env name (t.calcHashes env name) = none → t.Grants env name) (inv : Inv env t)
    (readable : t.Readable name) :
    Meets (t.writeValue env name value) (fun result => WriteOutcome env t name value result.1 result.2)
      (WriteError env t name value) := by
  cases located : t.locate env name (t.calcHashes env name) with
  | some slot =>
      obtain ⟨inside, entry, stored, -⟩ := Hashtable.locate_some inv.stash.toBounded located
      obtain ⟨-, -, -, same, -⟩ := Hashtable.item_of_entryAt stored
      rw [writeValue_found located, same]
      exact .replaced located stored
  | none =>
      unfold Hashtable.writeValue
      refine ((writeLocal_added (granted located) inv readable located).self.mono (fun _ => And.left) ?_).bind ?_
      · rintro error ⟨⟨pool, failed⟩ | rfl, run⟩
        · exact .duplication pool failed
        · exact .stashCollision run
      rintro ⟨_, s⟩ ⟨rfl, joined⟩
      change Joined env t name value s at joined
      have lower : minLgSize ≤ s.lgSize := joined.lgSize_eq.symm ▸ inv.lgSize_ge
      obtain ⟨double, quadruple, least⟩ := pow_half lower
      have used := inv.half
      rw [← joined.used_eq, ← joined.lgSize_eq] at used
      let t' : Hashtable P κ := { s with used := s.used + 1 }
      change Meets (if 2 ^ (t'.lgSize - 1) ≤ t'.used ∨ stashSize / 2 ≤ t'.stash.size then
        t'.expand env >>= fun t => t.mergeStash >>= fun t => .ok (true, t) else .ok (true, t')) _ _
      split
      next full =>
        have half := joined.half inv
        rw [← bind_assoc]
        refine ((double_spec (t := t') (Nat.lt_of_lt_of_le (by decide) lower) joined.placed joined.stash
          half).mono (fun _ => id) ?_).bind ?_
        · have lgSize : t'.lgSize = t.lgSize := joined.lgSize_eq
          intro error failed
          cases failed with
          | acceptablePow2 limit => exact .acceptablePow2 (lgSize ▸ limit)
          | sizeOverflow limit => exact .sizeOverflow (lgSize ▸ limit)
          | tableMemory null => exact .tableMemory (joined.spent.short null)
        intro d doubled
        have frame := doubled.frame
        have lgSize : d.lgSize = s.lgSize + 1 := by rw [frame]
        have used' : d.used = s.used + 1 := by rw [frame]
        refine .added located (joined.inserted inv (lgSize ▸ Nat.le_succ _) (Nat.le_of_eq lgSize) doubled.live
          (by rw [frame]) (by rw [frame]) used' ?_ doubled.placed doubled.stash doubled.blocked located)
        rw [used', lgSize, Nat.add_sub_cancel]
        omega
      next small =>
        refine .added located (joined.inserted inv (Nat.le_refl _) (Nat.le_succ _) rfl rfl rfl rfl ?_ joined.placed
          joined.stash joined.blocked located)
        change s.used + 1 < 2 ^ (s.lgSize - 1)
        have below : ¬ 2 ^ (s.lgSize - 1) ≤ s.used + 1 := fun full => small (.inl full)
        omega

/-- A write that returns has one of the two outcomes. -/
theorem writeValue_outcome {t t' : Hashtable P κ} {name : Name κ} {value : Value P} {added : Bool}
    (returns : env.DupReturns) (inv : Inv env t) (readable : t.Readable name)
    (returned : t.writeValue env name value = .ok (added, t')) : WriteOutcome env t name value added t' :=
  (writeValue_spec (fun _ => returns.grants t name) inv readable).of_ok returned

end Coucal
