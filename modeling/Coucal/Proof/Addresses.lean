import Coucal.Proof.Calls

namespace Coucal

open Outcome

variable {P : Platform} {κ : Type} {env : Env P κ} {escape : Prop}

namespace Item.Alike

variable {item item' item'' : Item P κ}

theorem refl (item : Item P κ) : item.Alike item := ⟨Iff.rfl, fun _ => rfl⟩

theorem symm (alike : item.Alike item') : item'.Alike item :=
  ⟨alike.1.symm, fun named => (alike.2 (mt alike.1.mpr named)).symm⟩

theorem trans (first : item.Alike item') (second : item'.Alike item'') : item.Alike item'' :=
  ⟨second.1.trans first.1, fun named =>
    (second.2 (mt first.1.mp named)).trans (first.2 named)⟩

theorem isNone_eq (alike : item.Alike item') : item'.name.isNone = item.name.isNone := by
  rw [Bool.eq_iff_iff, Option.isNone_iff_eq_none, Option.isNone_iff_eq_none]
  exact alike.1

/-- Items with names and the same hashes are alike. -/
theorem of_named {copy copy' : Option (Name κ)} {value value' : Value P} {hashes : Hashkeys P}
    (named : copy ≠ none) (named' : copy' ≠ none) :
    Item.Alike (⟨copy, value, hashes⟩ : Item P κ) ⟨copy', value', hashes⟩ :=
  ⟨⟨fun free => absurd free named', fun free => absurd free named⟩, fun _ => rfl⟩

theorem update {items items' : Nat → Item P κ} {i : Nat} (old : (items i).Alike (items' i))
    (new : item.Alike item') (pos : Nat) :
    (Function.update items pos item i).Alike (Function.update items' pos item' i) := by
  by_cases same : i = pos
  · rw [same, Function.update_self, Function.update_self]
    exact new
  · rw [Function.update_of_ne same, Function.update_of_ne same]
    exact old

end Item.Alike

/-- Two tables that differ in the names and the values of their items, in the pool and in the number of
allocations only. -/
structure Twins (t t' : Hashtable P κ) : Prop extends Alike t t' where
  used_eq : t'.used = t.used

theorem Twins.symm {t t' : Hashtable P κ} (twins : Twins t t') : Twins t' t where
  lgSize_eq := twins.lgSize_eq.symm
  size_eq := twins.size_eq.symm
  extent_eq := twins.extent_eq.symm
  table i inside := (twins.table i (twins.lgSize_eq ▸ inside)).symm
  stash i := (twins.stash i).symm
  used_eq := twins.used_eq.symm

theorem Twins.trans {t t' t'' : Hashtable P κ} (first : Twins t t') (second : Twins t' t'') : Twins t t'' where
  lgSize_eq := second.lgSize_eq.trans first.lgSize_eq
  size_eq := second.size_eq.trans first.size_eq
  extent_eq := second.extent_eq.trans first.extent_eq
  table i inside := (first.table i inside).trans (second.table i (first.lgSize_eq ▸ inside))
  stash i := (first.stash i).trans (second.stash i)
  used_eq := second.used_eq.trans first.used_eq

theorem Repooled.twins {t t' : Hashtable P κ} (repooled : Repooled t t') : Twins t t' :=
  ⟨repooled.alike, repooled.used_eq⟩

theorem Twins.hashToPos_eq {t t' : Hashtable P κ} (twins : Twins t t') (hash : Hashkey P) :
    t'.hashToPos hash = t.hashToPos hash := by
  rw [Hashtable.hashToPos, Hashtable.hashToPos, twins.lgSize_eq]

/-- The eviction loop looks at the hashes only. -/
theorem evict_agrees {lgSize : Nat} {initial hash : Hashkey P} (loops : Nat) {items items' : Nat → Item P κ}
    {item item' : Item P κ} (alike : ∀ i < 2 ^ lgSize, (items i).Alike (items' i)) (new : item.Alike item') :
    Agrees escape (fun result result' => (∀ i < 2 ^ lgSize, (result.1 i).Alike (result'.1 i)) ∧
        Option.Rel Item.Alike result.2 result'.2)
      (evict lgSize initial loops items item hash) (evict lgSize initial loops items' item' hash) := by
  induction loops generalizing items items' item item' hash with
  | zero => exact ⟨alike, .some new⟩
  | succ loops ih =>
      have kicked := alike _ (hashToPos_lt lgSize hash)
      have placed : ∀ i < 2 ^ lgSize, (Function.update items (hashToPos_ lgSize hash) item i).Alike
          (Function.update items' (hashToPos_ lgSize hash) item' i) :=
        fun i inside => (alike i inside).update new _
      by_cases free : (items (hashToPos_ lgSize hash)).name = none
      · rw [evict_free free, evict_free (kicked.1.mpr free)]
        exact ⟨placed, .none⟩
      · have hashes := kicked.2 free
        have next : nextHash lgSize (items' (hashToPos_ lgSize hash)) (hashToPos_ lgSize hash) =
            nextHash lgSize (items (hashToPos_ lgSize hash)) (hashToPos_ lgSize hash) := by
          rw [nextHash, nextHash, hashes]
        rw [evict_kicks free, evict_kicks (mt kicked.1.mp free)]
        dsimp only
        rw [next, hashes]
        split
        next =>
          split
          next => exact ⟨placed, .some kicked⟩
          next => exact ih placed kicked
        next => exact .inl rfl

theorem firstHole_congr {stash stash' : Stash P κ} (extent : stash'.extent = stash.extent)
    (alike : ∀ i, (stash.items i).Alike (stash'.items i)) : stash'.firstHole = stash.firstHole := by
  unfold Stash.firstHole
  rw [extent, funext fun i => (alike i).isNone_eq]

theorem addItem_agrees {t t' : Hashtable P κ} {item item' : Item P κ} (twins : Twins t t')
    (new : item.Alike item') (hashes : item'.hashes = item.hashes) :
    Agrees escape (fun result result' => result.1 = result'.1 ∧ Twins result.2 result'.2 ∧
        result.2.allocs = t.allocs ∧ result'.2.allocs = t'.allocs)
      (t.addItem_ item) (t'.addItem_ item') := by
  have fill (pos : Nat) : Twins { t with items := Function.update t.items pos item }
      { t' with items := Function.update t'.items pos item' } :=
    { twins with table := fun i inside => (twins.table i inside).update new pos }
  have free (hash : Hashkey P) : t'.isFree (t.hashToPos hash) = t.isFree (t.hashToPos hash) :=
    (twins.table _ (hashToPos_lt _ _)).isNone_eq
  have evicted : Agrees escape (fun result result' =>
      (∀ i < 2 ^ t.lgSize, (result.1 i).Alike (result'.1 i)) ∧ Option.Rel Item.Alike result.2 result'.2)
      (evict t.lgSize item.hashes.hash1 (2 ^ t.lgSize) t.items item item.hashes.hash1)
      (evict t'.lgSize item.hashes.hash1 (2 ^ t'.lgSize) t'.items item' item.hashes.hash1) := by
    rw [twins.lgSize_eq]
    exact evict_agrees _ twins.table new
  unfold Hashtable.addItem_
  dsimp only
  rw [hashes, twins.hashToPos_eq, twins.hashToPos_eq, free, free]
  split
  next => exact ⟨rfl, fill _, rfl, rfl⟩
  next =>
    split
    next => exact ⟨rfl, fill _, rfl, rfl⟩
    next =>
      refine evicted.bind ?_
      rintro ⟨items, left⟩ ⟨items', left'⟩ ⟨table, kept⟩
      cases kept with
      | none => exact ⟨rfl, { twins with table }, rfl, rfl⟩
      | some kept =>
          refine Agrees.guard (by rw [twins.size_eq]) fun _ => ⟨rfl, ?_, rfl, rfl⟩
          have hole := firstHole_congr twins.extent_eq twins.stash
          refine { twins with
            table, size_eq := congrArg (· + 1) twins.size_eq, extent_eq := ?_, stash := fun i => ?_ }
          · simp only [Stash.insert, hole, twins.extent_eq]
          · simp only [Stash.insert, hole]
            exact (twins.stash i).update kept _

/-- A pass of the relocation loop looks at the hashes only. -/
theorem splitSlot_agrees {t t' : Hashtable P κ} {prevPower prevSize index : Nat} (twins : Twins t t')
    (inside : index < 2 ^ t.lgSize) :
    Agrees escape (fun s s' => Twins s s' ∧ s.lgSize = t.lgSize)
      (Hashtable.splitSlot prevPower prevSize index t) (Hashtable.splitSlot prevPower prevSize index t') := by
  have alike := twins.table index inside
  have move (pos : Nat) : Agrees escape (fun s s' => Twins s s' ∧ s.lgSize = t.lgSize)
      (Hashtable.moveSlot prevSize index pos t) (Hashtable.moveSlot prevSize index pos t') := by
    unfold Hashtable.moveSlot
    split
    next =>
      refine Agrees.guard Iff.rfl fun _ => ⟨{ twins with table := fun i below => ?_ }, rfl⟩
      exact ((twins.table i below).update alike pos).update (.refl _) index
    next => exact ⟨twins, rfl⟩
  unfold Hashtable.splitSlot
  dsimp only
  rw [show t'.isFree index = t.isFree index from alike.isNone_eq]
  split
  next => exact ⟨twins, rfl⟩
  next occupied =>
    rw [alike.2 (by simpa [Hashtable.isFree] using occupied), twins.hashToPos_eq, twins.hashToPos_eq]
    split
    next => exact move _
    next =>
      split
      next => exact move _
      next => exact .inl rfl

/-- Two pools with the same number of bytes below and above the watermark, wherever they lie. -/
structure SameRoom (pool pool' : Pool) : Prop where
  size_eq : pool'.size = pool.size
  capacity_eq : pool'.capacity = pool.capacity
  length_eq : pool'.bytes.length = pool.bytes.length

theorem SameRoom.refl (pool : Pool) : SameRoom pool pool := ⟨rfl, rfl, rfl⟩

/-- A growth after one more allocation makes the same room. -/
theorem reallocPool_agrees {t : Hashtable P κ} {capacity : Nat} (managed : env.dup = none)
    (stash : t.stash.Bounded) (ok : t.pool.Ok t.names) (fits : t.pool.size ≤ capacity) :
    Agrees (t.ShortOfMemory env) (fun s s' => SameRoom s.pool s'.pool ∧ Spent t s ∧ Spent t s')
      (Hashtable.reallocPool env { t with allocs := t.allocs + 1 } capacity) (t.reallocPool env capacity) := by
  let staged : Hashtable P κ := { t with allocs := t.allocs + 1 }
  have later : Spent t staged := ⟨Nat.le_succ _, Nat.le_succ _⟩
  refine .of_meets (reallocPool_spec (t := staged) managed stash ok fits).self
    (reallocPool_spec managed stash ok fits).self (fun _ null => later.short null.1.2)
    (fun _ null => (Spent.refl t).short null.1.2) ?_
  rintro s s' ⟨resized, returned⟩ ⟨resized', returned'⟩
  obtain ⟨allocs, size⟩ := reallocPool_room (t := staged) managed stash ok fits returned
  obtain ⟨allocs', size'⟩ := reallocPool_room managed stash ok fits returned'
  have capacity := resized'.capacity_eq.trans resized.capacity_eq.symm
  change s.allocs = t.allocs + 1 + 1 at allocs
  refine ⟨⟨size'.trans size.symm, capacity, ?_⟩, ⟨by omega, by omega⟩, by omega, by omega⟩
  rw [resized.ok.length_eq, resized'.ok.length_eq, capacity]

/-- The duplications of a text from two names have the same room for it. -/
structure Staged (t : Hashtable P κ) (text : CString) (result result' : Name κ × Hashtable P κ) : Prop where
  key : result.2.key result.1 = .string text
  key' : result'.2.key result'.1 = .string text
  room : SameRoom result.2.pool result'.2.pool
  spent : Spent t result.2
  spent' : Spent t result'.2

/-- A growth with a staged key makes the same room as one with a private copy. -/
theorem growPool_agrees {t : Hashtable P κ} {name : Name κ} {text : CString} (managed : env.dup = none)
    (stash : t.stash.Bounded) (ok : t.pool.Ok t.names) (pooled : t.isPooled name = true) :
    Agrees (t.ShortOfMemory env) (Staged t text) (t.growPool env name text)
      (t.growPool env (.own (.string text)) text) := by
  unfold Hashtable.growPool Hashtable.stageName
  rw [if_pos pooled, if_neg (by simp [Hashtable.isPooled])]
  have staging := malloc_spec env t .stagingMemory
  cases allocated : t.malloc env .stagingMemory with
  | error =>
      exact .of_escape ((Spent.refl t).short (staging.of_error allocated).2) fun _ _ returned => by cases returned
  | ok result =>
      obtain ⟨address, s⟩ := result
      obtain ⟨-, same⟩ := staging.of_ok allocated
      dsimp only at same
      subst same
      simp only [ok_bind]
      refine (Agrees.self _).bind ?_
      rintro capacity _ rfl
      refine Agrees.guard Iff.rfl fun grown => ?_
      refine (reallocPool_agrees managed stash ok (Nat.le_of_lt grown)).bind fun s s' grew => ?_
      exact ⟨rfl, rfl, grew.1, grew.2.1, grew.2.2⟩

/-- The duplication of a pointer to the pool succeeds when that of a private copy does. -/
theorem dupNameInternal_agrees {t : Hashtable P κ} {address : Nat} {text : CString} (managed : env.dup = none)
    (stash : t.stash.Bounded) (ok : t.pool.Ok t.names) (readable : t.Readable (.pooled address))
    (key : t.key (.pooled address) = .string text) :
    Agrees (t.ShortOfMemory env) (fun result result' => Spent t result.2 ∧ Spent t result'.2)
      (t.dupNameInternal env (.pooled address)) (t.dupNameInternal env (.own (.string text))) := by
  have staged : Agrees (t.ShortOfMemory env) (Staged t text) (t.makeRoom env (.pooled address) text)
      (t.makeRoom env (.own (.string text)) text) := by
    unfold Hashtable.makeRoom
    split
    next => exact growPool_agrees managed stash ok (isPooled_of_readable ok readable)
    next => exact ⟨key, rfl, .refl _, .refl _, .refl _⟩
  unfold Hashtable.dupNameInternal
  rw [key, show t.key (.own (.string text)) = .string text from rfl]
  dsimp only [Key.text]
  rw [ok_bind, ok_bind]
  split
  next => exact ⟨.refl _, .refl _⟩
  next =>
    refine Agrees.guard Iff.rfl fun _ => staged.bind ?_
    rintro ⟨name, s⟩ ⟨name', s'⟩ ⟨held, held', room, spent, spent'⟩
    dsimp only at held held' room ⊢
    refine Agrees.guard (by rw [room.size_eq, room.capacity_eq]) fun _ => ?_
    rw [held, held']
    simp only [ok_bind]
    unfold writeBytes
    rw [room.size_eq, room.length_eq]
    split
    next => exact ⟨spent, spent'⟩
    next => exact .inl rfl

/-- The duplication of a pointer to the pool and of a private copy leave twins. -/
theorem dupName_agrees {t : Hashtable P κ} {address : Nat} {text : CString} (managed : env.dup = none)
    (stash : t.stash.Bounded) (ok : t.pool.Ok t.names) (readable : t.Readable (.pooled address))
    (key : t.key (.pooled address) = .string text) :
    Agrees (t.ShortOfMemory env)
      (fun result result' => result.1 ≠ none ∧ result'.1 ≠ none ∧ Twins result.2 result'.2 ∧
        Spent t result.2 ∧ Spent t result'.2)
      (t.dupName env (.pooled address)) (t.dupName env (.own (.string text))) := by
  unfold Hashtable.dupName
  rw [managed]
  dsimp only
  refine ((dupNameInternal_agrees managed stash ok readable key).strengthen ?_).bind
    fun _ _ twins => ⟨Option.some_ne_none _, Option.some_ne_none _, twins⟩
  intro result result' returned returned' spent
  have own : t.Readable (.own (.string text)) := trivial
  have first := (dupNameInternal_spec managed stash ok readable).of_ok returned
  have second := (dupNameInternal_spec managed stash ok own).of_ok returned'
  exact ⟨first.repooled.twins.symm.trans second.repooled.twins, spent⟩

theorem expand_agrees {t t' : Hashtable P κ} (twins : Twins t t') (sized : 1 ≤ t.lgSize)
    (short : env.alloc t.allocs = 0 → escape) (short' : env.alloc t'.allocs = 0 → escape) :
    Agrees escape Twins (t.expand env) (t'.expand env) := by
  unfold Hashtable.expand
  dsimp only
  refine Agrees.guard (by rw [twins.lgSize_eq]) fun _ => ?_
  refine Agrees.guard (by rw [twins.lgSize_eq]) fun _ => ?_
  have allocated : Agrees escape (fun result result' =>
      result.2 = { t with lgSize := t.lgSize + 1, allocs := t.allocs + 1 } ∧
        result'.2 = { t' with lgSize := t'.lgSize + 1, allocs := t'.allocs + 1 })
      (Hashtable.malloc env { t with lgSize := t.lgSize + 1 } .tableMemory)
      (Hashtable.malloc env { t' with lgSize := t'.lgSize + 1 } .tableMemory) :=
    .of_meets (malloc_spec env _ _) (malloc_spec env _ _) (fun _ null => short null.2)
      (fun _ null => short' null.2) fun _ _ passed passed' => ⟨passed.2, passed'.2⟩
  refine allocated.bind ?_
  rintro ⟨_, _⟩ ⟨_, _⟩ ⟨rfl, rfl⟩
  dsimp only
  rw [twins.lgSize_eq]
  refine (Agrees.forUpTo (fun s s' => Twins s s' ∧ s.lgSize = t.lgSize + 1) ?_
    fun index below s s' current => ?_).strengthen fun _ _ _ _ both => both.1
  · refine ⟨{ twins with lgSize_eq := rfl, table := fun i inside => ?_ }, rfl⟩
    have lower := doubled_half sized
    dsimp only at inside ⊢
    split
    next => exact .refl _
    next outside =>
      refine twins.table i ?_
      rw [Nat.pow_succ] at inside
      omega
  · obtain ⟨twins, doubled⟩ := current
    refine (splitSlot_agrees twins ?_).strengthen fun _ _ _ _ both => ⟨both.1, both.2.trans doubled⟩
    rw [doubled]
    exact below.trans_le (doubled_half_le _)

theorem mergeStash_agrees {t t' : Hashtable P κ} (twins : Twins t t') :
    Agrees escape Twins t.mergeStash t'.mergeStash := by
  unfold Hashtable.mergeStash
  dsimp only
  rw [twins.size_eq, twins.extent_eq]
  split
  next =>
    have start : Twins { t with stash := { items := fun _ => Item.null P κ, size := 0, extent := 0 } }
        { t' with stash := { items := fun _ => Item.null P κ, size := 0, extent := 0 } } :=
      { twins with size_eq := rfl, extent_eq := rfl, stash := fun _ => .refl _ }
    refine (Agrees.forUpTo Twins start fun index _ s s' current => ?_).bind ?_
    · have saved := twins.stash index
      unfold Hashtable.mergeEntry
      rw [saved.isNone_eq]
      split
      next => exact current
      next occupied =>
        have hashes := saved.2 (by simpa using occupied)
        refine (addItem_agrees current saved hashes).bind ?_
        rintro ⟨_, u⟩ ⟨_, u'⟩ ⟨rfl, joined, -⟩
        exact Agrees.guard Iff.rfl fun _ => joined
    · intro s s' merged
      exact Agrees.guard (by rw [merged.size_eq]) fun _ => merged
  next => exact twins

/-- A search sees the content of its key only. -/
theorem locate_congr (env : Env P κ) {t : Hashtable P κ} {name name' : Name κ}
    (same : t.key name = t.key name') (hashes : Hashkeys P) :
    t.locate env name hashes = t.locate env name' hashes := by
  have equals (stored : Name κ) : t.equals env stored name = t.equals env stored name' := by
    rw [Hashtable.equals, same]
    rfl
  have matching (item : Item P κ) : t.matches_ env item name hashes = t.matches_ env item name' hashes := by
    simp only [Hashtable.matches_, equals]
  simp only [Hashtable.locate, matching]

theorem calcHashes_congr (env : Env P κ) {t : Hashtable P κ} {name name' : Name κ}
    (same : t.key name = t.key name') : t.calcHashes env name = t.calcHashes env name' := congrArg env.hash same

/-- The same answer, and the same keys with the same values. -/
def SameOutcome {α : Type} (result result' : α × Hashtable P κ) : Prop :=
  result.1 = result'.1 ∧ result.2.entries = result'.2.entries

/-- A function of the answer keeps the agreement. -/
theorem SameOutcome.answer {α β : Type} {result result' : Result (α × Hashtable P κ)}
    (agrees : Agrees escape SameOutcome result result') (f : α → β) :
    Agrees escape SameOutcome (result >>= fun (answer, t) => .ok (f answer, t))
      (result' >>= fun (answer, t) => .ok (f answer, t)) := by
  refine agrees.bind ?_
  rintro ⟨answer, s⟩ ⟨_, s'⟩ ⟨rfl, entries⟩
  exact ⟨rfl, entries⟩

/-- Insertions of equal keys into the pool add equal entries. -/
theorem Inserted.entries_congr {t s s' : Hashtable P κ} {name name' : Name κ} {value : Value P}
    (managed : env.dup = none) (same : t.key name = t.key name') (effect : Inserted env t name value s)
    (effect' : Inserted env t name' value s') : s.entries = s'.entries := by
  obtain ⟨copy, copies, entries, -⟩ := effect.copied
  obtain ⟨copy', copies', entries', -⟩ := effect'.copied
  unfold Env.Copies at copies copies'
  rw [managed] at copies copies'
  rw [entries, entries', copies.1, copies'.1, same, calcHashes_congr env same]

section Copy

variable {t : Hashtable P κ} {address : Nat} {text : CString}

/-- The addition of a pointer to the pool takes the way of that of a private copy, up to the doubling. -/
theorem writeLocal_agrees {value : Value P} (managed : env.dup = none) (inv : Inv env t)
    (readable : t.Readable (.pooled address)) (key : t.key (.pooled address) = .string text)
    (missing : t.locate env (.pooled address) (t.calcHashes env (.pooled address)) = none) :
    Agrees (t.ShortOfMemory env)
      (fun result result' => result.1 = result'.1 ∧ Twins result.2 result'.2 ∧
        Spent t result.2 ∧ Spent t result'.2)
      (t.writeValue_ env (.pooled address) value) (t.writeValue_ env (.own (.string text)) value) := by
  have same : t.key (.pooled address) = t.key (.own (.string text)) := key
  unfold Hashtable.writeValue_
  dsimp only
  rw [← calcHashes_congr env same, ← locate_congr env same, missing]
  dsimp only
  have drained := drain_spec inv.placed inv.stash
  generalize (if t.stash.size ≠ 0 then t.drainStash else t) = d at drained
  have pool : d.pool = t.pool := by rw [drained.frame]
  have allocs : d.allocs = t.allocs := by rw [drained.frame]
  have ok : d.pool.Ok d.names := by
    rw [pool, names_of_live drained.live]
    exact (Env.managed_pool managed).mp inv.managed
  have held : d.Readable (.pooled address) := by
    rw [Hashtable.Readable, pool]
    exact readable
  have content : d.key (.pooled address) = .string text := by
    rw [Hashtable.key, pool]
    exact key
  have duplicated := dupName_agrees managed drained.stashOk.toBounded ok held content
  unfold Hashtable.ShortOfMemory Spent at duplicated
  rw [allocs] at duplicated
  refine duplicated.bind ?_
  rintro ⟨copy, s⟩ ⟨copy', s'⟩ ⟨named, named', twins, spent, spent'⟩
  refine (addItem_agrees twins (.of_named named named') rfl).strengthen ?_
  rintro result result' - - ⟨flag, twins', allocs, allocs'⟩
  exact ⟨flag, twins', Spent.of_eq spent allocs, Spent.of_eq spent' allocs'⟩

theorem writeValue_agrees {value : Value P} (managed : env.dup = none) (inv : Inv env t)
    (readable : t.Readable (.pooled address)) (key : t.key (.pooled address) = .string text) :
    Agrees (t.ShortOfMemory env) SameOutcome (t.writeValue env (.pooled address) value)
      (t.writeValue env (.own (.string text)) value) := by
  have same : t.key (.pooled address) = t.key (.own (.string text)) := key
  cases located : t.locate env (.pooled address) (t.calcHashes env (.pooled address)) with
  | some slot =>
      rw [writeValue_found located,
        writeValue_found (by rw [← calcHashes_congr env same, ← locate_congr env same, located])]
      exact ⟨rfl, rfl⟩
  | none =>
      suffices agrees : Agrees (t.ShortOfMemory env) (fun result result' => result.1 = result'.1)
          (t.writeValue env (.pooled address) value) (t.writeValue env (.own (.string text)) value) by
        -- both calls add an entry, and their specifications give its key
        have returns := Env.dupReturns_of_pool managed
        have own : t.Readable (.own (.string text)) := trivial
        refine agrees.strengthen ?_
        rintro ⟨added, s⟩ ⟨_, s'⟩ returned returned' rfl
        have outcome := writeValue_outcome returns inv readable returned
        have outcome' := writeValue_outcome returns inv own returned'
        cases outcome with
        | replaced found => exact absurd (found.symm.trans located) (Option.some_ne_none _)
        | added _ effect =>
            cases outcome' with
            | added _ effect' => exact ⟨rfl, effect.entries_congr managed same effect'⟩
      have granted := (Env.dupReturns_of_pool managed).grants t (.pooled address)
      unfold Hashtable.writeValue
      refine ((writeLocal_agrees managed inv readable key located).strengthen fun result _ returned _ both =>
        And.intro both ((writeLocal_added granted inv readable located).of_ok returned).2.lgSize_eq).bind ?_
      rintro ⟨added, s⟩ ⟨_, s'⟩ ⟨⟨rfl, twins, spent, spent'⟩, sized⟩
      dsimp only at twins sized spent spent' ⊢
      have counted : Twins { s with used := s.used + 1 } { s' with used := s'.used + 1 } :=
        { twins with used_eq := congrArg (· + 1) twins.used_eq }
      have positive : 1 ≤ s.lgSize := sized.symm ▸ Nat.le_trans (by decide) inv.lgSize_ge
      have full : (2 ^ (s.lgSize - 1) ≤ s.used + 1 ∨ stashSize / 2 ≤ s.stash.size) ↔
          (2 ^ (s'.lgSize - 1) ≤ s'.used + 1 ∨ stashSize / 2 ≤ s'.stash.size) := by
        rw [twins.lgSize_eq, twins.used_eq, twins.size_eq]
      split
      next =>
        by_cases grows : 2 ^ (s.lgSize - 1) ≤ s.used + 1 ∨ stashSize / 2 ≤ s.stash.size
        · rw [if_pos grows, if_pos (full.mp grows)]
          refine (expand_agrees counted positive spent.short spent'.short).bind fun d d' doubled => ?_
          exact (mergeStash_agrees doubled).bind fun _ _ _ => rfl
        · rw [if_neg grows, if_neg (mt full.mpr grows)]
          exact rfl
      next => exact rfl

theorem inc_agrees {inc : Value P} (managed : env.dup = none) (inv : Inv env t)
    (readable : t.Readable (.pooled address)) (key : t.key (.pooled address) = .string text) :
    Agrees (t.ShortOfMemory env) SameOutcome (t.inc_ env (.pooled address) inc)
      (t.inc_ env (.own (.string text)) inc) := by
  have fetched : t.fetchValue env (.pooled address) = t.fetchValue env (.own (.string text)) := by
    have same : t.key (.pooled address) = t.key (.own (.string text)) := key
    rw [Hashtable.fetchValue, Hashtable.fetchValue, calcHashes_congr env same]
    exact locate_congr env same _
  unfold Hashtable.inc_
  rw [fetched]
  split
  next => exact ⟨rfl, rfl⟩
  next =>
    refine (writeValue_agrees managed inv readable key).bind ?_
    rintro ⟨added, s⟩ ⟨_, s'⟩ ⟨rfl, entries⟩
    exact Agrees.guard Iff.rfl fun _ => ⟨rfl, entries⟩

end Copy

end Coucal
