import Coucal.Proof.Entries

namespace Coucal

open Bytes Outcome

variable {P : Platform} {κ : Type}

/-- The byte loop writes a string that fits. -/
theorem copyBytes_eq {capacity : Nat} (source : List UInt8) (dest : Nat) {bytes : List UInt8}
    (fits : dest + source.length ≤ capacity) (room : capacity ≤ bytes.length) :
    copyBytes capacity dest source bytes = .ok (overwrite bytes dest source) := by
  induction source generalizing dest bytes with
  | nil => simp [copyBytes, overwrite]
  | cons byte rest ih =>
      rw [List.length_cons] at fits
      have inside : dest < bytes.length := by omega
      rw [copyBytes, coucalAssert_of (by omega), ok_bind, ih (dest + 1) (by omega) (by simpa using room)]
      congr 1
      unfold overwrite
      rw [List.take_succ_eq_append_getElem (by simpa using inside), List.getElem_set_self,
        List.take_set_of_le (Nat.le_refl _), List.drop_set_of_lt (by omega), List.length_cons]
      simp [Nat.add_comm, Nat.add_left_comm]

/-- One string moves to the end of a new pool and keeps its content. -/
structure Moved (old pool : Pool) (names : Multiset (Name κ)) (name : Option (Name κ))
    (result : Pool × Option (Name κ)) : Prop where
  frame : result.1 = { pool with bytes := result.1.bytes, size := result.1.size }
  layout : result.1.Layout (elements result.2 + names)
  size_eq : result.1.size = pool.size + old.footprint (elements name)
  key_eq : result.2.map result.1.key = name.map old.key
  keeps : ∀ other text, pool.Stored (other : Name κ) text → result.1.Stored other text

theorem relocateString_spec {old pool : Pool} {names : Multiset (Name κ)} {name : Option (Name κ)}
    (layout : pool.Layout names) (stored : ∀ n, name = some n → ∃ text, old.Stored n text)
    (fits : pool.size + old.footprint (elements name) ≤ pool.capacity) :
    Meets (relocateString old pool name) (Moved old pool names name) fun _ => False := by
  cases name with
  | none => exact ⟨rfl, by simpa using layout, by simp, rfl, fun _ _ held => held⟩
  | some name =>
      obtain ⟨text, held⟩ := stored name rfl
      have key := held.key_eq
      cases held with
      | emptyString =>
          refine ⟨rfl, ?_, ?_, rfl, fun _ _ kept => kept⟩
          · exact layout.cons_emptyString
          · exact (Nat.add_zero _).symm
      | @pooled address _ based nonempty holds fit =>
          have size : old.footprint (elements (some (.pooled address : Name κ))) = text.strlen + 1 := by
            change old.footprint (.pooled address ::ₘ 0) = _
            rw [Pool.footprint_cons, key, Pool.footprint_zero]
            exact CString.footprint_of_nonempty nonempty
          rw [size] at fits
          have within : pool.size + text.terminated.length ≤ pool.bytes.length := by
            rw [layout.length_eq, CString.terminated_length]
            exact fits
          rw [relocateString, key, Key.text, ok_bind,
            copyBytes_eq _ _ (layout.length_eq ▸ within) layout.length_eq.ge, ok_bind]
          · rw [CString.terminated_length]
            refine Meets.guard (fun fails => absurd fits fails) fun _ => ?_
            have same : ∀ i < pool.size,
                (overwrite pool.bytes pool.size text.terminated)[i]? = pool.bytes[i]? :=
              fun i below => overwrite_before within below
            have written := overwrite_holds within
            have new := Pool.append_stored (κ := κ) nonempty written
            refine ⟨rfl, ?_, ?_, ?_, fun _ _ kept => kept.append same⟩
            · exact layout.append same nonempty written (overwrite_length within) fits
            · exact congrArg (pool.size + ·) size.symm
            · exact congrArg some (new.key_eq.trans key.symm)
          · rintro ⟨⟩

/-- The relocation loop over an array has this state before an index: the earlier items have moved to
the new pool, and no later item changed. -/
structure Relocating (old start : Pool) (base : Multiset (Name κ)) (items : Nat → Item P κ) (index : Nat)
    (state : Pool × (Nat → Item P κ)) : Prop where
  frame : state.1 = { start with bytes := state.1.bytes, size := state.1.size }
  layout : state.1.Layout (namesIn index state.2 + base)
  size_eq : state.1.size = start.size + old.footprint (namesIn index items)
  done : ∀ i < index, (state.2 i).entry state.1 = (items i).entry old
  rest : ∀ i, index ≤ i → state.2 i = items i
  keeps : ∀ name text, start.Stored (name : Name κ) text → state.1.Stored name text

theorem relocateSlot_step {old start : Pool} {base : Multiset (Name κ)} {items : Nat → Item P κ}
    {index count : Nat} {state : Pool × (Nat → Item P κ)}
    (stored : ∀ name ∈ namesIn count items, ∃ text, old.Stored name text)
    (fits : start.size + old.footprint (namesIn count items) ≤ start.capacity) (inside : index < count)
    (relocating : Relocating old start base items index state) :
    Meets (relocateSlot old index state) (Relocating old start base items (index + 1))
      fun _ => False := by
  have same := relocating.rest index (Nat.le_refl _)
  have capacity : state.1.capacity = start.capacity := by rw [relocating.frame]
  have room := (old.footprint_mono (namesIn_mono inside items)).trans (Nat.le_refl _)
  rw [namesIn_succ, Pool.footprint_add] at room
  unfold relocateSlot
  rw [same]
  refine (relocateString_spec relocating.layout (fun name named =>
    stored name (mem_namesIn.mpr ⟨index, inside, named⟩)) (by
      rw [capacity, relocating.size_eq]
      omega)).bind ?_
  rintro ⟨pool, name⟩ moved
  have frame : pool = { state.1 with bytes := pool.bytes, size := pool.size } := moved.frame
  have earlier : ∀ i < index, ∀ item : Item P κ,
      Function.update state.2 index item i = state.2 i :=
    fun i below item => Function.update_of_ne (Nat.ne_of_lt below) _ _
  refine ⟨?_, ?_, ?_, ?_, ?_, fun other text held => moved.keeps other text (relocating.keeps other text held)⟩
  · conv_lhs => rw [frame, relocating.frame]
  · dsimp only
    rw [namesIn_succ, Function.update_self, namesIn_congr fun i below => by rw [earlier i below], add_assoc]
    exact moved.layout
  · have size := moved.size_eq
    rw [relocating.size_eq] at size
    rw [namesIn_succ, Pool.footprint_add]
    dsimp only at size ⊢
    omega
  · intro i below
    dsimp only
    rcases Nat.lt_succ_iff_lt_or_eq.mp below with before | rfl
    · rw [earlier i before, ← relocating.done i before]
      refine Item.entry_keep fun other named => ?_
      obtain ⟨text, held⟩ := relocating.layout.stored other
        (Multiset.mem_add.mpr (.inl (mem_namesIn.mpr ⟨i, before, named⟩)))
      rw [held.key_eq, (moved.keeps other text held).key_eq]
    · have keys : name.map pool.key = (items i).name.map old.key := moved.key_eq
      rw [Function.update_self]
      exact Item.entry_congr _ _ keys
  · intro i above
    exact (Function.update_of_ne (by omega) _ _).trans (relocating.rest i (Nat.le_of_succ_le above))

/-- A relocation loop never fails when the strings fit. -/
theorem relocate_spec {old start : Pool} {base : Multiset (Name κ)} {items : Nat → Item P κ}
    {count : Nat} (layout : start.Layout base)
    (stored : ∀ name ∈ namesIn count items, ∃ text, old.Stored name text)
    (fits : start.size + old.footprint (namesIn count items) ≤ start.capacity) :
    Meets (forUpTo (relocateSlot old) count (start, items)) (Relocating old start base items count)
      fun _ => False := by
  refine Meets.forUpTo (Relocating old start base items) ⟨rfl, ?_, rfl, ?_, fun _ _ => rfl,
    fun _ _ held => held⟩ fun index inside state => relocateSlot_step stored fits inside
  · have none : namesIn 0 items = 0 := rfl
    dsimp only
    rw [none, zero_add]
    exact layout
  · exact fun i below => absurd below (Nat.not_lt_zero i)

/-- A new block for the pool keeps the entries and the accounting. -/
structure Resized (t : Hashtable P κ) (capacity : Nat) (t' : Hashtable P κ) : Prop where
  repooled : Repooled t t'
  ok : t'.pool.Ok t'.names
  capacity_eq : t'.pool.capacity = capacity
  size_le : t'.pool.size ≤ t.pool.size
  used_eq : t'.pool.used = t.pool.used
  calls_eq : t'.calls = t.calls

/-- The empty pool of a new block. -/
def Pool.blank (buffer capacity : Nat) : Pool :=
  { buffer, bytes := List.replicate capacity 0, size := 0, capacity, used := 0 }

/-- The bytes in use are those of the names in the table and in the stash. -/
theorem Pool.Ok.used_split {t : Hashtable P κ} (ok : t.pool.Ok t.names) (stash : t.stash.Bounded) :
    t.pool.used = t.pool.footprint (namesIn (2 ^ t.lgSize) t.items) +
      t.pool.footprint (namesIn t.stash.extent t.stash.items) := by
  rw [ok.used_eq, Hashtable.names_of_extent stash, Pool.footprint_add]

/-- The relocation of the table and then of the stash leaves the strings without holes. -/
theorem resized_of_relocated {t : Hashtable P κ} {buffer capacity : Nat} {pool pool' : Pool}
    {items stashItems : Nat → Item P κ} (stash : t.stash.Bounded) (ok : t.pool.Ok t.names) (nonzero : buffer ≠ 0)
    (table : Relocating t.pool (.blank buffer capacity) 0 t.items (2 ^ t.lgSize) (pool, items))
    (rest : Relocating t.pool pool (namesIn (2 ^ t.lgSize) items) t.stash.items t.stash.extent
      (pool', stashItems)) :
    Resized t capacity { t with
      items
      stash := { t.stash with items := stashItems }
      pool := { pool' with used := pool'.size }
      allocs := t.allocs + 1 } := by
  let t' : Hashtable P κ := { t with
    items
    stash := { t.stash with items := stashItems }
    pool := { pool' with used := pool'.size }
    allocs := t.allocs + 1 }
  have frame : pool = _ := table.frame
  have frame' : pool' = _ := rest.frame
  have layout : pool.Layout (namesIn (2 ^ t.lgSize) items + 0) := table.layout
  have layout' : pool'.Layout (namesIn t.stash.extent stashItems + namesIn (2 ^ t.lgSize) items) := rest.layout
  have above : ∀ i, t.stash.extent ≤ i → stashItems i = t.stash.items i := rest.rest
  have names : t'.names = namesIn t.stash.extent stashItems + namesIn (2 ^ t.lgSize) items := by
    have free : liveIn stashSize stashItems = liveIn t.stash.extent stashItems :=
      liveIn_extend stash.extent_le fun i outside _ => by
        rw [above i outside]
        exact stash.above i outside
    rw [t'.names_eq, add_comm]
    exact congrArg (· + _) (congrArg (Multiset.filterMap Item.name) free)
  have repooled : Repooled t t' := by
    refine ⟨rfl, ?_, ?_⟩
    · intro i inside
      rw [← table.done i inside]
      refine Item.entry_keep fun name named => ?_
      obtain ⟨text, held⟩ := layout.stored name
        (Multiset.mem_add.mpr (.inl (mem_namesIn.mpr ⟨i, inside, named⟩)))
      exact (rest.keeps name text held).key_eq.trans held.key_eq.symm
    · intro i
      by_cases inside : i < t.stash.extent
      · exact rest.done i inside
      · have outside := Nat.le_of_not_lt inside
        have free := stash.above i outside
        change (stashItems i).entry _ = _
        rw [above i outside, Item.entry_of_free free, Item.entry_of_free free]
  have used : t'.pool.used = t.pool.used := by
    have size : pool.size = 0 + _ := table.size_eq
    have size' : pool'.size = pool.size + _ := rest.size_eq
    rw [ok.used_split stash]
    change pool'.size = _
    omega
  refine ⟨repooled, ?_, ?_, ?_, used, rfl⟩
  · refine { names ▸ layout'.setUsed pool'.size with based := ?_, used_eq := ?_, used_le := Nat.le_refl _ }
    · intro null
      rw [frame', frame] at null
      exact absurd null nonzero
    · exact used.trans (by rw [ok.used_eq, t.footprint_names, t'.footprint_names, repooled.entries_eq])
  · change pool'.capacity = capacity
    rw [frame', frame]
    rfl
  · exact used.trans_le ok.used_le

/-- A compaction removes the holes of the pool. -/
theorem compactPool_spec {env : Env P κ} {t : Hashtable P κ} {capacity : Nat} (managed : env.dup = none)
    (stash : t.stash.Bounded) (ok : t.pool.Ok t.names) (fits : t.pool.used ≤ capacity) :
    Meets (t.compactPool env capacity)
      (fun t' => Resized t capacity t' ∧ t'.pool.size = t'.pool.used ∧ t'.allocs = t.allocs + 1)
      fun error => error = .assertion .compactionMemory ∧ env.alloc t.allocs = 0 := by
  have bytes := ok.used_split stash
  have stored : ∀ name, name ∈ namesIn (2 ^ t.lgSize) t.items ∨
      name ∈ namesIn t.stash.extent t.stash.items → ∃ text, t.pool.Stored name text := by
    intro name member
    apply ok.stored name
    rw [Hashtable.names_of_extent stash]
    exact Multiset.mem_add.mpr member
  unfold Hashtable.compactPool
  refine Meets.guard (fun fails => absurd (by simp [managed]) fails) fun _ => ?_
  refine (malloc_spec env t .compactionMemory).bind ?_
  rintro ⟨buffer, _⟩ ⟨nonzero, rfl⟩
  dsimp only
  have blank : (Pool.blank buffer capacity).Layout (0 : Multiset (Name κ)) :=
    ⟨List.length_replicate, Nat.zero_le _, fun _ member => absurd member (Multiset.notMem_zero _), apart_zero⟩
  refine ((relocate_spec blank (fun name member => stored name (.inl member)) (by
    simp only [Pool.blank]
    omega)).mono (fun _ => id) fun _ => False.elim).bind ?_
  rintro ⟨pool, items⟩ table
  have size : pool.size = 0 + _ := table.size_eq
  have capacity_eq : pool.capacity = capacity := by
    rw [show pool = _ from table.frame]
    rfl
  have layout := table.layout
  rw [add_zero] at layout
  refine ((relocate_spec layout (fun name member => stored name (.inr member)) (by
    dsimp only
    omega)).mono (fun _ => id) fun _ => False.elim).bind ?_
  rintro ⟨pool', stashItems⟩ rest
  exact ⟨resized_of_relocated stash ok nonzero table rest, rfl, rfl⟩

/-- The name with its offset in a moved buffer. -/
def Name.rebase (oldBase newBase : Nat) : Name κ → Name κ
  | .pooled address => .pooled (newBase + (address - oldBase))
  | name => name

/-- A name of the buffer does not change when the buffer stays. -/
theorem Pool.Stored.rebase_self {pool : Pool} {name : Name κ} {text : CString}
    (stored : pool.Stored name text) : name.rebase pool.buffer pool.buffer = name := by
  cases stored with
  | emptyString => rfl
  | pooled based _ _ _ => exact congrArg Name.pooled (Nat.add_sub_cancel' based)

section Rebase

variable (old pool : Pool) {name : Name κ} {text : CString} (size : pool.size = old.size)
  (same : ∀ i < old.size, pool.bytes[i]? = old.bytes[i]?)

include size same

/-- A name keeps its string when the buffer moves. -/
theorem Pool.Stored.rebase (stored : old.Stored name text) :
    pool.Stored (name.rebase old.buffer pool.buffer) text := by
  cases stored with
  | emptyString => exact .emptyString
  | pooled based nonempty holds fits =>
      refine .pooled (Nat.le_add_right _ _) nonempty ?_ ?_
      · rw [Nat.add_sub_cancel_left]
        refine holds.congr fun i _ below => same i ?_
        rw [CString.terminated_length] at below
        omega
      · rw [Nat.add_sub_cancel_left, size]
        exact fits

theorem Pool.Stored.region_rebase (stored : old.Stored name text) :
    pool.region (name.rebase old.buffer pool.buffer) = old.region name := by
  have moved := stored.rebase old pool size same
  cases stored with
  | emptyString => rfl
  | pooled based nonempty holds fits =>
      have before := Pool.Stored.stringAt_eq (κ := κ) (.pooled based nonempty holds fits)
      have after := Pool.Stored.stringAt_eq (κ := κ) moved
      simp only [Name.rebase, Pool.region, before, after, Nat.add_sub_cancel_left]

/-- The layout moves with the buffer. -/
theorem Pool.Layout.rebase {names : Multiset (Name κ)} (layout : old.Layout names)
    (length : pool.bytes.length = pool.capacity) (fits : old.size ≤ pool.capacity) :
    pool.Layout (names.map (.rebase old.buffer pool.buffer)) := by
  refine ⟨length, size ▸ fits, ?_, ?_⟩
  · intro name member
    obtain ⟨source, before, rfl⟩ := Multiset.mem_map.mp member
    obtain ⟨text, held⟩ := layout.stored source before
    exact ⟨text, held.rebase old pool size same⟩
  · have kept : (names.map (.rebase old.buffer pool.buffer)).map pool.region = names.map old.region := by
      rw [Multiset.map_map]
      apply Multiset.map_congr rfl
      intro name member
      obtain ⟨text, held⟩ := layout.stored name member
      exact held.region_rebase old pool size same
    rw [kept]
    exact layout.apart

end Rebase

/-- The item with its offset in a moved buffer. -/
def Item.rebase (oldBase newBase : Nat) (item : Item P κ) : Item P κ :=
  { item with name := item.name.map (.rebase oldBase newBase) }

theorem Item.rebase_of_free {oldBase newBase : Nat} {item : Item P κ} (free : item.name = none) :
    item.rebase oldBase newBase = item := by
  unfold rebase
  rw [free]
  cases item
  cases free
  rfl

/-- The recomputation of an offset never fails while the strings fit. -/
theorem recomputeSlot_eq {old pool : Pool} {index : Nat} {items : Nat → Item P κ}
    (fits : old.size ≤ pool.capacity)
    (stored : ∀ name, (items index).name = some name → ∃ text, old.Stored name text) :
    recomputeSlot old.buffer pool index items =
      .ok (Function.update items index ((items index).rebase old.buffer pool.buffer)) := by
  unfold recomputeSlot Item.rebase
  cases named : (items index).name with
  | none => rfl
  | some name =>
      obtain ⟨text, held⟩ := stored name named
      cases held with
      | emptyString => rfl
      | pooled based _ _ inside =>
          rw [recomputeString, coucalAssert_of ⟨based, by omega⟩]
          rfl

/-- The recomputation loop moves every name of an array. -/
theorem recompute_spec (old : Pool) {pool : Pool} {count : Nat} {items : Nat → Item P κ}
    (fits : old.size ≤ pool.capacity)
    (stored : ∀ name ∈ namesIn count items, ∃ text, old.Stored name text) :
    Meets (forUpTo (recomputeSlot old.buffer pool) count items)
      (fun items' => (∀ i < count, items' i = (items i).rebase old.buffer pool.buffer) ∧
        ∀ i, count ≤ i → items' i = items i) fun _ => False := by
  refine Meets.forUpTo (fun index (items' : Nat → Item P κ) =>
    (∀ i < index, items' i = (items i).rebase old.buffer pool.buffer) ∧
      ∀ i, index ≤ i → items' i = items i) ⟨fun i below => absurd below (Nat.not_lt_zero i), fun _ _ => rfl⟩ ?_
  rintro index inside items' ⟨done, rest⟩
  have same := rest index (Nat.le_refl _)
  rw [recomputeSlot_eq fits fun name named =>
    stored name (mem_namesIn.mpr ⟨index, inside, same ▸ named⟩), meets_ok]
  refine ⟨?_, ?_⟩
  · intro i below
    rcases Nat.lt_succ_iff_lt_or_eq.mp below with before | rfl
    · rw [Function.update_of_ne (Nat.ne_of_lt before)]
      exact done i before
    · rw [Function.update_self, same]
  · intro i above
    rw [Function.update_of_ne (by omega)]
    exact rest i (Nat.le_of_succ_le above)

theorem Item.rebase_self {pool : Pool} {item : Item P κ}
    (stored : ∀ name, item.name = some name → ∃ text, pool.Stored name text) :
    item.rebase pool.buffer pool.buffer = item := by
  by_cases free : item.name = none
  · exact rebase_of_free free
  · obtain ⟨name, named⟩ := Option.ne_none_iff_exists'.mp free
    obtain ⟨text, held⟩ := stored name named
    unfold rebase
    rw [named, Option.map_some, held.rebase_self, ← named]

/-- A block that grows in place or moves keeps every string at its offset. -/
theorem resized_of_rebased {t : Hashtable P κ} {buffer capacity : Nat} {items stashItems : Nat → Item P κ}
    (bounded : t.stash.Bounded) (ok : t.pool.Ok t.names) (nonzero : buffer ≠ 0) (fits : t.pool.size ≤ capacity)
    (table : ∀ i < 2 ^ t.lgSize, items i = (t.items i).rebase t.pool.buffer buffer)
    (stash : ∀ i, stashItems i = (t.stash.items i).rebase t.pool.buffer buffer) :
    Resized t capacity { t with
      items
      stash := { t.stash with items := stashItems }
      pool := { t.pool with buffer, capacity, bytes := resizeBytes t.pool.bytes capacity }
      allocs := t.allocs + 1 } := by
  let pool : Pool := { t.pool with buffer, capacity, bytes := resizeBytes t.pool.bytes capacity }
  let t' : Hashtable P κ := { t with
    items
    stash := { t.stash with items := stashItems }
    pool
    allocs := t.allocs + 1 }
  have length : pool.bytes.length = pool.capacity := by
    simp only [pool, resizeBytes, List.length_append, List.length_take, List.length_replicate]
    omega
  have same : ∀ i < t.pool.size, pool.bytes[i]? = t.pool.bytes[i]? := by
    intro i below
    have inside : i < t.pool.bytes.length := by
      rw [ok.length_eq]
      exact Nat.lt_of_lt_of_le below ok.size_le
    simp only [pool, resizeBytes]
    rw [List.getElem?_append_left (by rw [List.length_take]; omega), List.getElem?_take_of_lt (by omega)]
  have entry : ∀ item : Item P κ, (∀ name, item.name = some name → ∃ text, t.pool.Stored name text) →
      (item.rebase t.pool.buffer buffer).entry pool = item.entry t.pool := by
    intro item stored
    refine Item.entry_congr item.value item.hashes ?_
    cases named : item.name with
    | none => rfl
    | some name =>
        obtain ⟨text, held⟩ := stored name named
        exact congrArg some ((held.rebase t.pool pool rfl same).key_eq.trans held.key_eq.symm)
  have names : t'.names = t.names.map (.rebase t.pool.buffer buffer) := by
    have each : ∀ (count : Nat) (before after : Nat → Item P κ),
        (∀ i < count, after i = (before i).rebase t.pool.buffer buffer) →
        namesIn count after = (namesIn count before).map (.rebase t.pool.buffer buffer) := by
      intro count before after renamed
      unfold namesIn
      rw [Multiset.map_filterMap, filterMap_liveIn fun _ => id, filterMap_liveIn]
      · exact Slots.total_congr fun i inside => by rw [renamed i inside]; rfl
      · intro item free
        rw [free]
        rfl
    rw [t.names_eq, t'.names_eq, Multiset.map_add]
    exact congrArg₂ _ (each _ _ _ table) (each _ _ _ fun i _ => stash i)
  have repooled : Repooled t t' := by
    refine ⟨rfl, ?_, ?_⟩
    · intro i inside
      change (items i).entry pool = _
      rw [table i inside]
      exact entry _ fun name named => ok.stored name (Hashtable.mem_names_table inside named)
    · intro i
      change (stashItems i).entry pool = _
      rw [stash i]
      exact entry _ fun name named => ok.stored name (Hashtable.mem_names_stash bounded named)
  have layout : pool.Layout t'.names := by
    rw [names]
    exact ok.toLayout.rebase t.pool pool rfl same length fits
  refine ⟨repooled, ⟨layout, fun null => absurd null nonzero, ?_, ok.used_le⟩, rfl, Nat.le_refl _, rfl, rfl⟩
  exact ok.used_eq.trans (by rw [t.footprint_names, t'.footprint_names, repooled.entries_eq])

/-- A pool of a larger capacity keeps its strings, whichever way it takes. -/
theorem reallocPool_spec {env : Env P κ} {t : Hashtable P κ} {capacity : Nat} (managed : env.dup = none)
    (stash : t.stash.Bounded) (ok : t.pool.Ok t.names) (fits : t.pool.size ≤ capacity) :
    Meets (t.reallocPool env capacity) (Resized t capacity)
      fun error => error.onMemory = true ∧ env.alloc t.allocs = 0 := by
  unfold Hashtable.reallocPool
  refine Meets.guard (fun fails => absurd (by simp [managed]) fails) fun _ => ?_
  split
  next =>
    refine (compactPool_spec managed stash ok (ok.used_le.trans fits)).mono (fun _ => And.left) ?_
    rintro error ⟨rfl, null⟩
    exact ⟨rfl, null⟩
  next =>
    refine ((malloc_spec env t .reallocMemory).mono (fun _ => id) fun error null => ?_).bind ?_
    · obtain ⟨rfl, null⟩ := null
      exact ⟨rfl, null⟩
    rintro ⟨buffer, _⟩ ⟨nonzero, rfl⟩
    dsimp only
    split
    next same =>
      refine resized_of_rebased stash ok nonzero fits ?_ ?_
      · intro i inside
        rw [same, Item.rebase_self fun name named =>
          ok.stored name (Hashtable.mem_names_table inside named)]
      · intro i
        rw [same, Item.rebase_self fun name named =>
          ok.stored name (Hashtable.mem_names_stash stash named)]
    next =>
      have stored := ok.stored
      rw [Hashtable.names_of_extent stash] at stored
      refine ((recompute_spec t.pool fits fun name member =>
        stored name (Multiset.mem_add.mpr (.inl member))).mono (fun _ => id) fun _ => False.elim).bind ?_
      rintro items ⟨table, -⟩
      refine ((recompute_spec t.pool fits fun name member =>
        stored name (Multiset.mem_add.mpr (.inr member))).mono (fun _ => id) fun _ => False.elim).bind ?_
      rintro stashItems ⟨below, above⟩
      refine resized_of_rebased stash ok nonzero fits table fun i => ?_
      by_cases inside : i < t.stash.extent
      · exact below i inside
      · have outside := Nat.le_of_not_lt inside
        rw [above i outside, Item.rebase_of_free (stash.above i outside)]

/-- A growth takes one allocation. A compaction lowers the watermark to the bytes in use, and a move of the
block keeps it. -/
theorem reallocPool_room {env : Env P κ} {t t' : Hashtable P κ} {capacity : Nat} (managed : env.dup = none)
    (stash : t.stash.Bounded) (ok : t.pool.Ok t.names) (fits : t.pool.size ≤ capacity)
    (returned : t.reallocPool env capacity = .ok t') : t'.allocs = t.allocs + 1 ∧ t'.pool.size =
      if t.pool.used < t.pool.size * 3 % 2 ^ P.wordSize / 4 then t.pool.used else t.pool.size := by
  obtain ⟨-, -, returned⟩ := bind_eq_ok.mp returned
  split at returned
  next sparse =>
    obtain ⟨resized, compact, allocated⟩ :=
      (compactPool_spec managed stash ok (ok.used_le.trans fits)).of_ok returned
    rw [if_pos sparse, compact, resized.used_eq]
    exact ⟨allocated, rfl⟩
  next dense =>
    rw [if_neg dense]
    obtain ⟨⟨buffer, s⟩, allocated, moved⟩ := bind_eq_ok.mp returned
    obtain ⟨-, same⟩ := (malloc_spec env t .reallocMemory).of_ok allocated
    dsimp only at same moved
    subst same
    split at moved
    next =>
      cases moved
      exact ⟨rfl, rfl⟩
    next =>
      obtain ⟨items, -, moved⟩ := bind_eq_ok.mp moved
      obtain ⟨stashItems, -, moved⟩ := bind_eq_ok.mp moved
      cases moved
      exact ⟨rfl, rfl⟩

end Coucal
