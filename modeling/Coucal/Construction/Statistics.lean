import Coucal.Construction.System
import Coucal.Library.Recorded

namespace Coucal

open Recorded

variable {P : Platform} {κ : Type}

/-- A block of memory with its size: the structure, the items, the buffer of the pool, or a staged key. -/
inductive Block where
  | table (bytes : Nat)
  | items (bytes : Nat)
  | pool (address bytes : Nat)
  | staged (address bytes : Nat)
  deriving Repr, DecidableEq

/-- The places where the program counts, the bytes that it copies into a new block of the pool, and its
allocations and releases. A reallocation releases the old block. -/
inductive Mark where
  | write
  | add
  | moved
  | stashed (size : Nat)
  | rehash
  | poolCompact
  | poolRealloc
  | copied (bytes : Nat)
  | malloc (block : Block)
  | free (block : Block)
  deriving Repr, DecidableEq

namespace Mark

@[simp] def writes : Mark → Nat
  | .write => 1
  | _ => 0

@[simp] def adds : Mark → Nat
  | .add => 1
  | _ => 0

@[simp] def moves : Mark → Nat
  | .moved => 1
  | _ => 0

@[simp] def stashes : Mark → Nat
  | .stashed _ => 1
  | _ => 0

@[simp] def rehashes : Mark → Nat
  | .rehash => 1
  | _ => 0

@[simp] def compactions : Mark → Nat
  | .poolCompact => 1
  | _ => 0

@[simp] def reallocations : Mark → Nat
  | .poolRealloc => 1
  | _ => 0

@[simp] def copiedBytes : Mark → Nat
  | .copied bytes => bytes
  | _ => 0

/-- The size of the stash that a mark shows. -/
@[simp] def stashSeen : Mark → Nat
  | .stashed size => size
  | _ => 0

end Mark

/-- `struct_coucal.stats` -/
structure Stats (P : Platform) where
  maxStashSize : BitVec P.wordSize := 0
  writeCount : BitVec P.wordSize := 0
  addCount : BitVec P.wordSize := 0
  cuckooMoved : BitVec P.wordSize := 0
  stashAdded : BitVec P.wordSize := 0
  rehashCount : BitVec P.wordSize := 0
  poolCompactCount : BitVec P.wordSize := 0
  poolReallocCount : BitVec P.wordSize := 0
  deriving DecidableEq

/-- The statements on `stats` at a place. -/
def Stats.count (stats : Stats P) : Mark → Stats P
  | .write => { stats with writeCount := stats.writeCount + 1 }
  | .add => { stats with addCount := stats.addCount + 1 }
  | .moved => { stats with cuckooMoved := stats.cuckooMoved + 1 }
  | .stashed size =>
      { stats with
        stashAdded := stats.stashAdded + 1
        maxStashSize :=
          if stats.maxStashSize < BitVec.ofNat P.wordSize size then BitVec.ofNat P.wordSize size
          else stats.maxStashSize }
  | .rehash => { stats with rehashCount := stats.rehashCount + 1 }
  | .poolCompact => { stats with poolCompactCount := stats.poolCompactCount + 1 }
  | .poolRealloc => { stats with poolReallocCount := stats.poolReallocCount + 1 }
  | .copied _ | .malloc _ | .free _ => stats

/-- The statistics of a table that `coucal_new` has made, after some marks. -/
def Stats.of (marks : List Mark) : Stats P := marks.foldl Stats.count {}

/-- A function of the program that counts. -/
abbrev Counted := Recording Mark Failure

/-- `free` of the buffer. A release of NULL does nothing. -/
def releasePool (pool : Pool) : List Mark :=
  if pool.buffer = 0 then [] else [.free (.pool pool.buffer pool.capacity)]

/-- The private copy of a key inside the pool, with the next address of the allocator. -/
def stagingBlock (env : Env P κ) (t : Hashtable P κ) (name : Name κ) (text : CString) : Option Block :=
  if t.isPooled name then some (.staged (env.alloc t.allocs) (text.strlen + 1)) else none

namespace Counted

/-- `coucal_compact_pool`. The loop of `RELOCATE_STRING` copies the bytes below the new watermark. -/
def compactPool (env : Env P κ) (t : Hashtable P κ) (capacity : Nat) : Counted (Hashtable P κ) := do
  tell [.poolCompact]
  let s ← t.compactPool env capacity
  tell ([.malloc (.pool s.pool.buffer capacity), .copied s.pool.size] ++ releasePool t.pool)
  pure s

/-- `coucal_realloc_pool`. The allocator may copy the whole block. -/
def reallocPool (env : Env P κ) (t : Hashtable P κ) (capacity : Nat) : Counted (Hashtable P κ) := do
  coucalAssert .poolManaged (env.dup.isNone)
  if t.pool.used < t.pool.size * 3 % 2 ^ P.wordSize / 4 then compactPool env t capacity
  else
    tell [.poolRealloc, .copied t.pool.capacity]
    let s ← t.reallocPool env capacity
    tell (releasePool t.pool ++ [.malloc (.pool s.pool.buffer capacity)])
    pure s

def growPool (env : Env P κ) (t : Hashtable P κ) (name : Name κ) (text : CString) :
    Counted (Name κ × Hashtable P κ) := do
  let staged := stagingBlock env t name text
  let (name, t) ← t.stageName env name text
  tell (staged.toList.map .malloc)
  let needed := (t.pool.size + (text.strlen + 1)) % 2 ^ P.wordSize
  let capacity ← searchCapacity P needed (P.wordSize + 1) minPoolCapacity
  coucalAssert .sizeInGrown (t.pool.size < capacity)
  let t ← reallocPool env t capacity
  pure (name, t)

def makeRoom (env : Env P κ) (t : Hashtable P κ) (name : Name κ) (text : CString) :
    Counted (Name κ × Hashtable P κ) :=
  if t.pool.capacity - t.pool.size < text.strlen + 1 then growPool env t name text else pure (name, t)

/-- `coucal_dup_name_internal` -/
def dupNameInternal (env : Env P κ) (t : Hashtable P κ) (name : Name κ) :
    Counted (Name κ × Hashtable P κ) := do
  let text ← (t.key name).text
  let len := text.strlen + 1
  if len = 1 then pure (.emptyString, t)
  else
    coucalAssert .sizeInCapacity (t.pool.size ≤ t.pool.capacity)
    let staged := if t.pool.capacity - t.pool.size < len then stagingBlock env t name text else none
    let (name, t) ← makeRoom env t name text
    coucalAssert .nameFits ((len + t.pool.size) % 2 ^ P.wordSize ≤ t.pool.capacity)
    let source ← (t.key name).text
    let bytes ← writeBytes t.pool.bytes t.pool.size (source.terminated.take len)
    tell (staged.toList.map .free)
    pure (.pooled (t.pool.buffer + t.pool.size),
      { t with pool := { t.pool with bytes, size := t.pool.size + len, used := t.pool.used + len } })

/-- `coucal_dup_name` -/
def dupName (env : Env P κ) (t : Hashtable P κ) (name : Name κ) :
    Counted (Option (Name κ) × Hashtable P κ) :=
  match env.dup with
  | none => do
      let (copy, t) ← dupNameInternal env t name
      pure (some copy, t)
  | some _ => liftM (t.dupName env name)

/-- `coucal_free_key_internal` -/
def freeKeyInternal (env : Env P κ) (t : Hashtable P κ) (name : Name κ) : Counted (Hashtable P κ) :=
  match name with
  | .emptyString => pure t
  | .own _ => throw .fault
  | .pooled address => do
      let text := t.pool.stringAt address
      coucalAssert .duplicateRelease (text.chars ≠ [])
      let t := { t with pool := { t.pool with
        used := t.pool.used - (text.strlen + 1)
        bytes := t.pool.bytes.set (address - t.pool.buffer) 0 } }
      if t.pool.used ≠ 0 ∧ t.pool.used < t.pool.size / 2 then
        let capacity :=
          if t.pool.used < t.pool.capacity / 4 then t.pool.capacity / 2 else t.pool.capacity
        coucalAssert .usedInCapacity (t.pool.used < capacity)
        compactPool env t capacity
      else pure t

/-- `coucal_free_key` -/
def freeKey (env : Env P κ) (t : Hashtable P κ) (name : Name κ) : Counted (Hashtable P κ) :=
  match env.dup with
  | none => freeKeyInternal env t name
  | some _ => liftM (t.freeKey env name)

/-- `coucal_del_name` -/
def delName (env : Env P κ) (t : Hashtable P κ) (slot : Slot) : Counted (Hashtable P κ) :=
  match (t.item slot).name with
  | none => throw .fault
  | some name => freeKey env (t.setItem slot { t.item slot with name := none, hashes := Hashkeys.null P }) name

/-- `coucal_del_item` -/
def delItem (env : Env P κ) (t : Hashtable P κ) (slot : Slot) : Counted (Hashtable P κ) :=
  delName env (t.delValue_ env slot) slot

/-- The eviction loop of `coucal_add_item_`. -/
def evict (lgSize : Nat) (initialHash : Hashkey P) :
    Nat → (Nat → Item P κ) → Item P κ → Hashkey P → Counted ((Nat → Item P κ) × Option (Item P κ))
  | 0, items, item, _ => pure (items, some item)
  | loops + 1, items, item, cuckooHash =>
      let pos := hashToPos_ lgSize cuckooHash
      if (items pos).name.isNone then pure (Function.update items pos item, none)
      else do
        let backup := items pos
        let items := Function.update items pos item
        tell [.moved]
        if pos = hashToPos_ lgSize backup.hashes.hash1 then
          if backup.hashes.hash2 = initialHash then pure (items, some backup)
          else evict lgSize initialHash loops items backup backup.hashes.hash2
        else if pos = hashToPos_ lgSize backup.hashes.hash2 then
          if backup.hashes.hash1 = initialHash then pure (items, some backup)
          else evict lgSize initialHash loops items backup backup.hashes.hash1
        else throw (.assertion .unexpectedPosition)

/-- `coucal_add_item_` -/
def addItem_ (t : Hashtable P κ) (item : Item P κ) : Counted (Bool × Hashtable P κ) := do
  let pos1 := t.hashToPos item.hashes.hash1
  let pos2 := t.hashToPos item.hashes.hash2
  if t.isFree pos1 then pure (true, { t with items := Function.update t.items pos1 item })
  else if t.isFree pos2 then pure (true, { t with items := Function.update t.items pos2 item })
  else
    let (items, left) ←
      evict t.lgSize item.hashes.hash1 (2 ^ t.lgSize) t.items item item.hashes.hash1
    let t := { t with items }
    match left with
    | none => pure (true, t)
    | some item =>
        coucalAssert .stashCollision (t.stash.size < stashSize)
        let t := { t with stash := t.stash.insert item }
        tell [.stashed t.stash.size]
        pure (true, t)

/-- `coucal_write_value_` -/
def writeValue_ (env : Env P κ) (t : Hashtable P κ) (name : Name κ) (value : Value P) :
    Counted (Bool × Hashtable P κ) := do
  let hashes := t.calcHashes env name
  tell [.write]
  match t.locate env name hashes with
  | some slot =>
      let t := t.delValue_ env slot
      pure (false, t.setItem slot { t.item slot with value })
  | none =>
      tell [.add]
      let t := if t.stash.size ≠ 0 then t.drainStash else t
      let (copy, t) ← dupName env t name
      addItem_ t { name := copy, value, hashes }

/-- The doubling of the table in `coucal_write_value`. -/
def expand (env : Env P κ) (t : Hashtable P κ) : Counted (Hashtable P κ) := do
  tell [.rehash]
  let s ← t.expand env
  tell [.free (.items (2 ^ t.lgSize * P.itemSize)), .malloc (.items (2 ^ (t.lgSize + 1) * P.itemSize))]
  pure s

/-- One pass of the loop that inserts the saved stash again. -/
def mergeEntry (saved : Stash P κ) (index : Nat) (t : Hashtable P κ) : Counted (Hashtable P κ) :=
  if (saved.items index).name.isNone then pure t
  else do
    let (added, t) ← addItem_ t (saved.items index)
    coucalAssert .duplicateMerging (added = true)
    pure t

/-- The merge of the stash in `coucal_write_value`. -/
def mergeStash (t : Hashtable P κ) : Counted (Hashtable P κ) := do
  if t.stash.size ≠ 0 then
    let saved := t.stash
    let t := { t with stash := { items := fun _ => Item.null P κ, size := 0, extent := 0 } }
    let t ← forUpTo (mergeEntry saved) saved.extent t
    coucalAssert .stashShrinks (t.stash.size ≤ saved.size)
    pure t
  else pure t

/-- `coucal_write_value` -/
def writeValue (env : Env P κ) (t : Hashtable P κ) (name : Name κ) (value : Value P) :
    Counted (Bool × Hashtable P κ) := do
  let (added, t) ← writeValue_ env t name value
  if added then
    let halfSize := 2 ^ (t.lgSize - 1)
    let t := { t with used := t.used + 1 }
    if halfSize ≤ t.used ∨ stashSize / 2 ≤ t.stash.size then
      let t ← expand env t
      let t ← mergeStash t
      pure (added, t)
    else pure (added, t)
  else pure (added, t)

/-- `coucal_inc_` -/
def inc_ (env : Env P κ) (t : Hashtable P κ) (name : Name κ) (inc : Value P) :
    Counted (Value P × Hashtable P κ) :=
  match t.fetchValue env name with
  | some slot =>
      let value := (t.item slot).value + inc
      pure (value, t.setItem slot { t.item slot with value })
  | none => do
      let (added, t) ← writeValue env t name inc
      coucalAssert .incAdded (added = true)
      pure (inc, t)

/-- `coucal_remove_` -/
def remove_ (env : Env P κ) (t : Hashtable P κ) (name : Name κ) (hashes : Hashkeys P) :
    Counted (Bool × Hashtable P κ) :=
  match t.locate env name hashes with
  | some (.table pos) => do
      let t ← delItem env t (.table pos)
      pure (true, t)
  | some (.stash index) => do
      let t ← delItem env t (.stash index)
      pure (true, { t with stash := Stash.trim { t.stash with size := t.stash.size - 1 } })
  | none => pure (false, t)

/-- `coucal_remove` -/
def remove (env : Env P κ) (t : Hashtable P κ) (name : Name κ) : Counted (Bool × Hashtable P κ) := do
  let (removed, t) ← remove_ env t name (t.calcHashes env name)
  if removed then
    coucalAssert .usedNonzero (t.used ≠ 0)
    pure (removed, { t with used := t.used - 1 })
  else pure (removed, t)

/-- A call returns its answer and the next state. The calls that only read count nothing. -/
def apply (env : Env P κ) (t : Hashtable P κ) : Op P (Name κ) → Counted (Reply P κ × Hashtable P κ)
  | .writeValue name value => do
      let (added, t) ← writeValue env t name value
      pure (.flag added, t)
  | .remove name => do
      let (removed, t) ← remove env t name
      pure (.flag removed, t)
  | .inc name => do
      let (value, t) ← inc_ env t name 1
      pure (.int (value.setWidth P.intSize), t)
  | .dec name => do
      let (value, t) ← inc_ env t name (-1)
      pure (.int (value.setWidth P.intSize), t)
  | op => liftM (t.apply env op)

/-- `coucal_new`, with the size of the structure. Without one of its two blocks it releases the other. -/
def new (env : Env P κ) (structSize initialSize : Nat) : Option (Hashtable P κ) × List Mark :=
  let lgSize := getPow2 P initialSize
  if ¬ isAcceptablePow2 P lgSize then (none, [])
  else
    let table := if env.alloc 0 ≠ 0 then [Block.table structSize] else []
    let items := if env.alloc 1 ≠ 0 then [Block.items (2 ^ lgSize * P.itemSize)] else []
    match Hashtable.new env initialSize with
    | some t => (some t, (table ++ items).map .malloc)
    | none => (none, (table ++ items).map .malloc ++ (items ++ table).map .free)

/-- `coucal_delete` -/
def delete (env : Env P κ) (structSize : Nat) (t : Hashtable P κ) : Counted (Hashtable P κ) := do
  let s ← t.delete env
  tell (releasePool s.pool ++ [.free (.items (2 ^ t.lgSize * P.itemSize)), .free (.table structSize)])
  pure s

end Counted

/-- `coucal_memory_size`, with the size of the structure. -/
def Hashtable.memorySize (structSize : Nat) (t : Hashtable P κ) : Nat :=
  (structSize + 2 ^ t.lgSize * P.itemSize + t.pool.capacity) % 2 ^ P.wordSize

/-- A table with the marks of its past. -/
structure Metered (P : Platform) (κ : Type) where
  table : Hashtable P κ
  marks : List Mark

/-- `struct_coucal.stats` of a table. -/
def Metered.stats (state : Metered P κ) : Stats P := Stats.of state.marks

/-- A call changes a table that counts. -/
def Metered.makes (env : Env P κ) (op : Op P (Name κ)) (state : Metered P κ) : Result (Metered P κ) := do
  let ((_, t), marks) ← (Counted.apply env state.table op).run
  .ok ⟨t, state.marks ++ marks⟩

/-- A step of a table that counts. -/
inductive Metered.Step (env : Env P κ) : Metered P κ → Event P κ → Metered P κ → Prop where
  | call {t t' : Hashtable P κ} {past marks : List Mark} {op : Op P (Name κ)} {reply : Reply P κ}
      (readable : ∀ name, op.name? = some name → t.Readable name)
      (returns : (Counted.apply env t op).run = .ok ((reply, t'), marks)) :
      Metered.Step env ⟨t, past⟩ (op.map t.key, reply) ⟨t', past ++ marks⟩

abbrev Metered.Run (env : Env P κ) := Transition.Run (Metered.Step env)

end Coucal
