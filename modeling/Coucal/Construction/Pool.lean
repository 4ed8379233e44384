import Coucal.Construction.Data

namespace Coucal

variable {P : Platform} {κ : Type}

/-- The string at an address of the buffer. -/
def Pool.stringAt (pool : Pool) (address : Nat) : CString :=
  CString.read (pool.bytes.drop (address - pool.buffer))

/-- The object that a name designates while the pool has this content. -/
def Pool.key (pool : Pool) : Name κ → Key κ
  | .own key => key
  | .emptyString => .string CString.empty
  | .pooled address => .string (pool.stringAt address)

/-- A string function applied to an object that is no string leaves its memory. -/
def Key.text : Key κ → Result CString
  | .string text => .ok text
  | .object _ => .error .fault

/-- The byte loop of `RELOCATE_STRING` checks each destination. -/
def copyBytes (capacity : Nat) : Nat → List UInt8 → List UInt8 → Result (List UInt8)
  | _, [], bytes => .ok bytes
  | dest, byte :: rest, bytes => do
      coucalAssert .compactedByte (dest < capacity)
      copyBytes capacity (dest + 1) rest (bytes.set dest byte)

/-- `RELOCATE_STRING` -/
def relocateString (old pool : Pool) (name : Option (Name κ)) : Result (Pool × Option (Name κ)) :=
  match name with
  | none => .ok (pool, none)
  | some .emptyString => .ok (pool, some .emptyString)
  | some name => do
      let source ← (old.key name).text
      let bytes ← copyBytes pool.capacity pool.size source.terminated pool.bytes
      let size := pool.size + source.terminated.length
      coucalAssert .compactedSize (size ≤ pool.capacity)
      .ok ({ pool with bytes, size }, some (.pooled (pool.buffer + pool.size)))

/-- One pass of the relocation loop over a slot. -/
def relocateSlot (old : Pool) (index : Nat) (state : Pool × (Nat → Item P κ)) :
    Result (Pool × (Nat → Item P κ)) := do
  let (pool, name) ← relocateString old state.1 (state.2 index).name
  .ok (pool, Function.update state.2 index { state.2 index with name })

/-- `RECOMPUTE_STRING`. An address below the old base would wrap to a large offset. -/
def recomputeString (oldBase : Nat) (pool : Pool) (name : Option (Name κ)) : Result (Option (Name κ)) :=
  match name with
  | none => .ok none
  | some .emptyString => .ok (some .emptyString)
  | some (.own _) => .error .fault
  | some (.pooled address) => do
      coucalAssert .recomputedOffset (oldBase ≤ address ∧ address - oldBase < pool.capacity)
      .ok (some (.pooled (pool.buffer + (address - oldBase))))

/-- One pass of the recomputation loop over a slot. -/
def recomputeSlot (oldBase : Nat) (pool : Pool) (index : Nat) (items : Nat → Item P κ) :
    Result (Nat → Item P κ) := do
  let name ← recomputeString oldBase pool (items index).name
  .ok (Function.update items index { items index with name })

/-- The bytes of a block after `realloc`. -/
def resizeBytes (bytes : List UInt8) (capacity : Nat) : List UInt8 :=
  bytes.take capacity ++ List.replicate (capacity - bytes.length) 0

/-- `memcpy` into a block. -/
def writeBytes (bytes : List UInt8) (offset : Nat) (source : List UInt8) : Result (List UInt8) :=
  if offset + source.length ≤ bytes.length then
    .ok (bytes.take offset ++ source ++ bytes.drop (offset + source.length))
  else .error .fault

/-- The capacity search of `coucal_dup_name_internal`. After more rounds than the word has bits the
capacity is zero for good, so a search that is still running never ends. -/
def searchCapacity (P : Platform) (needed : Nat) : Nat → Nat → Result Nat
  | 0, _ => .error .hang
  | rounds + 1, capacity =>
      if capacity < needed then searchCapacity P needed rounds (capacity * 2 % 2 ^ P.wordSize)
      else .ok capacity

namespace Hashtable

/-- The object that a name designates now. -/
def key (t : Hashtable P κ) (name : Name κ) : Key κ := t.pool.key name

/-- `coucal_compact_pool` -/
def compactPool (env : Env P κ) (t : Hashtable P κ) (capacity : Nat) : Result (Hashtable P κ) := do
  coucalAssert .poolManaged (env.dup.isNone)
  let (buffer, t) ← t.malloc env .compactionMemory
  let pool : Pool := { buffer, bytes := List.replicate capacity 0, size := 0, capacity, used := 0 }
  let (pool, items) ← Outcome.forUpTo (relocateSlot t.pool) (2 ^ t.lgSize) (pool, t.items)
  let (pool, stashItems) ←
    Outcome.forUpTo (relocateSlot t.pool) t.stash.extent (pool, t.stash.items)
  .ok { t with
    items
    stash := { t.stash with items := stashItems }
    pool := { pool with used := pool.size } }

/-- `coucal_realloc_pool` -/
def reallocPool (env : Env P κ) (t : Hashtable P κ) (capacity : Nat) : Result (Hashtable P κ) := do
  coucalAssert .poolManaged (env.dup.isNone)
  if t.pool.used < t.pool.size * 3 % 2 ^ P.wordSize / 4 then
    t.compactPool env capacity
  else
    let oldBase := t.pool.buffer
    let (buffer, t) ← t.malloc env .reallocMemory
    let pool := { t.pool with buffer, capacity, bytes := resizeBytes t.pool.bytes capacity }
    if buffer = oldBase then .ok { t with pool }
    else
      let items ← Outcome.forUpTo (recomputeSlot oldBase pool) (2 ^ t.lgSize) t.items
      let stashItems ← Outcome.forUpTo (recomputeSlot oldBase pool) t.stash.extent t.stash.items
      .ok { t with items, stash := { t.stash with items := stashItems }, pool }

/-- `coucal_is_pooled` -/
def isPooled (t : Hashtable P κ) : Name κ → Bool
  | .pooled address =>
      t.pool.buffer ≠ 0 ∧ t.pool.buffer ≤ address ∧ address - t.pool.buffer < t.pool.capacity
  | _ => false

/-- The staging of a key inside the pool in private memory. The result names the bytes to copy. -/
def stageName (env : Env P κ) (t : Hashtable P κ) (name : Name κ) (text : CString) :
    Result (Name κ × Hashtable P κ) :=
  if t.isPooled name then do
    let (_, t) ← t.malloc env .stagingMemory
    .ok (.own (.string text), t)
  else .ok (name, t)

/-- The growth branch of `coucal_dup_name_internal`. -/
def growPool (env : Env P κ) (t : Hashtable P κ) (name : Name κ) (text : CString) :
    Result (Name κ × Hashtable P κ) := do
  let (name, t) ← t.stageName env name text
  let needed := (t.pool.size + (text.strlen + 1)) % 2 ^ P.wordSize
  let capacity ← searchCapacity P needed (P.wordSize + 1) minPoolCapacity
  coucalAssert .sizeInGrown (t.pool.size < capacity)
  let t ← t.reallocPool env capacity
  .ok (name, t)

/-- The pool grows when the bytes above the watermark are too few. -/
def makeRoom (env : Env P κ) (t : Hashtable P κ) (name : Name κ) (text : CString) :
    Result (Name κ × Hashtable P κ) :=
  if t.pool.capacity - t.pool.size < text.strlen + 1 then t.growPool env name text else .ok (name, t)

/-- `coucal_dup_name_internal` -/
def dupNameInternal (env : Env P κ) (t : Hashtable P κ) (name : Name κ) :
    Result (Name κ × Hashtable P κ) := do
  let text ← (t.key name).text
  let len := text.strlen + 1
  if len = 1 then .ok (.emptyString, t)
  else
    coucalAssert .sizeInCapacity (t.pool.size ≤ t.pool.capacity)
    let (name, t) ← t.makeRoom env name text
    coucalAssert .nameFits ((len + t.pool.size) % 2 ^ P.wordSize ≤ t.pool.capacity)
    let source ← (t.key name).text
    let bytes ← writeBytes t.pool.bytes t.pool.size (source.terminated.take len)
    .ok (.pooled (t.pool.buffer + t.pool.size),
      { t with pool := { t.pool with bytes, size := t.pool.size + len, used := t.pool.used + len } })

/-- `coucal_dup_name` -/
def dupName (env : Env P κ) (t : Hashtable P κ) (name : Name κ) :
    Result (Option (Name κ) × Hashtable P κ) :=
  match env.dup with
  | none => do
      let (copy, t) ← t.dupNameInternal env name
      .ok (some copy, t)
  | some dup =>
      let copy := dup t.calls.length (t.key name)
      .ok (copy.map .own, { t with calls := .dup (t.key name) copy :: t.calls })

/-- `coucal_free_key_internal` -/
def freeKeyInternal (env : Env P κ) (t : Hashtable P κ) (name : Name κ) : Result (Hashtable P κ) :=
  match name with
  | .emptyString => .ok t
  | .own _ => .error .fault
  | .pooled address => do
      let text := t.pool.stringAt address
      coucalAssert .duplicateRelease (text.chars ≠ [])
      let t := { t with pool := { t.pool with
        used := t.pool.used - (text.strlen + 1)
        bytes := t.pool.bytes.set (address - t.pool.buffer) 0 } }
      if t.pool.used ≠ 0 ∧ t.pool.used < t.pool.size / 2 then
        let capacity :=
          if t.pool.used < t.pool.capacity / 4 then t.pool.capacity / 2 else t.pool.capacity
        coucalAssert .usedInCapacity (t.pool.used < capacity)
        t.compactPool env capacity
      else .ok t

/-- `coucal_free_key` -/
def freeKey (env : Env P κ) (t : Hashtable P κ) (name : Name κ) : Result (Hashtable P κ) :=
  match env.dup with
  | none => t.freeKeyInternal env name
  | some _ => .ok { t with calls := .freeKey name :: t.calls }

end Hashtable
end Coucal
