import Mathlib.Algebra.Group.Nat.Defs
import Mathlib.Data.List.TakeWhile
import Mathlib.Logic.Function.Basic
import Coucal.Library.Outcome

namespace Coucal

/-- A build fixes the widths of a hash key, of `size_t` and `uintptr_t`, and of `int`, and the size
of an item in bytes. The language gives `size_t` at least 16 bits. -/
structure Platform where
  hashSize : Nat
  wordSize : Nat
  intSize : Nat
  itemSize : Nat
  word_ge : 16 ≤ wordSize := by decide
  deriving Repr, DecidableEq

/-- The default build on an LP64 system. -/
def Platform.lp64 : Platform := { hashSize := 32, wordSize := 64, intSize := 32, itemSize := 24 }

/-- `STASH_SIZE` -/
abbrev stashSize : Nat := 16

/-- `MIN_LG_SIZE` -/
abbrev minLgSize : Nat := 4

/-- `MIN_POOL_CAPACITY` -/
abbrev minPoolCapacity : Nat := 256

/-- `coucal_hashkey` -/
abbrev Hashkey (P : Platform) := BitVec P.hashSize

/-- `coucal_value`, read as its unsigned member. The NULL pointer is zero. -/
abbrev Value (P : Platform) := BitVec P.wordSize

/-- `coucal_hashkeys` -/
structure Hashkeys (P : Platform) where
  hash1 : Hashkey P
  hash2 : Hashkey P
  deriving Repr, DecidableEq

/-- `INTHASH_KEYS_NULL` -/
def Hashkeys.null (P : Platform) : Hashkeys P := ⟨0, 0⟩

/-- The characters of a C string before its terminator. -/
structure CString where
  chars : List UInt8
  noNul : (0 : UInt8) ∉ chars
  deriving DecidableEq

/-- `the_empty_string` -/
def CString.empty : CString := ⟨[], by simp⟩

/-- `strlen` -/
def CString.strlen (text : CString) : Nat := text.chars.length

/-- The bytes of a string in memory end with one NUL. -/
def CString.terminated (text : CString) : List UInt8 := text.chars ++ [0]

/-- The string that starts at the head of some bytes. -/
def CString.read (bytes : List UInt8) : CString where
  chars := bytes.takeWhile (· ≠ 0)
  noNul := by
    intro member
    have nonzero := List.mem_takeWhile_imp member
    simp at nonzero

/-- The object that a key pointer designates: a C string, or an object that only the handlers
understand. -/
inductive Key (κ : Type) where
  | string (text : CString)
  | object (value : κ)
  deriving DecidableEq

/-- A key pointer other than NULL. The addresses of the pool buffer are numbers; every other
object is named by its content. -/
inductive Name (κ : Type) where
  | own (key : Key κ)
  | emptyString
  | pooled (address : Nat)
  deriving DecidableEq

/-- `coucal_item` -/
structure Item (P : Platform) (κ : Type) where
  name : Option (Name κ)
  value : Value P
  hashes : Hashkeys P

/-- The content of an item after `memset` with zero. -/
def Item.null (P : Platform) (κ : Type) : Item P κ := ⟨none, 0, Hashkeys.null P⟩

/-- The stash keeps its live entries below `extent`, with holes. -/
structure Stash (P : Platform) (κ : Type) where
  items : Nat → Item P κ
  size : Nat
  extent : Nat

/-- The string pool. The buffer address is zero for NULL, and the bytes are those of the buffer. -/
structure Pool where
  buffer : Nat
  bytes : List UInt8
  size : Nat
  capacity : Nat
  used : Nat

/-- A call of one of the handlers. -/
inductive Call (P : Platform) (κ : Type) where
  | dup (name : Key κ) (copy : Option (Key κ))
  | freeKey (name : Name κ)
  | freeValue (value : Value P)

/-- `struct_coucal`. The last two fields record the handler calls, the latest first, and the
number of allocations so far. -/
structure Hashtable (P : Platform) (κ : Type) where
  lgSize : Nat
  items : Nat → Item P κ
  used : Nat
  stash : Stash P κ
  pool : Pool
  calls : List (Call P κ)
  allocs : Nat

/-- The handlers of `custom`, set before the first add, and the allocator. Without a `dup` handler
the table keeps its keys in the pool; `dup` and `free` are set together. The duplication handler
sees the number of earlier handler calls, and the allocator the number of earlier allocations. -/
structure Env (P : Platform) (κ : Type) where
  dup : Option (Nat → Key κ → Option (Key κ))
  hash : Key κ → Hashkeys P
  equals : Key κ → Key κ → Bool
  freeValue : Bool
  alloc : Nat → Nat

/-- The assertions of the program, in the order of the source. -/
inductive Assertion where
  | poolManaged          -- custom.key.dup == NULL
  | compactionMemory     -- ! "hashtable string pool compaction error"
  | compactedByte        -- dest < max_dest, &dest[i] < max_dest
  | compactedSize        -- pool.size <= capacity, in RELOCATE_STRING
  | reallocMemory        -- ! "hashtable string pool allocation error"
  | recomputedOffset     -- offset < pool.capacity
  | sizeInCapacity       -- pool.size <= pool.capacity
  | stagingMemory        -- ! "hashtable key staging error"
  | sizeInGrown          -- pool.size < capacity
  | nameFits             -- len + pool.size <= pool.capacity
  | duplicateRelease     -- *name != '\0' || ! "duplicate or bad string pool release"
  | usedInCapacity       -- pool.used < capacity
  | unexpectedPosition   -- ! "hashtable internal error: unexpected position"
  | stashCollision       -- ! "hashtable internal error: cuckoo/stash collision"
  | acceptablePow2       -- coucal_is_acceptable_pow2(lg_size)
  | sizeOverflow         -- !size_overflow
  | tableMemory          -- ! "hashtable allocation error"
  | relocatedPosition    -- pos >= prev_size
  | badPosition          -- ! "hashtable unexpected internal error (bad position)"
  | duplicateMerging     -- ! "hashtable duplicate key when merging the stash"
  | stashShrinks         -- stash.size <= old_size
  | incAdded             -- ret
  | usedNonzero          -- used != 0
  deriving Repr, DecidableEq

/-- A call that does not return fails an assertion, loops without end, or leaves the bounds of the
memory it may use. -/
inductive Failure where
  | assertion (which : Assertion)
  | hang
  | fault
  deriving Repr, DecidableEq

abbrev Result := Except Failure

/-- `coucal_assert` -/
abbrev coucalAssert (which : Assertion) (condition : Prop) [Decidable condition] : Result Unit :=
  Outcome.guard (.assertion which) condition

/-- A place that holds an item. -/
inductive Slot where
  | table (pos : Nat)
  | stash (index : Nat)
  deriving Repr, DecidableEq

namespace Hashtable

variable {P : Platform} {κ : Type}

def item (t : Hashtable P κ) : Slot → Item P κ
  | .table pos => t.items pos
  | .stash index => t.stash.items index

def setItem (t : Hashtable P κ) (slot : Slot) (item : Item P κ) : Hashtable P κ :=
  match slot with
  | .table pos => { t with items := Function.update t.items pos item }
  | .stash index => { t with stash := { t.stash with items := Function.update t.stash.items index item } }

/-- `malloc` and `realloc` take the next address from the allocator and check it. -/
def malloc (env : Env P κ) (t : Hashtable P κ) (which : Assertion) : Result (Nat × Hashtable P κ) := do
  let address := env.alloc t.allocs
  coucalAssert which (address ≠ 0)
  .ok (address, { t with allocs := t.allocs + 1 })

end Hashtable
end Coucal
