import Coucal.Construction.Pool

namespace Coucal

variable {P : Platform} {κ : Type}

/-- `coucal_hash_to_pos_` -/
def hashToPos_ (lgSize : Nat) (hash : Hashkey P) : Nat :=
  let mask : Hashkey P := BitVec.ofNat P.hashSize (2 ^ lgSize - 1)
  (hash &&& mask).toNat

/-- `coucal_is_acceptable_pow2` -/
def isAcceptablePow2 (P : Platform) (lgSize : Nat) : Bool :=
  lgSize ≤ P.hashSize ∧ lgSize < P.wordSize

/-- The eviction loop of `coucal_add_item_` carries one item without a place. It returns the item
that is left for the stash, if any. -/
def evict (lgSize : Nat) (initialHash : Hashkey P) :
    Nat → (Nat → Item P κ) → Item P κ → Hashkey P → Result ((Nat → Item P κ) × Option (Item P κ))
  | 0, items, item, _ => .ok (items, some item)
  | loops + 1, items, item, cuckooHash =>
      let pos := hashToPos_ lgSize cuckooHash
      if (items pos).name.isNone then .ok (Function.update items pos item, none)
      else
        let backup := items pos
        let items := Function.update items pos item
        if pos = hashToPos_ lgSize backup.hashes.hash1 then
          if backup.hashes.hash2 = initialHash then .ok (items, some backup)
          else evict lgSize initialHash loops items backup backup.hashes.hash2
        else if pos = hashToPos_ lgSize backup.hashes.hash2 then
          if backup.hashes.hash1 = initialHash then .ok (items, some backup)
          else evict lgSize initialHash loops items backup backup.hashes.hash1
        else .error (.assertion .unexpectedPosition)

/-- The first hole below the extent, or else the extent. -/
def Stash.firstHole (stash : Stash P κ) : Nat :=
  ((List.range stash.extent).find? fun i => (stash.items i).name.isNone).getD stash.extent

/-- The emergency stashing of `coucal_add_item_`. -/
def Stash.insert (stash : Stash P κ) (item : Item P κ) : Stash P κ where
  items := Function.update stash.items stash.firstHole item
  size := stash.size + 1
  extent := if stash.firstHole = stash.extent then stash.extent + 1 else stash.extent

/-- The loop that lowers the extent to the last live entry. -/
def trimExtent (items : Nat → Item P κ) : Nat → Nat
  | 0 => 0
  | extent + 1 => if (items extent).name.isNone then trimExtent items extent else extent + 1

def Stash.trim (stash : Stash P κ) : Stash P κ :=
  { stash with extent := trimExtent stash.items stash.extent }

namespace Hashtable

/-- `coucal_hash_to_pos` -/
def hashToPos (t : Hashtable P κ) (hash : Hashkey P) : Nat := hashToPos_ t.lgSize hash

/-- `coucal_is_free` -/
def isFree (t : Hashtable P κ) (pos : Nat) : Bool := (t.items pos).name.isNone

/-- `coucal_calc_hashes` -/
def calcHashes (env : Env P κ) (t : Hashtable P κ) (name : Name κ) : Hashkeys P :=
  env.hash (t.key name)

/-- `coucal_equals` -/
def equals (env : Env P κ) (t : Hashtable P κ) (a b : Name κ) : Bool :=
  env.equals (t.key a) (t.key b)

/-- `coucal_matches_` -/
def matches_ (env : Env P κ) (t : Hashtable P κ) (item : Item P κ) (name : Name κ)
    (hashes : Hashkeys P) : Bool :=
  match item.name with
  | none => false
  | some stored =>
      item.hashes.hash1 = hashes.hash1 ∧ item.hashes.hash2 = hashes.hash2 ∧ t.equals env stored name

/-- The three probes that `coucal_write_value_`, `coucal_fetch_value_hashes` and `coucal_remove_`
share: position 1, position 2, and the stash if it has entries. -/
def locate (env : Env P κ) (t : Hashtable P κ) (name : Name κ) (hashes : Hashkeys P) : Option Slot :=
  if t.matches_ env (t.items (t.hashToPos hashes.hash1)) name hashes then
    some (.table (t.hashToPos hashes.hash1))
  else if t.matches_ env (t.items (t.hashToPos hashes.hash2)) name hashes then
    some (.table (t.hashToPos hashes.hash2))
  else if t.stash.size ≠ 0 then
    ((List.range t.stash.extent).find? fun i =>
      t.matches_ env (t.stash.items i) name hashes).map .stash
  else none

/-- `coucal_del_value_` -/
def delValue_ (env : Env P κ) (t : Hashtable P κ) (slot : Slot) : Hashtable P κ :=
  let value := (t.item slot).value
  if value ≠ 0 then
    let t := if env.freeValue then { t with calls := .freeValue value :: t.calls } else t
    t.setItem slot { t.item slot with value := 0 }
  else t

/-- `coucal_del_name` -/
def delName (env : Env P κ) (t : Hashtable P κ) (slot : Slot) : Result (Hashtable P κ) :=
  match (t.item slot).name with
  | none => .error .fault
  | some name =>
      (t.setItem slot { t.item slot with name := none, hashes := Hashkeys.null P }).freeKey env name

/-- `coucal_del_item` -/
def delItem (env : Env P κ) (t : Hashtable P κ) (slot : Slot) : Result (Hashtable P κ) :=
  (t.delValue_ env slot).delName env slot

/-- `coucal_add_item_` -/
def addItem_ (t : Hashtable P κ) (item : Item P κ) : Result (Bool × Hashtable P κ) := do
  let pos1 := t.hashToPos item.hashes.hash1
  let pos2 := t.hashToPos item.hashes.hash2
  if t.isFree pos1 then .ok (true, { t with items := Function.update t.items pos1 item })
  else if t.isFree pos2 then .ok (true, { t with items := Function.update t.items pos2 item })
  else
    let (items, left) ←
      evict t.lgSize item.hashes.hash1 (2 ^ t.lgSize) t.items item item.hashes.hash1
    let t := { t with items }
    match left with
    | none => .ok (true, t)
    | some item =>
        coucalAssert .stashCollision (t.stash.size < stashSize)
        .ok (true, { t with stash := t.stash.insert item })

/-- An entry of the stash moves to a free table slot. -/
def unstash (t : Hashtable P κ) (index pos : Nat) : Hashtable P κ :=
  { t with
    items := Function.update t.items pos (t.stash.items index)
    stash := { t.stash with
      items := Function.update t.stash.items index (Item.null P κ)
      size := t.stash.size - 1 } }

/-- One pass of the loop of `coucal_drain_stash`. -/
def drainEntry (t : Hashtable P κ) (index : Nat) : Hashtable P κ :=
  let item := t.stash.items index
  if item.name.isNone then t
  else
    let pos1 := t.hashToPos item.hashes.hash1
    let pos2 := t.hashToPos item.hashes.hash2
    if t.isFree pos1 then t.unstash index pos1
    else if t.isFree pos2 then t.unstash index pos2
    else t

/-- The drain loop over the entries below an index. -/
def drainEntries (t : Hashtable P κ) : Nat → Hashtable P κ
  | 0 => t
  | index + 1 => (t.drainEntries index).drainEntry index

/-- `coucal_drain_stash` -/
def drainStash (t : Hashtable P κ) : Hashtable P κ :=
  let t := t.drainEntries t.stash.extent
  { t with stash := t.stash.trim }

/-- `coucal_write_value_` -/
def writeValue_ (env : Env P κ) (t : Hashtable P κ) (name : Name κ) (value : Value P) :
    Result (Bool × Hashtable P κ) :=
  let hashes := t.calcHashes env name
  match t.locate env name hashes with
  | some slot =>
      let t := t.delValue_ env slot
      .ok (false, t.setItem slot { t.item slot with value })
  | none => do
      let t := if t.stash.size ≠ 0 then t.drainStash else t
      let (copy, t) ← t.dupName env name
      t.addItem_ { name := copy, value, hashes }

/-- An item of the lower half moves to its position in the doubled table, unless it is there. -/
def moveSlot (prevSize index pos : Nat) (t : Hashtable P κ) : Result (Hashtable P κ) :=
  if pos ≠ index then do
    coucalAssert .relocatedPosition (prevSize ≤ pos)
    .ok { t with
      items := Function.update (Function.update t.items pos (t.items index)) index (Item.null P κ) }
  else .ok t

/-- One pass of the relocation loop of `coucal_write_value`. -/
def splitSlot (prevPower prevSize index : Nat) (t : Hashtable P κ) : Result (Hashtable P κ) :=
  let hashes := (t.items index).hashes
  if t.isFree index then .ok t
  else if hashToPos_ prevPower hashes.hash1 = index then
    moveSlot prevSize index (t.hashToPos hashes.hash1) t
  else if hashToPos_ prevPower hashes.hash2 = index then
    moveSlot prevSize index (t.hashToPos hashes.hash2) t
  else .error (.assertion .badPosition)

/-- The doubling of the table in `coucal_write_value`. -/
def expand (env : Env P κ) (t : Hashtable P κ) : Result (Hashtable P κ) := do
  let prevPower := t.lgSize
  let prevSize := 2 ^ (t.lgSize - 1) * 2
  let t := { t with lgSize := t.lgSize + 1 }
  coucalAssert .acceptablePow2 (isAcceptablePow2 P t.lgSize)
  coucalAssert .sizeOverflow (prevSize ≤ (2 ^ P.wordSize - 1) / (2 * P.itemSize))
  let (_, t) ← t.malloc env .tableMemory
  let t := { t with items := fun i =>
    if prevSize ≤ i ∧ i < prevSize * 2 then Item.null P κ else t.items i }
  Outcome.forUpTo (splitSlot prevPower prevSize) prevSize t

/-- One pass of the loop that inserts the saved stash again. -/
def mergeEntry (saved : Stash P κ) (index : Nat) (t : Hashtable P κ) : Result (Hashtable P κ) :=
  if (saved.items index).name.isNone then .ok t
  else do
    let (added, t) ← t.addItem_ (saved.items index)
    coucalAssert .duplicateMerging (added = true)
    .ok t

/-- The merge of the stash in `coucal_write_value`. -/
def mergeStash (t : Hashtable P κ) : Result (Hashtable P κ) := do
  if t.stash.size ≠ 0 then
    let saved := t.stash
    let t := { t with stash := { items := fun _ => Item.null P κ, size := 0, extent := 0 } }
    let t ← Outcome.forUpTo (mergeEntry saved) saved.extent t
    coucalAssert .stashShrinks (t.stash.size ≤ saved.size)
    .ok t
  else .ok t

/-- `coucal_write_value` -/
def writeValue (env : Env P κ) (t : Hashtable P κ) (name : Name κ) (value : Value P) :
    Result (Bool × Hashtable P κ) := do
  let (added, t) ← t.writeValue_ env name value
  if added then
    let halfSize := 2 ^ (t.lgSize - 1)
    let t := { t with used := t.used + 1 }
    if halfSize ≤ t.used ∨ stashSize / 2 ≤ t.stash.size then
      let t ← t.expand env
      let t ← t.mergeStash
      .ok (added, t)
    else .ok (added, t)
  else .ok (added, t)

/-- `coucal_fetch_value_hashes`. The result is the place of the value. -/
def fetchValueHashes (env : Env P κ) (t : Hashtable P κ) (name : Name κ) (hashes : Hashkeys P) :
    Option Slot :=
  t.locate env name hashes

/-- `coucal_fetch_value` -/
def fetchValue (env : Env P κ) (t : Hashtable P κ) (name : Name κ) : Option Slot :=
  t.fetchValueHashes env name (t.calcHashes env name)

/-- `coucal_read_value` -/
def readValue (env : Env P κ) (t : Hashtable P κ) (name : Name κ) : Option (Value P) :=
  (t.fetchValue env name).map fun slot => (t.item slot).value

/-- `coucal_exists` -/
def exists_ (env : Env P κ) (t : Hashtable P κ) (name : Name κ) : Bool :=
  (t.readValue env name).isSome

/-- `coucal_nitems` -/
def nitems (t : Hashtable P κ) : Nat := t.used

/-- `coucal_inc_` -/
def inc_ (env : Env P κ) (t : Hashtable P κ) (name : Name κ) (inc : Value P) :
    Result (Value P × Hashtable P κ) :=
  match t.fetchValue env name with
  | some slot =>
      let value := (t.item slot).value + inc
      .ok (value, t.setItem slot { t.item slot with value })
  | none => do
      let (added, t) ← t.writeValue env name inc
      coucalAssert .incAdded (added = true)
      .ok (inc, t)

/-- `coucal_inc` -/
def inc (env : Env P κ) (t : Hashtable P κ) (name : Name κ) :
    Result (BitVec P.intSize × Hashtable P κ) := do
  let (value, t) ← t.inc_ env name 1
  .ok (value.setWidth P.intSize, t)

/-- `coucal_dec` -/
def dec (env : Env P κ) (t : Hashtable P κ) (name : Name κ) :
    Result (BitVec P.intSize × Hashtable P κ) := do
  let (value, t) ← t.inc_ env name (-1)
  .ok (value.setWidth P.intSize, t)

/-- `coucal_remove_`. A removal from the stash leaves a hole and trims the extent. -/
def remove_ (env : Env P κ) (t : Hashtable P κ) (name : Name κ) (hashes : Hashkeys P) :
    Result (Bool × Hashtable P κ) :=
  match t.locate env name hashes with
  | some (.table pos) => do
      let t ← t.delItem env (.table pos)
      .ok (true, t)
  | some (.stash index) => do
      let t ← t.delItem env (.stash index)
      .ok (true, { t with stash := Stash.trim { t.stash with size := t.stash.size - 1 } })
  | none => .ok (false, t)

/-- `coucal_remove` -/
def remove (env : Env P κ) (t : Hashtable P κ) (name : Name κ) : Result (Bool × Hashtable P κ) := do
  let (removed, t) ← t.remove_ env name (t.calcHashes env name)
  if removed then
    coucalAssert .usedNonzero (t.used ≠ 0)
    .ok (removed, { t with used := t.used - 1 })
  else .ok (removed, t)

end Hashtable

/-- The search of `coucal_get_pow2`. -/
def searchPow2 (P : Platform) (initialSize : Nat) : Nat → Nat → Nat
  | 0, size => size
  | rounds + 1, size =>
      if isAcceptablePow2 P size ∧ 2 ^ size < initialSize then searchPow2 P initialSize rounds (size + 1)
      else size

/-- `coucal_get_pow2`. No size above the hash width is acceptable, which bounds the rounds. -/
def getPow2 (P : Platform) (initialSize : Nat) : Nat :=
  searchPow2 P initialSize (P.hashSize + 1) minLgSize

/-- `coucal_new` -/
def Hashtable.new (env : Env P κ) (initialSize : Nat) : Option (Hashtable P κ) :=
  let lgSize := getPow2 P initialSize
  if ¬ isAcceptablePow2 P lgSize then none
  else if env.alloc 0 ≠ 0 ∧ env.alloc 1 ≠ 0 then
    some {
      lgSize
      items := fun _ => Item.null P κ
      used := 0
      stash := { items := fun _ => Item.null P κ, size := 0, extent := 0 }
      pool := { buffer := 0, bytes := [], size := 0, capacity := 0, used := 0 }
      calls := []
      allocs := 2 }
  else none

namespace Hashtable

/-- One pass of a loop of `coucal_delete`. -/
def deleteSlot (env : Env P κ) (slot : Slot) (t : Hashtable P κ) : Result (Hashtable P κ) :=
  if (t.item slot).name.isNone then .ok t
  else
    let t := t.delValue_ env slot
    if env.dup.isSome then t.delName env slot else .ok t

/-- `coucal_delete`, up to the release of the memory blocks. -/
def delete (env : Env P κ) (t : Hashtable P κ) : Result (Hashtable P κ) := do
  let t ← Outcome.forUpTo (fun i t => deleteSlot env (.table i) t) (2 ^ t.lgSize) t
  let t ← Outcome.forUpTo (fun i t => deleteSlot env (.stash i) t) t.stash.extent t
  .ok { t with lgSize := 0, used := 0 }

/-- The first index from a start that the test does not skip, or else the bound. -/
def skipWhile (skip : Nat → Bool) : Nat → Nat → Nat
  | 0, index => index
  | rounds + 1, index => if skip index then skipWhile skip rounds (index + 1) else index

/-- `coucal_enum_next`. The enumerator `coucal_enum_new` starts with index zero, and the result is the
new index with the place of the next item. -/
def enumNext (t : Hashtable P κ) (index : Nat) : Nat × Option Slot :=
  let hashSize := 2 ^ t.lgSize
  let index := skipWhile t.isFree (hashSize - index) index
  if index < hashSize then (index + 1, some (.table index))
  else
    let bound := hashSize + t.stash.extent
    let index :=
      skipWhile (fun i => (t.stash.items (i - hashSize)).name.isNone) (bound - index) index
    if index < bound then (index + 1, some (.stash (index - hashSize))) else (index, none)

end Hashtable
end Coucal
