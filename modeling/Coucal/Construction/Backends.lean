import Coucal.Construction.Hash

namespace Coucal

open Murmur

/-- The build with hash keys of 64 bits on an LP64 system. -/
def Platform.wide : Platform := { Platform.lp64 with hashSize := 64, itemSize := 32 }

/-- The end of `coucal_hash_data` with each method: do not keep identical hashes. -/
def separate {P : Platform} (hash1 hash2 : Hashkey P) : Hashkeys P :=
  if hash1 = hash2 then ⟨hash1, ~~~hash2⟩ else ⟨hash1, hash2⟩

/-- Two words of 32 bits in memory, read as one of 64 bits. -/
def joinWords (order : ByteOrder) (first second : BitVec 32) : BitVec 64 :=
  match order with
  | .little => second ++ first
  | .big => first ++ second

/-- `coucal_hash_data` with Murmur and hash keys of 64 bits. -/
def hashDataWide (order : ByteOrder) (data : List UInt8) : Hashkeys Platform.wide :=
  let result := murmurHash3_x86_128 order data 42
  separate (P := .wide) (joinWords order result.h1 result.h2) (joinWords order result.h3 result.h4)

namespace Fnv1

/-- `FNV1_PRIME` -/
abbrev prime : BitVec 64 := 1099511628211

/-- `FNV1_OFFSET_BASIS` -/
abbrev offsetBasis : BitVec 64 := 14695981039346656037

/-- A byte enters a hash. -/
def step (h : BitVec 64) (c : BitVec 8) : BitVec 64 := (h * prime) ^^^ c.setWidth 64

/-- The first hash of the loop. -/
def h1 (data : List UInt8) : BitVec 64 := data.foldl (fun h byte => step h byte.toBitVec) offsetBasis

/-- The second hash of the loop, with the complements of the data. -/
def h2 (data : List UInt8) : BitVec 64 := data.foldl (fun h byte => step h (~~~byte.toBitVec)) (~~~offsetBasis)

/-- The fold of a hash into 32 bits. -/
def fold (h : BitVec 64) : BitVec 32 := h.setWidth 32 ^^^ (h >>> 32).setWidth 32

/-- `coucal_hash_data` with FNV-1 and hash keys of 32 bits. -/
def hashData (data : List UInt8) : Hashkeys Platform.lp64 :=
  separate (P := .lp64) (fold (h1 data)) (fold (h2 data))

/-- `coucal_hash_data` with FNV-1 and hash keys of 64 bits. -/
def hashDataWide (data : List UInt8) : Hashkeys Platform.wide := separate (P := .wide) (h1 data) (h2 data)

example : hashData [11] = ⟨0x29620a98, 0x29620729⟩ := by decide +kernel

example : hashDataWide [] = ⟨0xcbf29ce484222325, 0x340d631b7bdddcda⟩ := by decide +kernel

end Fnv1

/-- The MD5 implementation of the build: a context, what an update does to it, and the digest. -/
structure Md5 (σ : Type) where
  init : σ
  update : σ → List UInt8 → σ
  final : σ → List UInt8

namespace Md5

variable {σ : Type}

/-- The size that an update takes as an `unsigned int`. -/
def chunk (P : Platform) (remaining : Nat) : Nat :=
  (if remaining ≤ 0x10000000 then remaining else 0x10000000) % 2 ^ P.intSize

/-- The loop that feeds the data by chunks, from an offset on. A pass with an empty chunk changes nothing, so
a loop that is still running after as many passes as there are bytes never ends. -/
def feed (P : Platform) (md5 : Md5 σ) (data : List UInt8) (size : Nat) : Nat → Nat → σ → Result σ
  | 0, _, _ => .error .hang
  | rounds + 1, offset, ctx =>
      if offset < size then
        let chunk := chunk P (size - offset)
        let piece := (data.drop offset).take chunk
        md5.feed P data size rounds ((offset + chunk) % 2 ^ P.wordSize) (md5.update ctx piece)
      else .ok ctx

/-- The digest that `coucal_hash_data` computes, for a size that is a `size_t`. -/
def digest (P : Platform) (md5 : Md5 σ) (data : List UInt8) : Result (List UInt8) := do
  let size := data.length % 2 ^ P.wordSize
  let ctx ← md5.feed P data size (size + 1) 0 md5.init
  .ok (md5.final ctx)

/-- `coucal_hash_data` with MD5 and hash keys of 32 bits, which mixes the halves of the digest. -/
def hashData (order : ByteOrder) (md5 : Md5 σ) (data : List UInt8) : Result (Hashkeys Platform.lp64) := do
  let md5digest ← md5.digest Platform.lp64 data
  let word := getblock32 order md5digest
  .ok (separate (P := .lp64) (word 0 ^^^ word 2) (word 1 ^^^ word 3))

/-- `coucal_hash_data` with MD5 and hash keys of 64 bits. -/
def hashDataWide (order : ByteOrder) (md5 : Md5 σ) (data : List UInt8) : Result (Hashkeys Platform.wide) := do
  let md5digest ← md5.digest Platform.wide data
  let word := getblock32 order md5digest
  .ok (separate (P := .wide) (joinWords order (word 0) (word 1)) (joinWords order (word 2) (word 3)))

end Md5
end Coucal
