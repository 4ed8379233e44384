import Coucal.Construction.Data

namespace Coucal
namespace Murmur

/-- The order of the bytes of a word in memory. -/
inductive ByteOrder where
  | little
  | big
  deriving Repr, DecidableEq

/-- The four words of a block, and the four lanes of the hash. -/
structure Lanes where
  h1 : BitVec 32
  h2 : BitVec 32
  h3 : BitVec 32
  h4 : BitVec 32
  deriving Repr, DecidableEq

/-- `rotl32` -/
def rotl32 (x : BitVec 32) (r : Nat) : BitVec 32 := (x <<< r) ||| (x >>> (32 - r))

/-- A byte of memory. -/
def byteAt (p : List UInt8) (i : Nat) : BitVec 8 := (p.getD i 0).toBitVec

/-- `getblock32` -/
def getblock32 (order : ByteOrder) (p : List UInt8) (i : Nat) : BitVec 32 :=
  match order with
  | .little => byteAt p (i * 4 + 3) ++ byteAt p (i * 4 + 2) ++ byteAt p (i * 4 + 1) ++ byteAt p (i * 4)
  | .big => byteAt p (i * 4) ++ byteAt p (i * 4 + 1) ++ byteAt p (i * 4 + 2) ++ byteAt p (i * 4 + 3)

/-- `fmix32` -/
def fmix32 (h : BitVec 32) : BitVec 32 :=
  let h := h ^^^ (h >>> 16)
  let h := h * 0x85ebca6b
  let h := h ^^^ (h >>> 13)
  let h := h * 0xc2b2ae35
  h ^^^ (h >>> 16)

abbrev c1 : BitVec 32 := 0x239b961b

abbrev c2 : BitVec 32 := 0xab0e9789

abbrev c3 : BitVec 32 := 0x38b34ae5

abbrev c4 : BitVec 32 := 0xa1e38b93

/-- The mixing of a word of the key: a product, a rotation and a product. -/
def mixWord (c c' : BitVec 32) (r : Nat) (k : BitVec 32) : BitVec 32 := rotl32 (k * c) r * c'

def mixK1 : BitVec 32 → BitVec 32 := mixWord c1 c2 15

def mixK2 : BitVec 32 → BitVec 32 := mixWord c2 c3 16

def mixK3 : BitVec 32 → BitVec 32 := mixWord c3 c4 17

def mixK4 : BitVec 32 → BitVec 32 := mixWord c4 c1 18

/-- One pass of the block loop. The last lane takes the new first lane. -/
def mixBlock (k h : Lanes) : Lanes :=
  let h1 := (rotl32 (h.h1 ^^^ mixK1 k.h1) 19 + h.h2) * 5 + 0x561ccd1b
  let h2 := (rotl32 (h.h2 ^^^ mixK2 k.h2) 17 + h.h3) * 5 + 0x0bcaa747
  let h3 := (rotl32 (h.h3 ^^^ mixK3 k.h3) 15 + h.h4) * 5 + 0x96cd1c35
  let h4 := (rotl32 (h.h4 ^^^ mixK4 k.h4) 13 + h1) * 5 + 0x32ac3b17
  ⟨h1, h2, h3, h4⟩

/-- The four words of a block of the key. -/
def blockAt (order : ByteOrder) (data : List UInt8) (index : Nat) : Lanes :=
  ⟨getblock32 order data (index * 4 + 0), getblock32 order data (index * 4 + 1),
    getblock32 order data (index * 4 + 2), getblock32 order data (index * 4 + 3)⟩

/-- The block loop. The source counts its blocks from the end of the last one. -/
def mixBlocks (order : ByteOrder) (data : List UInt8) : Nat → Lanes → Lanes
  | 0, h => h
  | nblocks + 1, h => mixBlock (blockAt order data nblocks) (mixBlocks order data nblocks h)

/-- A byte of the tail, shifted into its word. The switch falls through the cases below the length, so the
byte is left out at a shorter one. -/
def tailByte (tail : List UInt8) (len i shift : Nat) : BitVec 32 :=
  if i < len then (byteAt tail i).setWidth 32 <<< shift else 0

/-- The tail. A lane is mixed when the tail has a byte of its word. -/
def mixTail (tail : List UInt8) (len : Nat) (h : Lanes) : Lanes :=
  let k4 := tailByte tail len 14 16 ^^^ tailByte tail len 13 8 ^^^ tailByte tail len 12 0
  let k3 := tailByte tail len 11 24 ^^^ tailByte tail len 10 16 ^^^ tailByte tail len 9 8 ^^^
    tailByte tail len 8 0
  let k2 := tailByte tail len 7 24 ^^^ tailByte tail len 6 16 ^^^ tailByte tail len 5 8 ^^^
    tailByte tail len 4 0
  let k1 := tailByte tail len 3 24 ^^^ tailByte tail len 2 16 ^^^ tailByte tail len 1 8 ^^^
    tailByte tail len 0 0
  { h1 := if 0 < len then h.h1 ^^^ mixK1 k1 else h.h1
    h2 := if 4 < len then h.h2 ^^^ mixK2 k2 else h.h2
    h3 := if 8 < len then h.h3 ^^^ mixK3 k3 else h.h3
    h4 := if 12 < len then h.h4 ^^^ mixK4 k4 else h.h4 }

/-- The sums before and after the final mixing. -/
def addLanes (h : Lanes) : Lanes :=
  let h1 := h.h1 + h.h2 + h.h3 + h.h4
  ⟨h1, h.h2 + h1, h.h3 + h1, h.h4 + h1⟩

def Lanes.map (f : BitVec 32 → BitVec 32) (h : Lanes) : Lanes := ⟨f h.h1, f h.h2, f h.h3, f h.h4⟩

/-- The finalization of `MurmurHash3_x86_128`. -/
def finalize (len : BitVec 32) (h : Lanes) : Lanes :=
  addLanes ((addLanes (h.map (· ^^^ len))).map fmix32)

/-- `MurmurHash3_x86_128` -/
def murmurHash3_x86_128 (order : ByteOrder) (key : List UInt8) (seed : BitVec 32) : Lanes :=
  let nblocks := key.length / 16
  let h := mixBlocks order key nblocks ⟨seed, seed, seed, seed⟩
  let h := mixTail (key.drop (nblocks * 16)) (key.length % 16) h
  finalize (BitVec.ofNat 32 key.length) h

end Murmur

open Murmur

/-- The fold of the four lanes into two hashes. -/
def foldLanes (result : Lanes) : Hashkeys Platform.lp64 :=
  let hash1 := result.h1 ^^^ result.h3
  let hash2 := result.h2 ^^^ result.h4
  -- do not keep identical hashes
  if hash1 = hash2 then ⟨hash1, ~~~hash2⟩ else ⟨hash1, hash2⟩

/-- `coucal_hash_data` with Murmur and hash keys of 32 bits. -/
def hashData (order : ByteOrder) (data : List UInt8) : Hashkeys Platform.lp64 :=
  foldLanes (murmurHash3_x86_128 order data 42)

example : hashData .little ((List.range 17).map fun i => UInt8.ofNat (i * 37 + 11)) = ⟨0xde07a68f, 0xa24806bd⟩ := by
  decide +kernel

/-- `coucal_hash_string` -/
def hashString (order : ByteOrder) (name : CString) : Hashkeys Platform.lp64 := hashData order name.chars

end Coucal
