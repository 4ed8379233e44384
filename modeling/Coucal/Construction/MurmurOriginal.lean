import Coucal.Construction.Hash

namespace Coucal
namespace Murmur
namespace Original

/-- The host of the original. The alignment of a word divides its size. -/
structure Host where
  order : ByteOrder
  align : Nat
  align_dvd : align ∣ 4

/-- An `int` of 32 bits. An overflow is undefined. -/
def intOf (value : Int) : Result Int :=
  if -0x80000000 ≤ value ∧ value < 0x80000000 then .ok value else .error .fault

/-- `getblock32`, with the place of the pointer in words from the start of the key. -/
def getblock32 (order : ByteOrder) (data : List UInt8) (p i : Int) : Result (BitVec 32) :=
  if 0 ≤ p + i ∧ (p + i + 1) * 4 ≤ data.length then .ok (Murmur.getblock32 order data (p + i).toNat)
  else .error .fault

/-- The block loop, which counts up to zero. The rounds are a bound of the values of an `int`. -/
def mixBlocks (order : ByteOrder) (data : List UInt8) (blocks : Int) : Nat → Int → Lanes → Result Lanes
  | 0, _, _ => .error .hang
  | rounds + 1, i, h =>
      if i = 0 then .ok h
      else do
        let k1 ← getblock32 order data blocks (← intOf (i * 4 + 0))
        let k2 ← getblock32 order data blocks (← intOf (i * 4 + 1))
        let k3 ← getblock32 order data blocks (← intOf (i * 4 + 2))
        let k4 ← getblock32 order data blocks (← intOf (i * 4 + 3))
        let i ← intOf (i + 1)
        mixBlocks order data blocks rounds i (mixBlock ⟨k1, k2, k3, k4⟩ h)

/-- A byte of the tail, promoted to an `int` and shifted. A shift into the sign is undefined. -/
def shifted (data : List UInt8) (tail : Int) (i shift : Nat) : Result (BitVec 32) :=
  if 0 ≤ tail + i ∧ tail + i < data.length then
    let byte := byteAt data (tail + i).toNat
    if byte.toNat * 2 ^ shift < 2 ^ 31 then .ok (byte.setWidth 32 <<< shift) else .error .fault
  else .error .fault

/-- The statements of a case, on the words and on the lanes. -/
def tailCase (data : List UInt8) (tail : Int) (k h : Lanes) : Nat → Result (Lanes × Lanes)
  | 15 => do .ok ({ k with h4 := k.h4 ^^^ (← shifted data tail 14 16) }, h)
  | 14 => do .ok ({ k with h4 := k.h4 ^^^ (← shifted data tail 13 8) }, h)
  | 13 => do
      let k4 := k.h4 ^^^ (← shifted data tail 12 0)
      .ok ({ k with h4 := mixK4 k4 }, { h with h4 := h.h4 ^^^ mixK4 k4 })
  | 12 => do .ok ({ k with h3 := k.h3 ^^^ (← shifted data tail 11 24) }, h)
  | 11 => do .ok ({ k with h3 := k.h3 ^^^ (← shifted data tail 10 16) }, h)
  | 10 => do .ok ({ k with h3 := k.h3 ^^^ (← shifted data tail 9 8) }, h)
  | 9 => do
      let k3 := k.h3 ^^^ (← shifted data tail 8 0)
      .ok ({ k with h3 := mixK3 k3 }, { h with h3 := h.h3 ^^^ mixK3 k3 })
  | 8 => do .ok ({ k with h2 := k.h2 ^^^ (← shifted data tail 7 24) }, h)
  | 7 => do .ok ({ k with h2 := k.h2 ^^^ (← shifted data tail 6 16) }, h)
  | 6 => do .ok ({ k with h2 := k.h2 ^^^ (← shifted data tail 5 8) }, h)
  | 5 => do
      let k2 := k.h2 ^^^ (← shifted data tail 4 0)
      .ok ({ k with h2 := mixK2 k2 }, { h with h2 := h.h2 ^^^ mixK2 k2 })
  | 4 => do .ok ({ k with h1 := k.h1 ^^^ (← shifted data tail 3 24) }, h)
  | 3 => do .ok ({ k with h1 := k.h1 ^^^ (← shifted data tail 2 16) }, h)
  | 2 => do .ok ({ k with h1 := k.h1 ^^^ (← shifted data tail 1 8) }, h)
  | 1 => do
      let k1 := k.h1 ^^^ (← shifted data tail 0 0)
      .ok ({ k with h1 := mixK1 k1 }, { h with h1 := h.h1 ^^^ mixK1 k1 })
  | _ => .ok (k, h)

/-- The switch starts at a case and falls through the ones below. -/
def fallThrough (data : List UInt8) (tail : Int) : Nat → Lanes → Lanes → Result Lanes
  | 0, _, h => .ok h
  | n + 1, k, h => do
      let (k, h) ← tailCase data tail k h (n + 1)
      fallThrough data tail n k h

/-- `MurmurHash3_x86_128` of the original. The call converts the length to an `int`, and the pointer to the blocks is
cast to a pointer to words. -/
def murmurHash3_x86_128 (host : Host) (address : Nat) (key : List UInt8) (seed : BitVec 32) : Result Lanes := do
  let len : Int := (BitVec.ofNat 32 key.length).toInt
  let nblocks := len.tdiv 16
  if ¬ (host.align : Int) ∣ address + nblocks * 16 then .error .fault
  else
    let h ← mixBlocks host.order key (nblocks * 4) (2 ^ 32) (-nblocks) ⟨seed, seed, seed, seed⟩
    let h ← fallThrough key (nblocks * 16) (len % 16).toNat ⟨0, 0, 0, 0⟩ h
    .ok (finalize (BitVec.ofInt 32 len) h)

end Original
end Murmur
end Coucal
