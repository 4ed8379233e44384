import Coucal.Construction.Hash
import Coucal.Library.Words

namespace Coucal.Murmur

open Words Function

theorem fmix32_injective : Injective fmix32 := by
  have first := xorShift_injective (w := 32) (by decide : 0 < 16)
  have second := xorShift_injective (w := 32) (by decide : 0 < 13)
  have product := mul_injective (by decide : (0x85ebca6b : BitVec 32) * 2781581891 = 1)
  have product' := mul_injective (by decide : (0xc2b2ae35 : BitVec 32) * 2127672349 = 1)
  exact first.comp (product'.comp (second.comp (product.comp first)))

theorem mixWord_injective {c c' d d' : BitVec 32} {r : Nat} (unit : c * d = 1) (unit' : c' * d' = 1)
    (inside : r < 32) : Injective (mixWord c c' r) :=
  (mul_injective unit').comp ((rotate_injective inside).comp (mul_injective unit))

theorem mixK1_injective : Injective mixK1 :=
  mixWord_injective (by decide : c1 * 2311672851 = 1) (by decide : c2 * 3742568121 = 1) (by decide)

theorem mixK2_injective : Injective mixK2 :=
  mixWord_injective (by decide : c2 * 3742568121 = 1) (by decide : c3 * 1954046701 = 1) (by decide)

theorem mixK3_injective : Injective mixK3 :=
  mixWord_injective (by decide : c3 * 1954046701 = 1) (by decide : c4 * 1490438811 = 1) (by decide)

theorem mixK4_injective : Injective mixK4 :=
  mixWord_injective (by decide : c4 * 1490438811 = 1) (by decide : c1 * 2311672851 = 1) (by decide)

/-- What the block loop does to a lane is onto in the word of the key. -/
theorem lane_surjective {mix : BitVec 32 → BitVec 32} (injective : Injective mix) {r : Nat} (inside : r < 32)
    (lane next constant : BitVec 32) :
    Surjective fun k => (rotl32 (lane ^^^ mix k) r + next) * 5 + constant := by
  have mixed : Injective fun k => lane ^^^ mix k := fun _ _ same =>
    injective ((BitVec.xor_right_inj lane).mp same)
  have summed : Injective fun word : BitVec 32 => word + next := fun _ _ same =>
    (BitVec.add_left_inj next).mp same
  have shifted : Injective fun word : BitVec 32 => word + constant := fun _ _ same =>
    (BitVec.add_left_inj constant).mp same
  have product := mul_injective (by decide : (5 : BitVec 32) * 3435973837 = 1)
  exact surjective_of_injective (shifted.comp (product.comp (summed.comp ((rotate_injective inside).comp mixed))))

/-- Each four lanes are the result of a block. -/
theorem mixBlock_surjective (h : Lanes) : Surjective fun k => mixBlock k h := by
  intro target
  obtain ⟨k1, first⟩ := lane_surjective mixK1_injective (by decide : 19 < 32) h.h1 h.h2 0x561ccd1b target.h1
  obtain ⟨k2, second⟩ := lane_surjective mixK2_injective (by decide : 17 < 32) h.h2 h.h3 0x0bcaa747 target.h2
  obtain ⟨k3, third⟩ := lane_surjective mixK3_injective (by decide : 15 < 32) h.h3 h.h4 0x96cd1c35 target.h3
  obtain ⟨k4, fourth⟩ := lane_surjective mixK4_injective (by decide : 13 < 32) h.h4 target.h1 0x32ac3b17 target.h4
  refine ⟨⟨k1, k2, k3, k4⟩, ?_⟩
  dsimp only at first second third fourth
  simp only [mixBlock, first, second, third, fourth]

theorem Lanes.map_surjective {f : BitVec 32 → BitVec 32} (surjective : Surjective f) :
    Surjective (Lanes.map f) := by
  intro target
  obtain ⟨h1, first⟩ := surjective target.h1
  obtain ⟨h2, second⟩ := surjective target.h2
  obtain ⟨h3, third⟩ := surjective target.h3
  obtain ⟨h4, fourth⟩ := surjective target.h4
  refine ⟨⟨h1, h2, h3, h4⟩, ?_⟩
  simp only [Lanes.map, first, second, third, fourth]

/-- The sums can be taken back, the last ones first. -/
theorem addLanes_surjective : Surjective addLanes := by
  intro target
  let h2 := target.h2 - target.h1
  let h3 := target.h3 - target.h1
  let h4 := target.h4 - target.h1
  refine ⟨⟨target.h1 - h4 - h3 - h2, h2, h3, h4⟩, ?_⟩
  simp only [addLanes, h2, h3, h4, BitVec.sub_add_cancel]

/-- Each four lanes are the result of the finalization. -/
theorem finalize_surjective (len : BitVec 32) : Surjective (finalize len) := by
  have length : Injective fun lane : BitVec 32 => lane ^^^ len := fun _ _ same =>
    (BitVec.xor_left_inj len).mp same
  exact addLanes_surjective.comp ((Lanes.map_surjective (surjective_of_injective fmix32_injective)).comp
    (addLanes_surjective.comp (Lanes.map_surjective (surjective_of_injective length))))

section Data

variable {order : ByteOrder} {data data' : List UInt8}

theorem getblock32_congr {i : Nat} (same : ∀ j, i * 4 ≤ j → j < i * 4 + 4 → byteAt data j = byteAt data' j) :
    getblock32 order data i = getblock32 order data' i := by
  have first := same (i * 4) (Nat.le_refl _) (by omega)
  have second := same (i * 4 + 1) (by omega) (by omega)
  have third := same (i * 4 + 2) (by omega) (by omega)
  have fourth := same (i * 4 + 3) (by omega) (by omega)
  cases order <;> simp only [getblock32, first, second, third, fourth]

theorem blockAt_congr {index : Nat} (same : ∀ j < 16, byteAt data (index * 16 + j) = byteAt data' (index * 16 + j)) :
    blockAt order data index = blockAt order data' index := by
  have words : ∀ q < 4, getblock32 order data (index * 4 + q) = getblock32 order data' (index * 4 + q) := by
    intro q inside
    refine getblock32_congr fun j lower upper => ?_
    have byte := same (j - index * 16) (by omega)
    rwa [Nat.add_sub_cancel' (by omega)] at byte
  rw [blockAt, blockAt, words 0 (by decide), words 1 (by decide), words 2 (by decide), words 3 (by decide)]

/-- The block loop reads the bytes of its blocks only. -/
theorem mixBlocks_congr {nblocks : Nat} (h : Lanes)
    (same : ∀ i < nblocks * 16, byteAt data i = byteAt data' i) :
    mixBlocks order data nblocks h = mixBlocks order data' nblocks h := by
  induction nblocks with
  | zero => rfl
  | succ nblocks ih =>
      have words : blockAt order data nblocks = blockAt order data' nblocks :=
        blockAt_congr fun j below => same _ (by omega)
      rw [mixBlocks, mixBlocks, ih fun i inside => same i (by omega), words]

theorem mixTail_zero {tail : List UInt8} {len : Nat} (h : Lanes) (zero : ∀ i < len, byteAt tail i = 0) :
    mixTail tail len h = h := by
  have byte : ∀ i shift, tailByte tail len i shift = 0 := by
    intro i shift
    unfold tailByte
    split
    next inside =>
      rw [zero i inside]
      exact BitVec.zero_shiftLeft shift
    next => rfl
  have mixed : mixK1 0 = 0 ∧ mixK2 0 = 0 ∧ mixK3 0 = 0 ∧ mixK4 0 = 0 := by decide
  obtain ⟨first, second, third, fourth⟩ := mixed
  have none : (0 : BitVec 32) ^^^ 0 = 0 := by decide
  have kept : ∀ lane : BitVec 32, lane ^^^ 0 = lane := fun _ => BitVec.xor_zero
  simp only [mixTail, byte, none, first, second, third, fourth, kept, ite_self]

/-- A word is made of its four bytes. -/
theorem append_bytes (word : BitVec 32) :
    (word >>> (8 * 3)).setWidth 8 ++ (word >>> (8 * 2)).setWidth 8 ++ (word >>> (8 * 1)).setWidth 8 ++
      (word >>> (8 * 0)).setWidth 8 = word := by
  apply BitVec.eq_of_getLsbD_eq
  intro i inside
  rw [BitVec.getLsbD_append, BitVec.getLsbD_append, BitVec.getLsbD_append]
  simp only [BitVec.getLsbD_setWidth, BitVec.getLsbD_ushiftRight]
  have bit : ∀ offset j, j < 8 → offset + j = i →
      (decide (j < 8) && word.getLsbD (offset + j)) = word.getLsbD i := by
    intro offset j below same
    rw [decide_eq_true below, Bool.true_and, same]
  split
  next below => exact bit _ _ below (by omega)
  next =>
    split
    next below => exact bit _ _ below (by omega)
    next =>
      split
      next below => exact bit _ _ below (by omega)
      next => exact bit _ _ (by omega) (by omega)

/-- Each four words are a block of some bytes. -/
theorem exists_blockAt (order : ByteOrder) (k : Lanes) :
    ∃ bytes : Nat → BitVec 8, ∀ data index,
      (∀ j < 16, byteAt data (index * 16 + j) = bytes j) → blockAt order data index = k := by
  let word (q : Nat) : BitVec 32 := [k.h1, k.h2, k.h3, k.h4].getD q 0
  let place (r : Nat) : Nat := order.casesOn r (3 - r)
  refine ⟨fun j => (word (j / 4) >>> (8 * place (j % 4))).setWidth 8, fun data index same => ?_⟩
  have block : ∀ q < 4, getblock32 order data (index * 4 + q) = word q := by
    intro q inside
    have byte : ∀ r < 4, byteAt data ((index * 4 + q) * 4 + r) = (word q >>> (8 * place r)).setWidth 8 := by
      intro r below
      have read := same (q * 4 + r) (by omega)
      dsimp only at read
      rw [show (q * 4 + r) / 4 = q by omega, show (q * 4 + r) % 4 = r by omega,
        show index * 16 + (q * 4 + r) = (index * 4 + q) * 4 + r by omega] at read
      exact read
    have zero := byte 0 (by decide)
    rw [Nat.add_zero] at zero
    cases order with
    | little =>
        rw [getblock32, byte 3 (by decide), byte 2 (by decide), byte 1 (by decide), zero]
        exact append_bytes (word q)
    | big =>
        rw [getblock32, byte 3 (by decide), byte 2 (by decide), byte 1 (by decide), zero]
        exact append_bytes (word q)
  rw [blockAt, block 0 (by decide), block 1 (by decide), block 2 (by decide), block 3 (by decide)]
  rfl

/-- The bytes of a key, given by their indices. -/
def keyOf (count : Nat) (bytes : Nat → BitVec 8) : List UInt8 :=
  (List.range count).map fun i => UInt8.ofBitVec (bytes i)

theorem length_keyOf (count : Nat) (bytes : Nat → BitVec 8) : (keyOf count bytes).length = count := by
  rw [keyOf, List.length_map, List.length_range]

theorem byteAt_keyOf {count i : Nat} (inside : i < count) (bytes : Nat → BitVec 8) :
    byteAt (keyOf count bytes) i = bytes i := by
  rw [byteAt, keyOf, List.getD_eq_getElem?_getD, List.getElem?_map, List.getElem?_range inside]
  rfl

theorem byteAt_drop (data : List UInt8) (offset i : Nat) :
    byteAt (data.drop offset) i = byteAt data (offset + i) := by
  rw [byteAt, byteAt, List.getD_eq_getElem?_getD, List.getElem?_drop, ← List.getD_eq_getElem?_getD]

/-- Each four lanes are the hash of some key with sixteen bytes or more: the last block reaches each state, and
the tail may be zero. -/
theorem murmurHash3_surjective (order : ByteOrder) (seed : BitVec 32) {count : Nat} (large : 16 ≤ count)
    (target : Lanes) : ∃ key : List UInt8, key.length = count ∧ murmurHash3_x86_128 order key seed = target := by
  obtain ⟨last, blocks⟩ : ∃ last, count / 16 = last + 1 := ⟨count / 16 - 1, by omega⟩
  obtain ⟨h, final⟩ := finalize_surjective (BitVec.ofNat 32 count) target
  let start := mixBlocks order (keyOf count fun _ => 0) last ⟨seed, seed, seed, seed⟩
  obtain ⟨k, mixed⟩ := mixBlock_surjective start h
  obtain ⟨bytes, block⟩ := exists_blockAt order k
  let key := keyOf count fun i => if i / 16 = last then bytes (i % 16) else 0
  have length : key.length = count := length_keyOf _ _
  have byte : ∀ i < count, byteAt key i = if i / 16 = last then bytes (i % 16) else 0 :=
    fun i inside => byteAt_keyOf inside _
  have front : mixBlocks order key last ⟨seed, seed, seed, seed⟩ = start := by
    refine mixBlocks_congr _ fun i inside => ?_
    rw [byte i (by omega), byteAt_keyOf (by omega), if_neg (by omega)]
  have words : blockAt order key last = k := by
    refine block key last fun j inside => ?_
    rw [byte _ (by omega), if_pos (by omega), show (last * 16 + j) % 16 = j by omega]
  have tail : ∀ i < count % 16, byteAt (key.drop ((last + 1) * 16)) i = 0 := by
    intro i inside
    rw [byteAt_drop, byte _ (by omega), if_neg (by omega)]
  refine ⟨key, length, ?_⟩
  unfold murmurHash3_x86_128
  dsimp only
  rw [length, blocks, mixBlocks, front, words, mixTail_zero _ tail]
  rw [show mixBlock k start = h from mixed]
  exact final

end Data

end Coucal.Murmur
