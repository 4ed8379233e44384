import Mathlib.Tactic.IntervalCases
import Coucal.Construction.Backends
import Coucal.Proof.Murmur

namespace Coucal
namespace Murmur

open Words Function

section Lanes

attribute [ext] Lanes

/-- A lane keeps what it takes from a word of the key. -/
theorem word_injective {mix : BitVec 32 → BitVec 32} (injective : Injective mix) {r : Nat} (inside : r < 32)
    (lane next constant : BitVec 32) :
    Injective fun k => (rotl32 (lane ^^^ mix k) r + next) * 5 + constant :=
  Finite.injective_iff_surjective.mpr (lane_surjective injective inside lane next constant)

/-- A lane keeps its own value. -/
theorem lane_injective {r : Nat} (inside : r < 32) (mixed next constant : BitVec 32) :
    Injective fun lane => (rotl32 (lane ^^^ mixed) r + next) * 5 + constant := by
  intro first second same
  have identity : Injective fun word : BitVec 32 => word := fun _ _ equal => equal
  have swapped := word_injective identity inside mixed next constant
  apply swapped
  simpa only [BitVec.xor_comm mixed] using same

/-- A block of the key keeps different lanes apart. -/
theorem mixBlock_injective (k : Lanes) : Injective (mixBlock k) := by
  intro h h' same
  obtain ⟨first, second, third, fourth⟩ := Lanes.mk.inj same
  rw [first] at fourth
  have last := lane_injective (by decide : 13 < 32) _ _ _ fourth
  rw [last] at third
  have third := lane_injective (by decide : 15 < 32) _ _ _ third
  rw [third] at second
  have second := lane_injective (by decide : 17 < 32) _ _ _ second
  rw [second] at first
  have first := lane_injective (by decide : 19 < 32) _ _ _ first
  exact Lanes.ext first second third last

/-- The lanes keep different blocks of the key apart. -/
theorem mixBlock_words_injective (h : Lanes) : Injective fun k => mixBlock k h := by
  intro k k' same
  obtain ⟨first, second, third, fourth⟩ := Lanes.mk.inj same
  rw [first] at fourth
  have first := word_injective mixK1_injective (by decide : 19 < 32) _ _ _ first
  have second := word_injective mixK2_injective (by decide : 17 < 32) _ _ _ second
  have third := word_injective mixK3_injective (by decide : 15 < 32) _ _ _ third
  have fourth := word_injective mixK4_injective (by decide : 13 < 32) _ _ _ fourth
  exact Lanes.ext first second third fourth

theorem Lanes.map_injective {f : BitVec 32 → BitVec 32} (injective : Injective f) : Injective (Lanes.map f) := by
  intro h h' same
  obtain ⟨first, second, third, fourth⟩ := Lanes.mk.inj same
  exact Lanes.ext (injective first) (injective second) (injective third) (injective fourth)

theorem addLanes_injective : Injective addLanes := by
  intro h h' same
  obtain ⟨first, second, third, fourth⟩ := Lanes.mk.inj same
  rw [first] at second third fourth
  have second := (BitVec.add_left_inj _).mp second
  have third := (BitVec.add_left_inj _).mp third
  have fourth := (BitVec.add_left_inj _).mp fourth
  rw [second, third, fourth] at first
  have first := (BitVec.add_left_inj _).mp ((BitVec.add_left_inj _).mp ((BitVec.add_left_inj _).mp first))
  exact Lanes.ext first second third fourth

/-- The finalization keeps different lanes apart. -/
theorem finalize_injective (len : BitVec 32) : Injective (finalize len) := by
  have length : Injective fun lane : BitVec 32 => lane ^^^ len := fun _ _ same =>
    (BitVec.xor_left_inj len).mp same
  exact addLanes_injective.comp ((Lanes.map_injective fmix32_injective).comp
    (addLanes_injective.comp (Lanes.map_injective length)))

end Lanes

section Blocks

variable {order : ByteOrder} {data data' : List UInt8}

theorem getblock32_bytes {i : Nat} (same : getblock32 order data i = getblock32 order data' i) :
    ∀ j < 4, byteAt data (i * 4 + j) = byteAt data' (i * 4 + j) := by
  intro j below
  cases order with
  | little =>
      obtain ⟨rest, first⟩ := append_inj same
      obtain ⟨rest, second⟩ := append_inj rest
      obtain ⟨fourth, third⟩ := append_inj rest
      interval_cases j <;> assumption
  | big =>
      obtain ⟨rest, fourth⟩ := append_inj same
      obtain ⟨rest, third⟩ := append_inj rest
      obtain ⟨first, second⟩ := append_inj rest
      interval_cases j <;> assumption

/-- The words of a block determine its bytes. -/
theorem blockAt_bytes {index : Nat} (same : blockAt order data index = blockAt order data' index) :
    ∀ j < 16, byteAt data (index * 16 + j) = byteAt data' (index * 16 + j) := by
  intro j below
  obtain ⟨first, second, third, fourth⟩ := Lanes.mk.inj same
  have words : ∀ q < 4, getblock32 order data (index * 4 + q) = getblock32 order data' (index * 4 + q) := by
    intro q inside
    interval_cases q <;> assumption
  have byte := getblock32_bytes (words (j / 4) (by omega)) (j % 4) (by omega)
  have place : (index * 4 + j / 4) * 4 + j % 4 = index * 16 + j := by omega
  rwa [place] at byte

/-- Keys that differ in one block have different lanes after the loop. -/
theorem mixBlocks_separates {block nblocks : Nat} (inside : block < nblocks)
    (outside : ∀ i, i / 16 ≠ block → byteAt data i = byteAt data' i)
    (different : ∃ j < 16, byteAt data (block * 16 + j) ≠ byteAt data' (block * 16 + j)) (h : Lanes) :
    mixBlocks order data nblocks h ≠ mixBlocks order data' nblocks h := by
  induction nblocks with
  | zero => exact absurd inside (Nat.not_lt_zero block)
  | succ nblocks ih =>
      intro same
      rw [mixBlocks, mixBlocks] at same
      rcases Nat.lt_succ_iff_lt_or_eq.mp inside with before | rfl
      · have words : blockAt order data nblocks = blockAt order data' nblocks :=
          blockAt_congr fun j below => outside _ (by omega)
        rw [words] at same
        exact ih before (mixBlock_injective _ same)
      · have lanes : mixBlocks order data block h = mixBlocks order data' block h :=
          mixBlocks_congr h fun i below => outside i (by omega)
        rw [lanes] at same
        obtain ⟨j, below, bytes⟩ := different
        exact bytes (blockAt_bytes (mixBlock_words_injective _ same) j below)

end Blocks

section Tail

variable {tail tail' : List UInt8} {len : Nat}

/-- A bit of a shifted byte of the tail. -/
theorem tailByte_getLsbD {q m j i : Nat} (low : m < 4) (place : j < 4) (inside : i < 8) :
    (tailByte tail len (q + m) (8 * m)).getLsbD (8 * j + i) =
      (decide (m = j) && decide (q + m < len) && (byteAt tail (q + m)).getLsbD i) := by
  unfold tailByte
  split
  next below =>
    rw [BitVec.getLsbD_shiftLeft, BitVec.getLsbD_setWidth]
    rcases Nat.lt_trichotomy m j with less | rfl | more
    · have none : (byteAt tail (q + m)).getLsbD (8 * j + i - 8 * m) = false := BitVec.getLsbD_of_ge _ _ (by omega)
      simp [none, Nat.ne_of_lt less]
    · have index : 8 * m + i - 8 * m = i := by omega
      have word : 8 * m + i < 32 ∧ i < 32 := by omega
      simp [index, below, word]
    · have before : 8 * j + i < 8 * m := by omega
      simp [before, Nat.ne_of_gt more]
  next above => simp [above]

/-- A word of the tail determines its bytes. -/
theorem tailWord_bytes {q : Nat}
    (same : tailByte tail len (q + 3) (8 * 3) ^^^ tailByte tail len (q + 2) (8 * 2) ^^^
        tailByte tail len (q + 1) (8 * 1) ^^^ tailByte tail len (q + 0) (8 * 0) =
      tailByte tail' len (q + 3) (8 * 3) ^^^ tailByte tail' len (q + 2) (8 * 2) ^^^
        tailByte tail' len (q + 1) (8 * 1) ^^^ tailByte tail' len (q + 0) (8 * 0)) :
    ∀ j < 4, q + j < len → byteAt tail (q + j) = byteAt tail' (q + j) := by
  intro j below inside
  apply BitVec.eq_of_getLsbD_eq
  intro i bit
  have bits := congrArg (fun word : BitVec 32 => word.getLsbD (8 * j + i)) same
  simp only [BitVec.getLsbD_xor, tailByte_getLsbD (by decide : 3 < 4) below bit,
    tailByte_getLsbD (by decide : 2 < 4) below bit, tailByte_getLsbD (by decide : 1 < 4) below bit,
    tailByte_getLsbD (by decide : 0 < 4) below bit] at bits
  rcases (by omega : j = 0 ∨ j = 1 ∨ j = 2 ∨ j = 3) with rfl | rfl | rfl | rfl
  · rw [Nat.add_zero] at inside ⊢
    simpa [inside] using bits
  · simpa [inside] using bits
  · simpa [inside] using bits
  · simpa [inside] using bits

theorem mixTail_congr (same : ∀ i < len, byteAt tail i = byteAt tail' i) (h : Lanes) :
    mixTail tail len h = mixTail tail' len h := by
  have byte (i shift : Nat) : tailByte tail len i shift = tailByte tail' len i shift := by
    unfold tailByte
    split
    next below => rw [same i below]
    next => rfl
  simp only [mixTail, byte]

/-- The tail keeps different lanes apart. -/
theorem mixTail_injective : Injective (mixTail tail len) := by
  intro h h' same
  have lane (condition : Prop) [Decidable condition] {lane lane' mixed : BitVec 32}
      (equal : (if condition then lane ^^^ mixed else lane) = if condition then lane' ^^^ mixed else lane') :
      lane = lane' := by
    split at equal
    next => exact (BitVec.xor_left_inj mixed).mp equal
    next => exact equal
  obtain ⟨first, second, third, fourth⟩ := Lanes.mk.inj same
  exact Lanes.ext (lane _ first) (lane _ second) (lane _ third) (lane _ fourth)

/-- The lanes keep different tails apart. -/
theorem mixTail_bytes {h : Lanes} (short : len < 16) (same : mixTail tail len h = mixTail tail' len h) :
    ∀ i < len, byteAt tail i = byteAt tail' i := by
  have word {mix : BitVec 32 → BitVec 32} (injective : Injective mix) {condition : Prop} [Decidable condition]
      (holds : condition) {lane k k' : BitVec 32}
      (equal : (if condition then lane ^^^ mix k else lane) = if condition then lane ^^^ mix k' else lane) :
      k = k' := by
    rw [if_pos holds, if_pos holds] at equal
    exact injective ((BitVec.xor_right_inj lane).mp equal)
  obtain ⟨first, second, third, fourth⟩ := Lanes.mk.inj same
  intro i below
  have read {q : Nat} (lane : i / 4 * 4 = q)
      (bytes : ∀ j < 4, q + j < len → byteAt tail (q + j) = byteAt tail' (q + j)) :
      byteAt tail i = byteAt tail' i := by
    have byte := bytes (i % 4) (Nat.mod_lt _ (by decide)) (by omega)
    rwa [show q + i % 4 = i by omega] at byte
  -- the last word has three bytes
  have top (tail : List UInt8) : tailByte tail len (12 + 3) (8 * 3) = 0 := if_neg (by omega)
  have zero (word : BitVec 32) : 0 ^^^ word = word := BitVec.zero_xor
  rcases (by omega : i / 4 = 0 ∨ i / 4 = 1 ∨ i / 4 = 2 ∨ i / 4 = 3) with lane | lane | lane | lane
  · exact read (q := 0) (by omega) (tailWord_bytes (word mixK1_injective (by omega) first))
  · exact read (q := 4) (by omega) (tailWord_bytes (word mixK2_injective (by omega) second))
  · exact read (q := 8) (by omega) (tailWord_bytes (word mixK3_injective (by omega) third))
  · refine read (q := 12) (by omega) (tailWord_bytes ?_)
    rw [top, top, zero, zero]
    exact word mixK4_injective (by omega) fourth

end Tail

section Keys

variable {order : ByteOrder} {key key' : List UInt8}

/-- Keys of one length are equal when their bytes are. -/
theorem eq_of_bytes (length : key.length = key'.length)
    (same : ∀ i < key.length, byteAt key i = byteAt key' i) : key = key' := by
  apply List.ext_getElem length
  intro i inside inside'
  have byte := same i inside
  rw [byteAt, byteAt, List.getD_eq_getElem?_getD, List.getD_eq_getElem?_getD, List.getElem?_eq_getElem inside,
    List.getElem?_eq_getElem inside', Option.getD_some, Option.getD_some] at byte
  exact UInt8.toBitVec_inj.mp byte

/-- Two keys of one length that differ in one block of sixteen bytes only, or in the tail only. -/
structure DifferInBlock (key key' : List UInt8) : Prop where
  length : key.length = key'.length
  different : key ≠ key'
  place : ∃ block, ∀ i, i / 16 ≠ block → key[i]? = key'[i]?

/-- Keys of at most sixteen bytes have no second block. -/
theorem DifferInBlock.of_short (length : key.length = key'.length) (different : key ≠ key')
    (short : key.length ≤ 16) : DifferInBlock key key' := by
  refine ⟨length, different, 0, fun i other => ?_⟩
  rw [List.getElem?_eq_none (by omega), List.getElem?_eq_none (by omega)]

theorem DifferInBlock.bytes (differ : DifferInBlock key key') :
    ∃ block, ∀ i, i / 16 ≠ block → byteAt key i = byteAt key' i := by
  obtain ⟨block, outside⟩ := differ.place
  refine ⟨block, fun i other => ?_⟩
  rw [byteAt, byteAt, List.getD_eq_getElem?_getD, List.getD_eq_getElem?_getD, outside i other]

/-- The lanes after the tail determine the bytes of the one block. -/
theorem mixTail_mixBlocks_bytes {nblocks rest block : Nat} {h : Lanes} (short : rest < 16)
    (outside : ∀ i, i / 16 ≠ block → byteAt key i = byteAt key' i)
    (same : mixTail (key.drop (nblocks * 16)) rest (mixBlocks order key nblocks h) =
      mixTail (key'.drop (nblocks * 16)) rest (mixBlocks order key' nblocks h)) :
    ∀ i < nblocks * 16 + rest, byteAt key i = byteAt key' i := by
  intro i inside
  by_contra bytes
  have place : i / 16 = block := by
    by_contra other
    exact bytes (outside i other)
  rcases Nat.lt_or_ge block nblocks with before | last
  · have tail : mixTail (key.drop (nblocks * 16)) rest (mixBlocks order key nblocks h) =
        mixTail (key'.drop (nblocks * 16)) rest (mixBlocks order key nblocks h) := by
      refine mixTail_congr (fun j below => ?_) _
      rw [byteAt_drop, byteAt_drop]
      exact outside _ (by omega)
    rw [tail] at same
    refine mixBlocks_separates before outside ⟨i % 16, Nat.mod_lt _ (by decide), ?_⟩ _ (mixTail_injective same)
    rwa [show block * 16 + i % 16 = i by omega]
  · have blocks : mixBlocks order key nblocks h = mixBlocks order key' nblocks h :=
      mixBlocks_congr _ fun j below => outside j (by omega)
    rw [blocks] at same
    have byte := mixTail_bytes short same (i - nblocks * 16) (by omega)
    rw [byteAt_drop, byteAt_drop, Nat.add_sub_cancel' (by omega)] at byte
    exact bytes byte

/-- The digest keeps such keys apart. -/
theorem murmurHash3_separates (differ : DifferInBlock key key') (seed : BitVec 32) :
    murmurHash3_x86_128 order key seed ≠ murmurHash3_x86_128 order key' seed := by
  obtain ⟨block, outside⟩ := differ.bytes
  intro same
  unfold murmurHash3_x86_128 at same
  dsimp only at same
  rw [← differ.length] at same
  have lanes := finalize_injective _ same
  apply differ.different
  apply eq_of_bytes differ.length
  intro i inside
  exact mixTail_mixBlocks_bytes (Nat.mod_lt _ (by decide)) outside lanes i (by omega)

/-- The digests of the keys of one block are all digests, each of one key. -/
theorem murmurHash3_block_bijective (order : ByteOrder) (seed : BitVec 32) (target : Lanes) :
    ∃! data : List UInt8, data.length = 16 ∧ murmurHash3_x86_128 order data seed = target := by
  obtain ⟨data, length, result⟩ := murmurHash3_surjective order seed (Nat.le_refl 16) target
  refine ⟨data, ⟨length, result⟩, ?_⟩
  rintro other ⟨length', result'⟩
  by_contra different
  have differ := DifferInBlock.of_short (length'.trans length.symm) different length'.le
  exact murmurHash3_separates differ seed (result'.trans result.symm)

end Keys

section Wide

theorem joinWords_injective {order : ByteOrder} {first second first' second' : BitVec 32}
    (same : joinWords order first second = joinWords order first' second') : first = first' ∧ second = second' := by
  cases order with
  | little => exact (append_inj same).symm
  | big => exact append_inj same

/-- Different pairs of hashes are the same after the step against identical hashes only when one of them was
identical, and then the second hash is the inverse of the first. -/
theorem separate_collision {P : Platform} {hash1 hash2 hash1' hash2' : Hashkey P}
    (same : separate hash1 hash2 = separate hash1' hash2') (different : hash1 = hash1' → hash2 ≠ hash2') :
    (separate hash1 hash2).hash2 = ~~~(separate hash1 hash2).hash1 := by
  unfold separate at same ⊢
  split at same
  next equal =>
    rw [if_pos equal, equal]
  next apart =>
    split at same
    next equal =>
      obtain ⟨first, second⟩ := Hashkeys.mk.inj same
      rw [if_neg apart]
      dsimp only
      rw [second, first, equal]
    next =>
      obtain ⟨first, second⟩ := Hashkeys.mk.inj same
      exact absurd second (different first)

/-- Murmur keeps keys apart that differ in one block only, with each seed: their digests are different. With hashes
of 64 bits such keys share their hashes only where the second hash is the inverse of the first, as it is after
identical hashes. Each digest is that of exactly one key of a block. -/
theorem murmur_separates_blocks (order : ByteOrder) :
    (∀ key key' : List UInt8, DifferInBlock key key' →
      (∀ seed, murmurHash3_x86_128 order key seed ≠ murmurHash3_x86_128 order key' seed) ∧
        (hashDataWide order key = hashDataWide order key' →
          (hashDataWide order key).hash2 = ~~~(hashDataWide order key).hash1)) ∧
      ∀ seed target, ∃! data : List UInt8, data.length = 16 ∧ murmurHash3_x86_128 order data seed = target := by
  refine ⟨fun key key' differ => ⟨murmurHash3_separates differ, ?_⟩, murmurHash3_block_bijective order⟩
  intro same
  refine separate_collision same ?_
  intro first second
  obtain ⟨h1, h2⟩ := joinWords_injective first
  obtain ⟨h3, h4⟩ := joinWords_injective second
  exact murmurHash3_separates differ 42 (Lanes.ext h1 h2 h3 h4)

/-- Two keys of forty bytes that differ in the last one. -/
theorem murmur_separates_blocks_tail :
    murmurHash3_x86_128 .big (List.replicate 39 0 ++ [0]) 7 ≠
      murmurHash3_x86_128 .big (List.replicate 39 0 ++ [1]) 7 := by
  have differ : DifferInBlock (List.replicate 39 0 ++ [0]) (List.replicate 39 0 ++ [1]) := by
    refine ⟨rfl, by decide, 2, fun i other => ?_⟩
    have place : i < 39 ∨ 40 ≤ i := by omega
    rcases place with before | after
    · have inside : i < (List.replicate 39 (0 : UInt8)).length := by rwa [List.length_replicate]
      rw [List.getElem?_append_left inside, List.getElem?_append_left inside]
    · rw [List.getElem?_eq_none after, List.getElem?_eq_none after]
  exact ((murmur_separates_blocks .big).1 _ _ differ).1 7

end Wide

end Murmur
end Coucal
