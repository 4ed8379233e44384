import Coucal.Construction.Table
import Coucal.Proof.Murmur

namespace Coucal

open Murmur Function

theorem foldLanes_hash2 (result : Lanes) :
    (foldLanes result).hash2 =
      if result.h1 ^^^ result.h3 = result.h2 ^^^ result.h4 then ~~~(result.h2 ^^^ result.h4)
      else result.h2 ^^^ result.h4 := by
  by_cases same : result.h1 ^^^ result.h3 = result.h2 ^^^ result.h4
  · rw [if_pos same]
    exact congrArg Hashkeys.hash2 (if_pos same)
  · rw [if_neg same]
    exact congrArg Hashkeys.hash2 (if_neg same)

/-- The sum of the lanes in the middle of the finalization, when three of them start equal. -/
def middleSum (len a s : BitVec 32) : BitVec 32 :=
  (s ^^^ len) + ((a ^^^ len) + (s ^^^ len) + (s ^^^ len) + (s ^^^ len))

/-- Lanes that start equal stay equal. The first one meets them only if the sum in the middle vanishes. -/
theorem finalize_equal (len a s : BitVec 32) :
    (finalize len ⟨a, s, s, s⟩).h2 = (finalize len ⟨a, s, s, s⟩).h4 ∧
      ((finalize len ⟨a, s, s, s⟩).h1 = (finalize len ⟨a, s, s, s⟩).h3 → middleSum len a s = 0) := by
  refine ⟨rfl, fun same => ?_⟩
  simp only [finalize, addLanes, Lanes.map] at same
  have vanishes : fmix32 (middleSum len a s) = 0 := BitVec.self_eq_add_left.mp same
  exact fmix32_injective (vanishes.trans (by decide : (0 : BitVec 32) = fmix32 0))

/-- A byte of the three lower places has no bit in the top place. -/
theorem tailByte_top (tail : List UInt8) (len i : Nat) {shift : Nat} (low : shift ≤ 16) :
    tailByte tail len i shift >>> 24 = 0 := by
  unfold tailByte
  split
  next =>
    apply BitVec.eq_of_getLsbD_eq
    intro j _
    have beyond : (byteAt tail i).getLsbD (24 + j - shift) = false := BitVec.getLsbD_of_ge _ _ (by omega)
    simp [beyond]
  next => decide

/-- With at most four bytes only the first lane depends on the key. -/
theorem murmurHash3_short (order : ByteOrder) (seed : BitVec 32) {key : List UInt8} (short : key.length ≤ 4) :
    ∃ k1, murmurHash3_x86_128 order key seed =
        finalize (BitVec.ofNat 32 key.length) ⟨seed ^^^ mixK1 k1, seed, seed, seed⟩ ∧
      (key.length ≤ 3 → k1 >>> 24 = 0) := by
  let k1 := tailByte key key.length 3 24 ^^^ tailByte key key.length 2 16 ^^^ tailByte key key.length 1 8 ^^^
    tailByte key key.length 0 0
  refine ⟨k1, ?_, fun three => ?_⟩
  · have inside : key.length / 16 = 0 := by omega
    have rest : key.length % 16 = key.length := by omega
    unfold murmurHash3_x86_128
    dsimp only
    rw [inside, rest, Nat.zero_mul, List.drop_zero, mixBlocks, mixTail, if_neg (by omega : ¬ 4 < key.length),
      if_neg (by omega : ¬ 8 < key.length), if_neg (by omega : ¬ 12 < key.length)]
    split
    next => rfl
    next empty =>
      -- an empty key leaves the lane as it is, and its word is zero
      have zero : k1 = 0 := by
        have byte : ∀ i shift, tailByte key key.length i shift = 0 := fun i shift => if_neg (by omega)
        simp only [k1, byte]
        decide
      rw [zero, (by decide : mixK1 0 = 0)]
      congr 2
      exact BitVec.xor_zero.symm
  · have top : tailByte key key.length 3 24 = 0 := if_neg (by omega)
    simp only [k1, top, BitVec.ushiftRight_xor_distrib, tailByte_top _ _ _ (by decide : 16 ≤ 16),
      tailByte_top _ _ _ (by decide : 8 ≤ 16), tailByte_top _ _ _ (by decide : 0 ≤ 16)]
    decide

/-- A key of at most three bytes does not reach the one word for which the sum vanishes. -/
theorem middleSum_nonzero {count : Nat} (short : count ≤ 3) {k1 : BitVec 32} (top : k1 >>> 24 = 0) :
    middleSum (BitVec.ofNat 32 count) (42 ^^^ mixK1 k1) 42 ≠ 0 := by
  have injective (len : BitVec 32) : Injective fun k => middleSum len (42 ^^^ mixK1 k) 42 := by
    intro first second same
    dsimp only [middleSum] at same
    rw [BitVec.add_right_inj, BitVec.add_left_inj, BitVec.add_left_inj, BitVec.add_left_inj,
      BitVec.xor_left_inj, BitVec.xor_right_inj] at same
    exact mixK1_injective same
  have exceptional : ∃ word, middleSum (BitVec.ofNat 32 count) (42 ^^^ mixK1 word) 42 = 0 ∧ word >>> 24 ≠ 0 := by
    obtain rfl | rfl | rfl | rfl : count = 0 ∨ count = 1 ∨ count = 2 ∨ count = 3 := by omega
    · exact ⟨1036574273, by decide, by decide⟩
    · exact ⟨1901991185, by decide, by decide⟩
    · exact ⟨1777717102, by decide, by decide⟩
    · exact ⟨3669684426, by decide, by decide⟩
  intro zero
  obtain ⟨word, vanishes, high⟩ := exceptional
  rw [injective _ (zero.trans vanishes.symm)] at top
  exact high top

/-- The second hash of a short key is zero. -/
theorem hashData_short (order : ByteOrder) {data : List UInt8} (short : data.length ≤ 3) :
    (hashData order data).hash2 = 0 := by
  obtain ⟨k1, result, top⟩ := murmurHash3_short order 42 (Nat.le_succ_of_le short)
  obtain ⟨equal, meets⟩ := finalize_equal (BitVec.ofNat 32 data.length) (42 ^^^ mixK1 k1) 42
  have apart := mt meets (middleSum_nonzero short (top short))
  rw [hashData, result, foldLanes_hash2, equal, BitVec.xor_self,
    if_neg fun same => apart (BitVec.xor_eq_zero_iff.mp same)]
  rfl

/-- From five bytes on a tail feeds the second lane. -/
theorem tails_differ (order : ByteOrder) : ∀ count < 16, 4 < count →
    (hashData order (List.replicate count 0)).hash2 ≠ (hashData order (List.replicate count 1)).hash2 := by
  cases order <;> decide +kernel

/-- The second hash depends on the key exactly from four bytes on. -/
theorem second_hash_varies_iff (order : ByteOrder) (count : Nat) :
    (∃ first second : List UInt8, first.length = count ∧ second.length = count ∧
      (hashData order first).hash2 ≠ (hashData order second).hash2) ↔ 4 ≤ count := by
  constructor
  · rintro ⟨first, second, length, length', different⟩
    by_contra short
    refine different ?_
    rw [hashData_short order (by omega), hashData_short order (by omega)]
  · intro long
    rcases Nat.lt_or_ge count 16 with tail | blocks
    · rcases Nat.eq_or_lt_of_le long with rfl | longer
      · refine ⟨[86, 144, 206, 95], [0, 0, 0, 0], rfl, rfl, ?_⟩
        cases order <;> decide +kernel
      · refine ⟨List.replicate count 0, List.replicate count 1, List.length_replicate, List.length_replicate, ?_⟩
        exact tails_differ order count tail longer
    · obtain ⟨first, length, result⟩ := murmurHash3_surjective order 42 blocks ⟨0, 1, 0, 0⟩
      obtain ⟨second, length', result'⟩ := murmurHash3_surjective order 42 blocks ⟨1, 0, 0, 0⟩
      refine ⟨first, second, length, length', ?_⟩
      rw [hashData, hashData, result, result']
      decide

/-- All keys of one byte have the same second hash. -/
theorem second_hash_constant :
    ¬ ∃ first second : List UInt8, first.length = 1 ∧ second.length = 1 ∧
      (hashData .little first).hash2 ≠ (hashData .little second).hash2 := by
  rintro ⟨first, second, length, length', different⟩
  refine different ?_
  rw [hashData_short .little (by omega), hashData_short .little (by omega)]

/-- So the second candidate of each string with at most three characters is the first slot. -/
theorem short_strings_share_slot (order : ByteOrder) (lgSize : Nat) {name : CString} (short : name.strlen ≤ 3) :
    hashToPos_ lgSize (hashString order name).hash2 = 0 := by
  rw [hashToPos_, hashString, hashData_short order short]
  exact congrArg BitVec.toNat (BitVec.zero_and)

end Coucal
