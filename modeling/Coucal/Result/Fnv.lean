import Mathlib.Data.Nat.Bitwise
import Coucal.Construction.Backends
import Coucal.Library.Words
import Coucal.Proof.Live

namespace Coucal

theorem separate_hash1 {P : Platform} (hash1 hash2 : Hashkey P) : (separate hash1 hash2).hash1 = hash1 := by
  unfold separate
  split <;> rfl

theorem separate_hash2 {P : Platform} (hash1 hash2 : Hashkey P) :
    (separate hash1 hash2).hash2 = if hash1 = hash2 then ~~~hash2 else hash2 := by
  unfold separate
  split <;> rfl

namespace Fnv1

open Function

/-- A step loses nothing of the hash, since the prime is odd. -/
theorem step_injective (c : BitVec 8) : Injective fun h => step h c := by
  have product := Words.mul_injective (by decide : prime * 14886173955864302971 = 1)
  intro first second same
  exact product ((BitVec.xor_left_inj _).mp same)

/-- A step loses nothing of the byte. -/
theorem step_byte_injective (h : BitVec 64) : Injective (step h) := by
  intro first second same
  have wide : first.setWidth 64 = second.setWidth 64 := (BitVec.xor_right_inj _).mp same
  have narrow := congrArg (BitVec.setWidth 8) wide
  simpa using narrow

/-- The parity of a hash after a step. -/
theorem step_parity (h : BitVec 64) (c : BitVec 8) : (step h c).toNat % 2 = (h.toNat + c.toNat) % 2 := by
  have small : c.toNat < 2 ^ 64 := Nat.lt_trans c.isLt (by decide)
  rw [step, BitVec.toNat_xor, Nat.xor_mod_two_eq, BitVec.toNat_mul, BitVec.toNat_setWidth, Nat.mod_eq_of_lt small]
  have factor : prime.toNat = 1099511628211 := rfl
  rw [factor]
  omega

/-- The low bits of a hash after a step come from low bits alone. -/
theorem step_low (n : Nat) (small : n ≤ 64) (h : BitVec 64) (c : BitVec 8) :
    (step h c).setWidth n = (h.setWidth n * prime.setWidth n) ^^^ c.setWidth n := by
  rw [step, BitVec.setWidth_xor, BitVec.setWidth_mul _ _ small, BitVec.setWidth_setWidth_of_le _ small]

/-- The two hashes of the loop differ in parity after an even number of bytes. -/
theorem loop_parity (data : List UInt8) (first second : BitVec 64) :
    ((data.foldl (fun h byte => step h byte.toBitVec) first).toNat +
      (data.foldl (fun h byte => step h (~~~byte.toBitVec)) second).toNat) % 2 =
      (first.toNat + second.toNat + data.length) % 2 := by
  induction data generalizing first second with
  | nil => rfl
  | cons byte data ih =>
      have parity := step_parity first byte.toBitVec
      have parity' := step_parity second (~~~byte.toBitVec)
      have inside := byte.toBitVec.isLt
      rw [BitVec.toNat_not] at parity'
      rw [List.foldl_cons, List.foldl_cons, ih, List.length_cons]
      omega

theorem hashes_parity (data : List UInt8) : ((h1 data).toNat + (h2 data).toNat) % 2 = (data.length + 1) % 2 := by
  rw [h1, h2, loop_parity]
  have basis : offsetBasis.toNat + (~~~offsetBasis).toNat = 2 ^ 64 - 1 := by decide
  rw [basis]
  omega

theorem hashDataWide_hash1 (data : List UInt8) : (hashDataWide data).hash1 = h1 data := separate_hash1 _ _

theorem hashDataWide_hash2 (data : List UInt8) :
    (hashDataWide data).hash2 = if h1 data = h2 data then ~~~h2 data else h2 data := separate_hash2 _ _

/-- A position has the parity of its hash. -/
theorem position_parity {lgSize : Nat} (sized : 0 < lgSize) {hash : Hashkey Platform.wide} {word : BitVec 64}
    (same : hash = word) : hashToPos_ lgSize hash % 2 = word.toNat % 2 := by
  rw [hashToPos_eq_mod, same]
  exact Nat.mod_mod_of_dvd _ (dvd_pow_self 2 (Nat.ne_of_gt sized))

/-- With 64-bit FNV-1 hashes, the two slots of a key have the same parity exactly when its length is odd and
its raw hashes differ. So a key of even length has two different slots in each table. -/
theorem fnv_slot_parities (data : List UInt8) {lgSize : Nat} (sized : 0 < lgSize) :
    hashToPos_ lgSize (hashDataWide data).hash1 % 2 = hashToPos_ lgSize (hashDataWide data).hash2 % 2 ↔
      data.length % 2 = 1 ∧ h1 data ≠ h2 data := by
  have parity := hashes_parity data
  have second := hashDataWide_hash2 data
  rw [position_parity sized (hashDataWide_hash1 data), position_parity sized second]
  by_cases same : h1 data = h2 data
  · have below := (h2 data).isLt
    have flipped : (~~~h2 data).toNat = 2 ^ 64 - 1 - (h2 data).toNat := BitVec.toNat_not
    rw [if_pos same, flipped, same]
    constructor
    · intro equal
      omega
    · intro both
      exact absurd rfl both.2
  · rw [if_neg same]
    constructor
    · intro equal
      exact ⟨by omega, same⟩
    · intro both
      omega

/-- The two slots of a key of two bytes. -/
theorem fnv_slot_parities_pair :
    hashToPos_ 4 (hashDataWide [97, 98]).hash1 % 2 ≠ hashToPos_ 4 (hashDataWide [97, 98]).hash2 % 2 := by
  intro same
  have odd := ((fnv_slot_parities [97, 98] (by decide)).mp same).1
  cases odd

theorem h1_append (front rest : List UInt8) (byte : UInt8) :
    h1 (front ++ byte :: rest) = rest.foldl (fun h byte => step h byte.toBitVec) (step (h1 front) byte.toBitVec) := by
  rw [h1, h1, List.foldl_append, List.foldl_cons]

/-- The fold keeps two hashes apart that differ in their last byte alone. -/
theorem fold_step_injective (h : BitVec 64) : Injective fun c => fold (step h c) := by
  intro first second same
  have high : ∀ c : BitVec 8, (step h c >>> 32).setWidth 32 = ((h * prime) >>> 32).setWidth 32 := by
    intro c
    apply BitVec.eq_of_getLsbD_eq
    intro i inside
    have beyond : c.getLsbD (32 + i) = false := BitVec.getLsbD_of_ge _ _ (by omega)
    simp [step, inside, beyond]
  have low : (step h first).setWidth 32 = (step h second).setWidth 32 := by
    dsimp only [fold] at same
    rw [high, high] at same
    exact (BitVec.xor_left_inj _).mp same
  rw [step_low 32 (by decide), step_low 32 (by decide)] at low
  have wide := (BitVec.xor_right_inj _).mp low
  have narrow := congrArg (BitVec.setWidth 8) wide
  simpa using narrow

/-- Keys that differ in one byte have different first hashes of 64 bits. When it is the last byte their
first hashes of 32 bits differ too. -/
theorem fnv_separates_bytes (front rest : List UInt8) {byte other : UInt8} (different : byte ≠ other) :
    (hashDataWide (front ++ byte :: rest)).hash1 ≠ (hashDataWide (front ++ other :: rest)).hash1 ∧
      (hashData (front ++ [byte])).hash1 ≠ (hashData (front ++ [other])).hash1 := by
  have apart : byte.toBitVec ≠ other.toBitVec := fun same => different (UInt8.toBitVec_inj.mp same)
  constructor
  · intro same
    rw [hashDataWide_hash1, hashDataWide_hash1, h1_append, h1_append] at same
    have keep := Words.foldl_injective (fun byte : UInt8 => step_injective byte.toBitVec) rest
    exact apart (step_byte_injective _ (keep same))
  · intro same
    have folds : fold (h1 (front ++ [byte])) = fold (h1 (front ++ [other])) :=
      (separate_hash1 _ _).symm.trans (same.trans (separate_hash1 _ _))
    rw [h1_append, h1_append] at folds
    exact apart (fold_step_injective _ folds)

theorem fnv_separates_bytes_letters :
    (hashDataWide ([107] ++ 97 :: [49])).hash1 ≠ (hashDataWide ([107] ++ 98 :: [49])).hash1 ∧
      (hashData ([107] ++ [97])).hash1 ≠ (hashData ([107] ++ [98])).hash1 :=
  fnv_separates_bytes [107] [49] (by decide)

/-- The low bits of a hash come from the low bits of the bytes. -/
theorem loop_low {n : Nat} (small : n ≤ 64) {bytes bytes' : List (BitVec 8)}
    (same : bytes.map (BitVec.setWidth n) = bytes'.map (BitVec.setWidth n)) {h h' : BitVec 64}
    (start : h.setWidth n = h'.setWidth n) :
    (bytes.foldl step h).setWidth n = (bytes'.foldl step h').setWidth n := by
  induction bytes generalizing bytes' h h' with
  | nil =>
      cases List.map_eq_nil_iff.mp same.symm
      exact start
  | cons byte bytes ih =>
      cases bytes' with
      | nil => cases same
      | cons byte' bytes' =>
          obtain ⟨head, tail⟩ := List.cons.inj same
          apply ih tail
          rw [step_low n small, step_low n small, start, head]

/-- The low bits of the bytes are those of their complements, inverted. -/
theorem low_complements {n : Nat} (small : n ≤ 8) {data data' : List UInt8}
    (same : data.map (fun byte => byte.toBitVec.setWidth n) = data'.map fun byte => byte.toBitVec.setWidth n) :
    (data.map fun byte => ~~~byte.toBitVec).map (BitVec.setWidth n) =
      (data'.map fun byte => ~~~byte.toBitVec).map (BitVec.setWidth n) := by
  have inverted : ∀ data : List UInt8, (data.map fun byte => ~~~byte.toBitVec).map (BitVec.setWidth n) =
      (data.map fun byte => byte.toBitVec.setWidth n).map (~~~ ·) := by
    intro data
    rw [List.map_map, List.map_map]
    apply List.map_congr_left
    intro byte _
    exact BitVec.setWidth_not small
  rw [inverted, inverted, same]

theorem position_low {n : Nat} {hash hash' : Hashkey Platform.wide} {word word' : BitVec 64} (first : hash = word)
    (second : hash' = word') (same : word.setWidth n = word'.setWidth n) : hashToPos_ n hash = hashToPos_ n hash' := by
  rw [hashToPos_eq_mod, hashToPos_eq_mod, first, second]
  have value := congrArg BitVec.toNat same
  rw [BitVec.toNat_setWidth, BitVec.toNat_setWidth] at value
  exact value

/-- With 64-bit FNV-1 hashes, the slots of a table of `2 ^ n` slots depend on the low `n` bits of the bytes
alone, up to one byte: keys that agree in them share their first slot, and both slots if their length is even. -/
theorem fnv_slots_of_low_bits {n : Nat} (small : n ≤ 8) {data data' : List UInt8}
    (same : data.map (fun byte => byte.toBitVec.setWidth n) = data'.map fun byte => byte.toBitVec.setWidth n) :
    hashToPos_ n (hashDataWide data).hash1 = hashToPos_ n (hashDataWide data').hash1 ∧
      (data.length % 2 = 0 →
        hashToPos_ n (hashDataWide data).hash2 = hashToPos_ n (hashDataWide data').hash2) := by
  have wide : n ≤ 64 := small.trans (by decide)
  have bytes : (data.map UInt8.toBitVec).map (BitVec.setWidth n) = (data'.map UInt8.toBitVec).map (BitVec.setWidth n) := by
    rw [List.map_map, List.map_map]
    exact same
  have length : data.length = data'.length := by
    have count := congrArg List.length same
    rwa [List.length_map, List.length_map] at count
  have first := loop_low wide bytes (rfl : offsetBasis.setWidth n = offsetBasis.setWidth n)
  have second := loop_low wide (low_complements small same) (rfl : (~~~offsetBasis).setWidth n = (~~~offsetBasis).setWidth n)
  rw [List.foldl_map, List.foldl_map] at first second
  refine ⟨position_low (hashDataWide_hash1 data) (hashDataWide_hash1 data') first, fun even => ?_⟩
  have raw : ∀ data : List UInt8, data.length % 2 = 0 → (hashDataWide data).hash2 = h2 data := by
    intro data even
    have parity := hashes_parity data
    have apart : h1 data ≠ h2 data := by
      intro equal
      rw [equal] at parity
      omega
    exact (hashDataWide_hash2 data).trans (if_neg apart)
  exact position_low (raw data even) (raw data' (length ▸ even)) second

/-- In a table of sixteen slots, `ab` and `qr` have the same two slots. -/
theorem fnv_slots_of_low_bits_letters :
    hashToPos_ 4 (hashDataWide [97, 98]).hash1 = hashToPos_ 4 (hashDataWide [113, 114]).hash1 ∧
      hashToPos_ 4 (hashDataWide [97, 98]).hash2 = hashToPos_ 4 (hashDataWide [113, 114]).hash2 := by
  obtain ⟨first, second⟩ := fnv_slots_of_low_bits (by decide : 4 ≤ 8)
    (by decide : [97, 98].map (fun byte : UInt8 => byte.toBitVec.setWidth 4) =
      [113, 114].map fun byte : UInt8 => byte.toBitVec.setWidth 4)
  exact ⟨first, second rfl⟩

end Fnv1
end Coucal
