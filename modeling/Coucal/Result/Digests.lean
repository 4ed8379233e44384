import Coucal.Construction.Backends
import Coucal.Proof.Murmur

namespace Coucal

open Outcome Murmur

section Wide

/-- Each word of 64 bits is made of two. -/
theorem joinWords_surjective (order : ByteOrder) (word : BitVec 64) :
    ∃ first second, joinWords order first second = word := by
  have halves : (word >>> 32).setWidth 32 ++ word.setWidth 32 = word := by
    apply BitVec.eq_of_getLsbD_eq
    intro i inside
    rw [BitVec.getLsbD_append, BitVec.getLsbD_setWidth, BitVec.getLsbD_setWidth, BitVec.getLsbD_ushiftRight]
    split
    next low => rw [decide_eq_true low, Bool.true_and]
    next high => rw [decide_eq_true (by omega : i - 32 < 32), Bool.true_and, Nat.add_sub_cancel' (by omega)]
  cases order with
  | little => exact ⟨word.setWidth 32, (word >>> 32).setWidth 32, halves⟩
  | big => exact ⟨(word >>> 32).setWidth 32, word.setWidth 32, halves⟩

/-- Lanes with nothing to mix in are hashes already. -/
theorem foldLanes_zero {hash1 hash2 : BitVec 32} (different : hash1 ≠ hash2) :
    foldLanes ⟨hash1, hash2, 0, 0⟩ = ⟨hash1, hash2⟩ := by
  have first : hash1 ^^^ 0#32 = hash1 := BitVec.xor_zero
  have second : hash2 ^^^ 0#32 = hash2 := BitVec.xor_zero
  show separate (P := .lp64) _ _ = _
  exact (congrArg₂ separate first second).trans (if_neg different)

/-- From sixteen bytes on, each pair of different hashes is the hash of a key, with hashes of 32 bits and with
hashes of 64 bits. -/
theorem murmur_hashes_onto (order : ByteOrder) {count : Nat} (large : 16 ≤ count) :
    (∀ hashes : Hashkeys Platform.lp64, hashes.hash1 ≠ hashes.hash2 →
      ∃ data : List UInt8, data.length = count ∧ hashData order data = hashes) ∧
    ∀ hashes : Hashkeys Platform.wide, hashes.hash1 ≠ hashes.hash2 →
      ∃ data : List UInt8, data.length = count ∧ hashDataWide order data = hashes := by
  constructor
  · intro hashes different
    obtain ⟨data, length, result⟩ := murmurHash3_surjective order 42 large ⟨hashes.hash1, hashes.hash2, 0, 0⟩
    refine ⟨data, length, ?_⟩
    rw [hashData, result]
    exact foldLanes_zero different
  · intro hashes different
    obtain ⟨h1, h2, first⟩ := joinWords_surjective order hashes.hash1
    obtain ⟨h3, h4, second⟩ := joinWords_surjective order hashes.hash2
    obtain ⟨data, length, result⟩ := murmurHash3_surjective order 42 large ⟨h1, h2, h3, h4⟩
    refine ⟨data, length, ?_⟩
    show separate _ _ = hashes
    rw [result]
    dsimp only
    rw [first, second]
    exact if_neg different

/-- Keys of sixteen bytes that get chosen hashes. -/
theorem murmur_hashes_onto_blocks :
    (∃ data : List UInt8, data.length = 16 ∧ hashData .little data = ⟨0, 1⟩) ∧
      ∃ data : List UInt8, data.length = 16 ∧ hashDataWide .big data = ⟨1, 0⟩ :=
  ⟨(murmur_hashes_onto .little (Nat.le_refl 16)).1 ⟨0, 1⟩ (by decide),
    (murmur_hashes_onto .big (Nat.le_refl 16)).2 ⟨1, 0⟩ (by decide)⟩

/-- With hashes of 64 bits the second hash depends on the key as soon as there is a byte. -/
theorem wide_second_hash_varies_iff (order : ByteOrder) (count : Nat) :
    (∃ first second : List UInt8, first.length = count ∧ second.length = count ∧
      (hashDataWide order first).hash2 ≠ (hashDataWide order second).hash2) ↔ 1 ≤ count := by
  constructor
  · rintro ⟨first, second, length, length', different⟩
    by_contra empty
    cases List.eq_nil_of_length_eq_zero (by omega : first.length = 0)
    cases List.eq_nil_of_length_eq_zero (by omega : second.length = 0)
    exact different rfl
  · intro some
    rcases Nat.lt_or_ge count 16 with short | large
    · have varies : ∀ count < 16, 1 ≤ count → (hashDataWide order (List.replicate count 0)).hash2 ≠
          (hashDataWide order (List.replicate count 1)).hash2 := by
        -- a byte of zeros and one of ones, at each length below a block
        cases order <;> decide +kernel
      exact ⟨_, _, List.length_replicate, List.length_replicate, varies count short some⟩
    · obtain ⟨first, length, hashes⟩ := (murmur_hashes_onto order large).2 ⟨0, 1⟩ (by decide)
      obtain ⟨second, length', hashes'⟩ := (murmur_hashes_onto order large).2 ⟨0, 2⟩ (by decide)
      refine ⟨first, second, length, length', ?_⟩
      rw [hashes, hashes']
      decide

end Wide

namespace Md5

variable {σ : Type} {P : Platform} {md5 : Md5 σ}

/-- The documented behaviour of an MD5 implementation: updates by pieces, each of a size that fits in an
`unsigned int`, digest the whole message. -/
def Streams (P : Platform) (md5 : Md5 σ) (digestOf : List UInt8 → List UInt8) : Prop :=
  ∀ pieces : List (List UInt8), (∀ piece ∈ pieces, piece.length < 2 ^ P.intSize) →
    md5.final (pieces.foldl md5.update md5.init) = digestOf pieces.flatten

/-- A chunk that an `unsigned int` holds is not cut. -/
theorem chunk_eq {remaining : Nat} (holds : min remaining 0x10000000 < 2 ^ P.intSize) :
    chunk P remaining = min remaining 0x10000000 := by
  unfold chunk
  split
  next small =>
      rw [min_eq_left small] at holds ⊢
      exact Nat.mod_eq_of_lt holds
  next large =>
      rw [min_eq_right (Nat.le_of_not_le large)] at holds ⊢
      exact Nat.mod_eq_of_lt holds

/-- The chunks of each size fit with 29 bits or more, or with as many bits as a size has. -/
theorem chunk_holds (wide : 29 ≤ P.intSize ∨ P.wordSize ≤ P.intSize) {size remaining : Nat}
    (sized : size < 2 ^ P.wordSize) (rest : remaining ≤ size) : min remaining 0x10000000 < 2 ^ P.intSize := by
  rcases wide with bits | word
  · have bound : 2 ^ 29 ≤ 2 ^ P.intSize := Nat.pow_le_pow_right Nat.two_pos bits
    exact (min_le_right remaining 0x10000000).trans_lt (bound.trans_lt' (by decide))
  · have bound : 2 ^ P.wordSize ≤ 2 ^ P.intSize := Nat.pow_le_pow_right Nat.two_pos word
    exact (min_le_left remaining 0x10000000).trans_lt (rest.trans_lt (sized.trans_le bound))

/-- From each offset on the loop feeds pieces that cover the rest of the data in order. -/
theorem feed_covers (md5 : Md5 σ) {data : List UInt8} (sized : data.length < 2 ^ P.wordSize)
    (holds : ∀ remaining ≤ data.length, min remaining 0x10000000 < 2 ^ P.intSize) {rounds offset : Nat}
    (inside : offset ≤ data.length) (enough : data.length - offset < rounds) (ctx : σ) :
    ∃ pieces : List (List UInt8), pieces.flatten = data.drop offset ∧
      (∀ piece ∈ pieces, piece.length < 2 ^ P.intSize) ∧
      md5.feed P data data.length rounds offset ctx = .ok (pieces.foldl md5.update ctx) := by
  induction rounds generalizing offset ctx with
  | zero => cases enough
  | succ rounds ih =>
      unfold feed
      split
      next more =>
        have held := holds (data.length - offset) (Nat.sub_le _ _)
        dsimp only
        rw [chunk_eq held]
        generalize bound : min (data.length - offset) 0x10000000 = size at held ⊢
        have advances : 0 < size ∧ offset + size ≤ data.length := by omega
        have next : (offset + size) % 2 ^ P.wordSize = offset + size :=
          Nat.mod_eq_of_lt (advances.2.trans_lt sized)
        rw [next]
        obtain ⟨pieces, whole, fit, fed⟩ := ih advances.2 (by omega) (md5.update ctx ((data.drop offset).take size))
        refine ⟨(data.drop offset).take size :: pieces, ?_, ?_, fed⟩
        · rw [List.flatten_cons, whole, ← List.drop_drop, List.take_append_drop]
        · intro piece member
          rcases List.mem_cons.mp member with rfl | rest
          · exact (List.length_take_le _ _).trans_lt held
          · exact fit piece rest
      next done =>
        have last : offset = data.length := Nat.le_antisymm inside (Nat.le_of_not_lt done)
        exact ⟨[], (last ▸ List.drop_length).symm, fun _ member => absurd member List.not_mem_nil, rfl⟩

/-- A chunk that is empty while data remain keeps the loop at its start. -/
theorem feed_stuck {data : List UInt8} {size : Nat} (some : 0 < size) (stuck : chunk P size = 0) (rounds : Nat)
    (ctx : σ) : md5.feed P data size rounds 0 ctx = .error .hang := by
  induction rounds generalizing ctx with
  | zero => rfl
  | succ rounds ih =>
      unfold feed
      rw [if_pos some]
      dsimp only
      rw [Nat.sub_zero, stuck, Nat.add_zero, Nat.zero_mod, ih]

/-- The loop that feeds an MD5 implementation computes the digest of all data that a size can count exactly
when an `unsigned int` has 29 bits or more, or no fewer than a size: else the cast of a chunk can be zero, and
the loop never ends. -/
theorem md5_digests_all_iff {digestOf : List UInt8 → List UInt8} (streams : md5.Streams P digestOf) :
    (∀ data : List UInt8, data.length < 2 ^ P.wordSize → md5.digest P data = .ok (digestOf data)) ↔
      29 ≤ P.intSize ∨ P.wordSize ≤ P.intSize := by
  constructor
  · intro digests
    by_contra narrow
    obtain ⟨bits, word⟩ := not_or.mp narrow
    have length : (List.replicate (2 ^ P.intSize) (0 : UInt8)).length = 2 ^ P.intSize := List.length_replicate
    have sized : 2 ^ P.intSize < 2 ^ P.wordSize := Nat.pow_lt_pow_right Nat.one_lt_two (Nat.lt_of_not_le word)
    have small : 2 ^ P.intSize ≤ 0x10000000 :=
      (Nat.pow_le_pow_right Nat.two_pos (by omega : P.intSize ≤ 28)).trans (by decide)
    have stuck : chunk P (2 ^ P.intSize) = 0 := by
      unfold chunk
      rw [if_pos small, Nat.mod_self]
    have fails := digests (List.replicate (2 ^ P.intSize) 0) (length.trans_lt sized)
    rw [digest, length, Nat.mod_eq_of_lt sized, feed_stuck (Nat.two_pow_pos _) stuck] at fails
    cases fails
  · intro wide data sized
    obtain ⟨pieces, whole, fit, fed⟩ := feed_covers md5 sized (fun _ rest => chunk_holds wide sized rest)
      (Nat.zero_le _) (Nat.lt_succ_self data.length) md5.init
    rw [digest, Nat.mod_eq_of_lt sized, fed, ok_bind, streams pieces fit, whole, List.drop_zero]

/-- An implementation that keeps the message until the end, at the digest of one byte. -/
theorem md5_digests_all_iff_byte : ∃ (md5 : Md5 (List UInt8)) (digestOf : List UInt8 → List UInt8),
    (∀ data : List UInt8, data.length < 2 ^ 64 → md5.digest Platform.lp64 data = .ok (digestOf data)) ∧
      md5.hashData .little [11] = .ok ⟨0x5730c9b4, 0x669bdf66⟩ := by
  let digest : List UInt8 :=
    [0x13, 0xc8, 0xff, 0xd9, 0x77, 0x01, 0x37, 0x03, 0xa7, 0x01, 0xcf, 0x8e, 0x11, 0xde, 0xac, 0x65]
  let digestOf : List UInt8 → List UInt8 := fun data => if data = [11] then digest else []
  let md5 : Md5 (List UInt8) := { init := [], update := (· ++ ·), final := digestOf }
  have streams : md5.Streams Platform.lp64 digestOf := by
    intro pieces _
    show digestOf (pieces.foldl (· ++ ·) []) = digestOf pieces.flatten
    rw [List.foldl_append_eq_append, List.map_id', List.nil_append]
  refine ⟨md5, digestOf, (md5_digests_all_iff streams).mpr (.inl (by decide)), ?_⟩
  decide +kernel

end Md5
end Coucal
