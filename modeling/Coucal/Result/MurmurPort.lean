import Mathlib.Data.Int.Basic
import Mathlib.Tactic.IntervalCases
import Mathlib.Algebra.Ring.Int.Defs
import Coucal.Construction.MurmurOriginal
import Coucal.Proof.Murmur

namespace Coucal
namespace Murmur
namespace Original

open Outcome

theorem intOf_eq {value : Int} (lower : -0x80000000 ≤ value) (upper : value < 0x80000000) : intOf value = .ok value :=
  if_pos ⟨lower, upper⟩

section Blocks

variable {order : ByteOrder} {key : List UInt8}

/-- A word inside the key is read where the port reads it. -/
theorem getblock32_eq {p i : Int} {word : Nat} (place : p + i = word) (inside : (word + 1) * 4 ≤ key.length) :
    getblock32 order key p i = .ok (Murmur.getblock32 order key word) := by
  unfold getblock32
  rw [place, if_pos (by omega)]
  rfl

/-- The loop of the original mixes the blocks that are left in the order of the port. -/
theorem mixBlocks_eq {done left rounds : Nat} (h : Lanes) (enough : left < rounds)
    (inside : (done + left) * 16 ≤ key.length) (small : left < 2 ^ 28) :
    mixBlocks order key ((done + left : Nat) * 4) rounds (-(left : Int)) (Murmur.mixBlocks order key done h) =
      .ok (Murmur.mixBlocks order key (done + left) h) := by
  induction left generalizing done rounds with
  | zero =>
      cases rounds with
      | zero => exact absurd enough (Nat.not_lt_zero 0)
      | succ rounds => rfl
  | succ left ih =>
      cases rounds with
      | zero => exact absurd enough (Nat.not_lt_zero _)
      | succ rounds =>
          have index {j : Int} (lower : 0 ≤ j) (upper : j < 4) : intOf (-((left + 1 : Nat) : Int) * 4 + j) =
              .ok (-((left + 1 : Nat) : Int) * 4 + j) := intOf_eq (by omega) (by omega)
          have read (j : Int) (lane : Nat) (same : j = lane) (below : lane < 4) :
              getblock32 order key ((done + (left + 1) : Nat) * 4) (-((left + 1 : Nat) : Int) * 4 + j) =
                .ok (Murmur.getblock32 order key (done * 4 + lane)) := getblock32_eq (by omega) (by omega)
          have next : intOf (-((left + 1 : Nat) : Int) + 1) = .ok (-(left : Int)) := by
            rw [intOf_eq (by omega) (by omega)]
            congr 1
            omega
          have more : (-((left + 1 : Nat) : Int)) ≠ 0 := by omega
          have inside' : (done + 1 + left) * 16 ≤ key.length := by omega
          rw [mixBlocks, if_neg more, index (by decide) (by decide), ok_bind, read 0 0 rfl (by decide), ok_bind,
            index (by decide) (by decide), ok_bind, read 1 1 rfl (by decide), ok_bind,
            index (by decide) (by decide), ok_bind, read 2 2 rfl (by decide), ok_bind,
            index (by decide) (by decide), ok_bind, read 3 3 rfl (by decide), ok_bind, next, ok_bind]
          have rest := ih (by omega : left < rounds) inside' (by omega)
          rw [Nat.add_right_comm done 1 left] at rest
          exact rest

/-- A loop that starts above zero never returns. -/
theorem mixBlocks_diverges {p i : Int} {rounds : Nat} {h final : Lanes} (positive : 0 < i)
    (enough : 2 ^ 29 < i + rounds) : mixBlocks order key p rounds i h ≠ .ok final := by
  induction rounds generalizing i h with
  | zero => exact fun returned => nomatch returned
  | succ rounds ih =>
      intro returned
      rw [mixBlocks, if_neg (by omega)] at returned
      obtain ⟨_, first, returned⟩ := bind_eq_ok.mp returned
      obtain ⟨_, -, returned⟩ := bind_eq_ok.mp returned
      obtain ⟨_, -, returned⟩ := bind_eq_ok.mp returned
      obtain ⟨_, -, returned⟩ := bind_eq_ok.mp returned
      obtain ⟨_, -, returned⟩ := bind_eq_ok.mp returned
      obtain ⟨_, -, returned⟩ := bind_eq_ok.mp returned
      obtain ⟨_, -, returned⟩ := bind_eq_ok.mp returned
      obtain ⟨_, -, returned⟩ := bind_eq_ok.mp returned
      obtain ⟨next, stepped, returned⟩ := bind_eq_ok.mp returned
      have range : i + 1 = next := by
        unfold intOf at stepped
        split at stepped
        next => exact Except.ok.inj stepped
        next => cases stepped
      exact ih (by omega) (by omega) returned

end Blocks

section Tail

variable {key : List UInt8} {base r : Nat}

/-- A byte of the tail is shifted into the sign of an `int`. -/
def HighByte (tail : List UInt8) (r : Nat) : Prop := ∃ i ∈ [3, 7, 11], i < r ∧ 128 ≤ (byteAt tail i).toNat

theorem byteAt_tail (key : List UInt8) (base i : Nat) :
    byteAt key ((base : Int) + (i : Int)).toNat = byteAt (key.drop base) i := by
  have place : ((base : Int) + (i : Int)).toNat = base + i := by omega
  rw [place, byteAt_drop]

/-- A shift of a byte inside the tail, when it does not reach the sign. -/
theorem shifted_eq {i shift : Nat} (inside : base + r ≤ key.length) (below : i < r)
    (small : (byteAt (key.drop base) i).toNat * 2 ^ shift < 2 ^ 31) :
    shifted key base i shift = .ok (tailByte (key.drop base) r i shift) := by
  unfold shifted
  rw [if_pos (by omega), byteAt_tail]
  dsimp only
  rw [if_pos small, tailByte, if_pos below]

theorem shifted_low {i shift : Nat} (inside : base + r ≤ key.length) (below : i < r) (low : shift ≤ 16) :
    shifted key base i shift = .ok (tailByte (key.drop base) r i shift) := by
  refine shifted_eq inside below ?_
  calc (byteAt (key.drop base) i).toNat * 2 ^ shift ≤ (byteAt (key.drop base) i).toNat * 2 ^ 16 :=
        Nat.mul_le_mul_left _ (Nat.pow_le_pow_right Nat.two_pos low)
    _ < 2 ^ 31 := by omega

theorem shifted_top {i : Nat} (inside : base + r ≤ key.length) (below : i < r)
    (low : (byteAt (key.drop base) i).toNat < 128) :
    shifted key base i 24 = .ok (tailByte (key.drop base) r i 24) :=
  shifted_eq inside below (by omega)

/-- The words that the cases from a byte on have collected. -/
def collected (tail : List UInt8) (r n : Nat) : Lanes :=
  let byte (i shift : Nat) : BitVec 32 := if n ≤ i then tailByte tail r i shift else 0
  { h1 := byte 3 24 ^^^ byte 2 16 ^^^ byte 1 8 ^^^ byte 0 0
    h2 := byte 7 24 ^^^ byte 6 16 ^^^ byte 5 8 ^^^ byte 4 0
    h3 := byte 11 24 ^^^ byte 10 16 ^^^ byte 9 8 ^^^ byte 8 0
    h4 := byte 14 16 ^^^ byte 13 8 ^^^ byte 12 0 }

/-- The words after the cases from a byte on. The last case of a word mixes it. -/
def words (tail : List UInt8) (r n : Nat) : Lanes :=
  let k := collected tail r n
  { h1 := if n ≤ 0 ∧ 0 < r then mixK1 k.h1 else k.h1
    h2 := if n ≤ 4 ∧ 4 < r then mixK2 k.h2 else k.h2
    h3 := if n ≤ 8 ∧ 8 < r then mixK3 k.h3 else k.h3
    h4 := if n ≤ 12 ∧ 12 < r then mixK4 k.h4 else k.h4 }

/-- The lanes after the cases from a byte on. -/
def lanes (tail : List UInt8) (r n : Nat) (h : Lanes) : Lanes :=
  let k := collected tail r n
  { h1 := if n ≤ 0 ∧ 0 < r then h.h1 ^^^ mixK1 k.h1 else h.h1
    h2 := if n ≤ 4 ∧ 4 < r then h.h2 ^^^ mixK2 k.h2 else h.h2
    h3 := if n ≤ 8 ∧ 8 < r then h.h3 ^^^ mixK3 k.h3 else h.h3
    h4 := if n ≤ 12 ∧ 12 < r then h.h4 ^^^ mixK4 k.h4 else h.h4 }

/-- A case collects its byte. -/
theorem tailCase_eq {n : Nat} {h : Lanes} (short : r < 16) (inside : base + r ≤ key.length)
    (low : ¬ HighByte (key.drop base) r) (below : n < r) :
    tailCase key base (words (key.drop base) r (n + 1)) (lanes (key.drop base) r (n + 1) h) (n + 1) =
      .ok (words (key.drop base) r n, lanes (key.drop base) r n h) := by
  have byte {i shift : Nat} (below : i < r) (small : shift ≤ 16) :
      shifted key base i shift = .ok (tailByte (key.drop base) r i shift) := shifted_low inside below small
  have top {i : Nat} (below : i < r) (place : i ∈ [3, 7, 11]) :
      shifted key base i 24 = .ok (tailByte (key.drop base) r i 24) :=
    shifted_top inside below (Nat.lt_of_not_le fun high => low ⟨i, place, below, high⟩)
  have last : n < 15 := by omega
  interval_cases n <;>
    simp [tailCase, words, lanes, collected, byte below, top below, below, ok_bind]

/-- Without a high byte the switch mixes the tail as the port does. -/
theorem fallThrough_eq {h : Lanes} (short : r < 16) (inside : base + r ≤ key.length)
    (low : ¬ HighByte (key.drop base) r) :
    fallThrough key base r ⟨0, 0, 0, 0⟩ h = .ok (mixTail (key.drop base) r h) := by
  have cases_below (n : Nat) (below : n ≤ r) :
      fallThrough key base n (words (key.drop base) r n) (lanes (key.drop base) r n h) =
        .ok (lanes (key.drop base) r 0 h) := by
    induction n with
    | zero => rfl
    | succ n ih =>
        rw [fallThrough, tailCase_eq short inside low below]
        exact ih (Nat.le_of_succ_le below)
  have none (i shift : Nat) : (if r ≤ i then tailByte (key.drop base) r i shift else 0) = 0 := by
    split
    next above => exact if_neg (Nat.not_lt_of_le above)
    next => rfl
  have empty : collected (key.drop base) r r = ⟨0, 0, 0, 0⟩ := by
    simp only [collected, none]
    rfl
  have never (i : Nat) : ¬ (r ≤ i ∧ i < r) := fun both => absurd both.2 (Nat.not_lt_of_le both.1)
  have start : words (key.drop base) r r = ⟨0, 0, 0, 0⟩ := by simp only [words, empty, if_neg (never _)]
  have same : lanes (key.drop base) r r h = h := by simp only [lanes, if_neg (never _)]
  have mixed : lanes (key.drop base) r 0 h = mixTail (key.drop base) r h := by
    simp [lanes, collected, mixTail]
  have whole := cases_below r (Nat.le_refl r)
  rwa [start, same, mixed] at whole

/-- A switch that returns has passed its cases. -/
theorem fallThrough_passes {n : Nat} {k h final : Lanes} (returned : fallThrough key base n k h = .ok final)
    {i : Nat} (below : i < n) : ∃ k h result, tailCase key base k h (i + 1) = .ok result := by
  induction n generalizing k h with
  | zero => exact absurd below (Nat.not_lt_zero i)
  | succ n ih =>
      obtain ⟨⟨k', h'⟩, passed, rest⟩ := bind_eq_ok.mp returned
      rcases Nat.lt_succ_iff_lt_or_eq.mp below with below | rfl
      · exact ih rest below
      · exact ⟨k, h, _, passed⟩

/-- A switch that returns has met no high byte. -/
theorem fallThrough_low {k h final : Lanes} (returned : fallThrough key base r k h = .ok final) :
    ¬ HighByte (key.drop base) r := by
  rintro ⟨i, place, below, high⟩
  obtain ⟨k, h, result, passed⟩ := fallThrough_passes returned below
  obtain ⟨value, shifts⟩ : ∃ value, shifted key base i 24 = .ok value := by
    simp only [List.mem_cons, List.not_mem_nil, or_false] at place
    rcases place with rfl | rfl | rfl <;> obtain ⟨value, shifts, -⟩ := bind_eq_ok.mp passed <;> exact ⟨value, shifts⟩
  have same := byteAt_tail key base i
  unfold shifted at shifts
  split at shifts
  next =>
    dsimp only at shifts
    rw [same, if_neg (by omega)] at shifts
    cases shifts
  next => cases shifts

end Tail

/-- The bytes after the last block have a high byte where the original shifts into the sign. -/
def HighTail (key : List UInt8) : Prop := HighByte (key.drop (key.length / 16 * 16)) (key.length % 16)

/-- A length below two gigabytes is an `int`. -/
theorem toInt_small {size : Nat} (small : size < 2 ^ 31) : (BitVec.ofNat 32 size).toInt = size := by
  rw [BitVec.toInt_eq_toNat_cond, BitVec.toNat_ofNat, Nat.mod_eq_of_lt (by omega), if_pos (by omega)]

/-- A larger length is negative. -/
theorem toInt_large {size : Nat} (large : 2 ^ 31 ≤ size) (word : size < 2 ^ 32) :
    (BitVec.ofNat 32 size).toInt = size - 2 ^ 32 := by
  rw [BitVec.toInt_eq_toNat_cond, BitVec.toNat_ofNat, Nat.mod_eq_of_lt word, if_neg (by omega)]
  rfl

/-- Sixteen bytes keep the alignment of a word. -/
theorem Host.aligned_iff (host : Host) (address : Nat) (nblocks : Int) :
    (host.align : Int) ∣ address + nblocks * 16 ↔ host.align ∣ address := by
  have block : (host.align : Int) ∣ nblocks * 16 :=
    (Int.natCast_dvd_natCast.mpr (host.align_dvd.trans (by decide : 4 ∣ 16))).mul_left nblocks
  rw [Int.dvd_add_left block, Int.natCast_dvd_natCast]

/-- The port computes the digest of the original for each key below two gigabytes for which the original is defined,
which are the aligned keys without a high byte at these three places of the tail. From there to four gigabytes, less
sixteen bytes, the original never returns. -/
theorem port_agrees (host : Host) (address : Nat) (key : List UInt8) (seed : BitVec 32) :
    (key.length < 2 ^ 31 → ∀ digest, murmurHash3_x86_128 host address key seed = .ok digest ↔
        host.align ∣ address ∧ ¬ HighTail key ∧ Murmur.murmurHash3_x86_128 host.order key seed = digest) ∧
      (2 ^ 31 ≤ key.length → key.length ≤ 2 ^ 32 - 16 → ∀ digest,
        murmurHash3_x86_128 host address key seed ≠ .ok digest) := by
  constructor
  · intro small digest
    let nblocks := key.length / 16
    have tail : ((key.length : Int) % 16).toNat = key.length % 16 := by omega
    have place : ((nblocks : Int) * 16) = (nblocks * 16 : Nat) := by omega
    have short : key.length % 16 < 16 := Nat.mod_lt _ (by decide)
    have inside : nblocks * 16 + key.length % 16 ≤ key.length := by omega
    have blocks : mixBlocks host.order key ((0 + nblocks : Nat) * 4) (2 ^ 32) (-(nblocks : Int))
        (Murmur.mixBlocks host.order key 0 ⟨seed, seed, seed, seed⟩) =
          .ok (Murmur.mixBlocks host.order key (0 + nblocks) ⟨seed, seed, seed, seed⟩) :=
      mixBlocks_eq _ (by omega) (by omega) (by omega)
    rw [Nat.zero_add] at blocks
    unfold murmurHash3_x86_128
    dsimp only
    rw [toInt_small small, show (key.length : Int).tdiv 16 = (nblocks : Int) from rfl, tail, BitVec.ofInt_natCast]
    simp only [host.aligned_iff]
    by_cases aligned : host.align ∣ address
    · rw [if_neg (not_not.mpr aligned), place]
      have start : mixBlocks host.order key ((nblocks : Int) * 4) (2 ^ 32) (-(nblocks : Int)) ⟨seed, seed, seed, seed⟩ =
        .ok (Murmur.mixBlocks host.order key nblocks ⟨seed, seed, seed, seed⟩) := blocks
      rw [start, ok_bind]
      by_cases low : HighTail key
      · constructor
        · intro returned
          obtain ⟨_, passed, -⟩ := bind_eq_ok.mp returned
          exact absurd low (fallThrough_low passed)
        · rintro ⟨-, high, -⟩
          exact absurd low high
      · rw [fallThrough_eq short inside low, ok_bind]
        constructor
        · intro returned
          exact ⟨aligned, low, Except.ok.inj returned⟩
        · rintro ⟨-, -, same⟩
          exact congrArg Except.ok same
    · rw [if_pos aligned]
      constructor
      · intro returned
        cases returned
      · rintro ⟨inside, -⟩
        exact absurd inside aligned
  · intro large bounded digest returned
    unfold murmurHash3_x86_128 at returned
    dsimp only at returned
    split at returned
    next => cases returned
    next =>
      obtain ⟨_, looped, -⟩ := bind_eq_ok.mp returned
      have len : (BitVec.ofNat 32 key.length).toInt = -(2 ^ 32 - key.length : Nat) := by
        rw [toInt_large large (by omega)]
        omega
      have blocks : (BitVec.ofNat 32 key.length).toInt.tdiv 16 = -((2 ^ 32 - key.length) / 16 : Nat) := by
        rw [len, Int.neg_tdiv]
        rfl
      rw [blocks, Int.neg_neg] at looped
      exact mixBlocks_diverges (by omega) (by omega) looped

/-- A key of one block and one more byte. -/
theorem port_agrees_block : ∃ digest, murmurHash3_x86_128 ⟨.little, 4, by decide⟩ 4096 (List.replicate 17 97) 42 =
    .ok digest ∧ Murmur.murmurHash3_x86_128 .little (List.replicate 17 97) 42 = digest := by
  have low : ¬ HighTail (List.replicate 17 97) := by
    unfold HighTail HighByte
    decide
  have agrees := (port_agrees ⟨.little, 4, by decide⟩ 4096 (List.replicate 17 97) 42).1 (by decide)
  exact ⟨_, (agrees _).mpr ⟨by decide, low, rfl⟩, rfl⟩

end Original
end Murmur
end Coucal
