import Mathlib.Data.FinEnum
import Mathlib.Tactic.Common

namespace Words

/-- The signed reading of a word survives the conversion to a width: a narrower width must hold it, and a
wider one extends with zeros. -/
def Fits (width : Nat) {w : Nat} (word : BitVec w) : Prop :=
  if width ≤ w then -2 ^ width ≤ 2 * word.toInt ∧ 2 * word.toInt < 2 ^ width else 0 ≤ word.toInt

instance {width w : Nat} (word : BitVec w) : Decidable (Fits width word) := by
  unfold Fits
  infer_instance

/-- A remainder of least absolute value is the number itself exactly when the number is that small. -/
theorem bmod_eq_self_iff {number : Int} {modulus : Nat} (positive : 0 < modulus) :
    number.bmod modulus = number ↔ -(modulus : Int) ≤ 2 * number ∧ 2 * number < modulus := by
  rw [Int.bmod_eq_iff positive, Int.sub_self]
  constructor
  · rintro ⟨lower, upper, -⟩
    omega
  · rintro ⟨lower, upper⟩
    exact ⟨by omega, by omega, Int.dvd_zero _⟩

theorem toInt_setWidth_eq_iff {width w : Nat} (word : BitVec w) :
    (word.setWidth width).toInt = word.toInt ↔ Fits width word := by
  rw [BitVec.toInt_setWidth]
  unfold Fits
  split
  next narrow =>
    have divides : 2 ^ width ∣ 2 ^ w := Nat.pow_dvd_pow 2 narrow
    rw [← Int.bmod_bmod_of_dvd divides, ← BitVec.toInt_eq_toNat_bmod,
      bmod_eq_self_iff (Nat.two_pow_pos width)]
    push_cast
    exact Iff.rfl
  next wide =>
    have bound : 2 * word.toNat < 2 ^ width := by
      have half : 2 * 2 ^ w ≤ 2 ^ width := by
        rw [Nat.mul_comm, ← Nat.pow_succ]
        exact Nat.pow_le_pow_right Nat.two_pos (by omega)
      have below := word.isLt
      omega
    rw [(bmod_eq_self_iff (Nat.two_pow_pos width)).mpr ⟨by omega, by exact_mod_cast bound⟩]
    constructor
    · intro same
      rw [← same]
      exact Int.natCast_nonneg _
    · intro nonnegative
      exact (BitVec.toInt_eq_toNat_of_lt (BitVec.toInt_pos_iff.mp nonnegative)).symm

/-- A small word survives the conversion to a width and the signed conversion back. -/
theorem signExtend_setWidth {w width : Nat} {word : BitVec w} (small : word.toNat < 2 ^ (width - 1)) :
    (word.setWidth width).signExtend w = word := by
  have below : word.toNat % 2 ^ width < 2 ^ (width - 1) := (Nat.mod_le _ _).trans_lt small
  have positive : (word.setWidth width).msb = false := by
    rw [BitVec.msb_eq_decide, BitVec.toNat_setWidth]
    exact decide_eq_false (Nat.not_le.mpr below)
  have inside : word.toNat < 2 ^ width := small.trans_le (Nat.pow_le_pow_right Nat.two_pos (Nat.sub_le _ _))
  apply BitVec.eq_of_toNat_eq
  rw [BitVec.signExtend_eq_setWidth_of_msb_false positive, BitVec.toNat_setWidth, BitVec.toNat_setWidth,
    Nat.mod_eq_of_lt inside, Nat.mod_eq_of_lt word.isLt]

section Permutations

variable {w : Nat}

/-- Injective functions of words are onto. -/
theorem surjective_of_injective {f : BitVec w → BitVec w} (injective : Function.Injective f) :
    Function.Surjective f := Finite.injective_iff_surjective.mp injective

/-- A product with an invertible word loses nothing. -/
theorem mul_injective {factor inverse : BitVec w} (unit : factor * inverse = 1) :
    Function.Injective fun word => word * factor := by
  intro first second same
  have undone : first * factor * inverse = second * factor * inverse := congrArg (· * inverse) same
  have one : (1 : BitVec w) = 1#w := rfl
  rwa [BitVec.mul_assoc, BitVec.mul_assoc, unit, one, BitVec.mul_one, BitVec.mul_one] at undone

/-- A rotation keeps each bit. -/
theorem rotate_injective {amount : Nat} (inside : amount < w) :
    Function.Injective fun word : BitVec w => (word <<< amount) ||| (word >>> (w - amount)) := by
  intro first second same
  apply BitVec.eq_of_getLsbD_eq
  intro i below
  rcases Nat.lt_or_ge (i + amount) w with up | wraps
  · have bit := congrArg (fun word : BitVec w => word.getLsbD (i + amount)) same
    have beyond : ∀ word : BitVec w, word.getLsbD (w - amount + (i + amount)) = false :=
      fun word => BitVec.getLsbD_of_ge _ _ (by omega)
    simpa [up, beyond, Nat.not_lt.mpr (Nat.le_add_left amount i), below] using bit
  · have bit := congrArg (fun word : BitVec w => word.getLsbD (i + amount - w)) same
    have lower : i + amount - w < amount := by omega
    have source : w - amount + (i + amount - w) = i := by omega
    simpa [lower, source] using bit

/-- Two words side by side keep both. -/
theorem append_inj {v : Nat} {high high' : BitVec v} {low low' : BitVec w} (same : high ++ low = high' ++ low') :
    high = high' ∧ low = low' := by
  have left := congrArg (BitVec.extractLsb' w v) same
  have right := congrArg (BitVec.setWidth w) same
  rw [BitVec.extractLsb'_append_eq_left, BitVec.extractLsb'_append_eq_left] at left
  rw [BitVec.setWidth_append_eq_right, BitVec.setWidth_append_eq_right] at right
  exact ⟨left, right⟩

/-- The exclusive or with the upper bits loses nothing: the difference of two words with the same result
would be its own shift. -/
theorem xorShift_injective {shift : Nat} (positive : 0 < shift) :
    Function.Injective fun word : BitVec w => word ^^^ (word >>> shift) := by
  intro first second same
  have shifted : (first ^^^ second) >>> shift = first ^^^ second := by
    apply BitVec.eq_of_getLsbD_eq
    intro i _
    have bit := congrArg (fun word : BitVec w => word.getLsbD i) same
    simp only [BitVec.getLsbD_xor, BitVec.getLsbD_ushiftRight] at bit ⊢
    generalize first.getLsbD i = a, second.getLsbD i = b, first.getLsbD (shift + i) = c,
      second.getLsbD (shift + i) = d at bit ⊢
    revert a b c d
    decide
  have zero : (first ^^^ second).toNat = 0 := by
    have value := congrArg BitVec.toNat shifted
    rw [BitVec.toNat_ushiftRight, Nat.shiftRight_eq_div_pow] at value
    by_contra nonzero
    have smaller := Nat.div_lt_self (Nat.pos_of_ne_zero nonzero) (Nat.one_lt_two_pow positive.ne')
    omega
  exact BitVec.xor_eq_zero_iff.mp (BitVec.eq_of_toNat_eq zero)

/-- A fold by injective steps keeps different states apart. -/
theorem foldl_injective {σ β : Type} {step : σ → β → σ} (injective : ∀ value, Function.Injective fun state => step state value)
    (values : List β) : Function.Injective fun state => values.foldl step state := by
  induction values with
  | nil => exact fun _ _ same => same
  | cons value values ih => exact ih.comp (injective value)

end Permutations
end Words
