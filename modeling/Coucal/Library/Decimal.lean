import Mathlib.Data.Nat.Digits.Defs

namespace Decimal

/-- The character of a digit. -/
def digitChar (digit : Nat) : UInt8 := UInt8.ofNat (48 + digit)

def isDigit (char : UInt8) : Bool := 48 ≤ char.toNat ∧ char.toNat < 58

/-- The decimal digits of a number, the most significant first. -/
def print (n : Nat) : List UInt8 := if n = 0 then [digitChar 0] else ((Nat.digits 10 n).map digitChar).reverse

/-- The number that some digits stand for. -/
def value (chars : List UInt8) : Nat := chars.foldl (fun n char => n * 10 + (char.toNat - 48)) 0

theorem toNat_digitChar {digit : Nat} (small : digit < 10) : (digitChar digit).toNat = 48 + digit := by
  unfold digitChar
  rw [UInt8.toNat_ofNat']
  omega

theorem isDigit_digitChar {digit : Nat} (small : digit < 10) : isDigit (digitChar digit) = true := by
  unfold isDigit
  rw [toNat_digitChar small]
  exact decide_eq_true ⟨Nat.le_add_right _ _, by omega⟩

/-- The value of digits that are written in reverse. -/
theorem value_reverse {digits : List Nat} (small : ∀ digit ∈ digits, digit < 10) :
    value (digits.map digitChar).reverse = Nat.ofDigits 10 digits := by
  unfold value
  rw [List.foldl_reverse, List.foldr_map]
  induction digits with
  | nil => rfl
  | cons digit digits ih =>
      rw [List.foldr_cons, ih fun other member => small other (List.mem_cons_of_mem _ member),
        toNat_digitChar (small digit List.mem_cons_self), Nat.ofDigits_cons]
      omega

/-- A number is read back from its digits. -/
theorem value_print (n : Nat) : value (print n) = n := by
  unfold print
  split
  next zero =>
    rw [zero]
    rfl
  next nonzero =>
    rw [value_reverse fun digit => Nat.digits_lt_base (by decide), Nat.ofDigits_digits]

theorem print_injective : Function.Injective print := fun n m same => by
  rw [← value_print n, same, value_print]

theorem isDigit_of_mem_print {n : Nat} {char : UInt8} (member : char ∈ print n) : isDigit char = true := by
  unfold print at member
  split at member
  next =>
    rw [List.mem_singleton.mp member]
    exact isDigit_digitChar (by decide)
  next =>
    rw [List.mem_reverse] at member
    obtain ⟨digit, among, rfl⟩ := List.mem_map.mp member
    exact isDigit_digitChar (Nat.digits_lt_base (by decide) among)

theorem print_ne_nil (n : Nat) : print n ≠ [] := by
  unfold print
  split
  next => exact List.cons_ne_nil _ _
  next nonzero =>
    rw [ne_eq, List.reverse_eq_nil_iff, List.map_eq_nil_iff]
    exact Nat.digits_ne_nil_iff_ne_zero.mpr nonzero

/-- The digits of a number end where another character follows. -/
theorem takeWhile_print (n : Nat) (rest : List UInt8) (stop : ∀ char, rest.head? = some char → isDigit char = false) :
    (print n ++ rest).takeWhile isDigit = print n := by
  rw [List.takeWhile_append_of_pos fun _ => isDigit_of_mem_print]
  cases rest with
  | nil => simp
  | cons char rest => rw [List.takeWhile_cons_of_neg (by simp [stop char rfl]), List.append_nil]

end Decimal
