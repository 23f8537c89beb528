import Memprof.Library.Scanf

/-! # `%d` and `strtol`

A number that is printed in decimal and read back, on a machine whose `long` has 64 bits.
-/

namespace Memprof.Library.Decimal

/-- `%d` -/
def print (value : ℤ) : List Char :=
  if value < 0 then '-' :: Nat.toDigits 10 value.natAbs else Nat.toDigits 10 value.natAbs

/-- `strtol` in base 10: the value, and what comes behind it. -/
def strtol (string : List Char) : ℤ × List Char :=
  let (negative, input) := Scanf.readSign (string.dropWhile Scanf.isSpace)
  let digits := input.takeWhile Char.isDigit
  if digits = [] then (0, string)
  else
    let value : ℤ := Nat.ofDigitChars 10 digits 0
    (max (-2 ^ 63) (min (2 ^ 63 - 1) (if negative then -value else value)), input.dropWhile Char.isDigit)

/-- What an `int` keeps of a `long`. -/
def toInt (value : ℤ) : ℤ := value.bmod (2 ^ 32)

theorem toInt_eq {value : ℤ} (fits : -2 ^ 31 ≤ value ∧ value < 2 ^ 31) : toInt value = value := by
  rw [toInt, Int.bmod_def]
  omega

section Digits

variable (number : ℕ)

theorem isDigit_toDigits : ∀ char ∈ Nat.toDigits 10 number, char.isDigit = true :=
  fun _ member => Nat.isDigit_of_mem_toDigits (by decide) (by decide) member

/-- A digit is neither white space nor a sign. -/
theorem plain_of_isDigit {char : Char} (digit : char.isDigit = true) :
    Scanf.isSpace char = false ∧ char ≠ '-' ∧ char ≠ '+' := by
  have range : 48 ≤ char.toNat ∧ char.toNat ≤ 57 := by
    simpa [Char.isDigit, UInt32.le_iff_toNat_le] using digit
  refine ⟨?_, ?_, ?_⟩
  · rw [Scanf.isSpace, decide_eq_false_iff_not]
    omega
  · rintro rfl
    exact absurd range.1 (by decide)
  · rintro rfl
    exact absurd range.1 (by decide)

theorem whiles_toDigits :
    (Nat.toDigits 10 number).takeWhile Char.isDigit = Nat.toDigits 10 number ∧
      (Nat.toDigits 10 number).dropWhile Char.isDigit = [] :=
  ⟨List.takeWhile_eq_self_iff.mpr (isDigit_toDigits number), List.dropWhile_eq_nil_iff.mpr (isDigit_toDigits number)⟩

theorem readSign_toDigits :
    Scanf.readSign ((Nat.toDigits 10 number).dropWhile Scanf.isSpace) = (false, Nat.toDigits 10 number) := by
  cases spelled : Nat.toDigits 10 number with
  | nil => exact absurd spelled Nat.toDigits_ne_nil
  | cons first rest =>
    obtain ⟨space, minus, plus⟩ := plain_of_isDigit (isDigit_toDigits number first (by simp [spelled]))
    rw [List.dropWhile_cons_of_neg (by simp [space]), Scanf.readSign_eq minus plus]

end Digits

/-- What was printed is read, up to its end. -/
theorem strtol_print {value : ℤ} (fits : -2 ^ 63 ≤ value ∧ value < 2 ^ 63) : strtol (print value) = (value, []) := by
  have value' : Nat.ofDigitChars 10 (Nat.toDigits 10 value.natAbs) 0 = value.natAbs :=
    Nat.ofDigitChars_toDigits (by decide) (by decide)
  obtain ⟨taken, dropped⟩ := whiles_toDigits value.natAbs
  unfold strtol print
  by_cases negative : value < 0
  · have sign : Scanf.readSign (('-' :: Nat.toDigits 10 value.natAbs).dropWhile Scanf.isSpace) =
        (true, Nat.toDigits 10 value.natAbs) := rfl
    simp only [if_pos negative, sign, taken, dropped, if_neg Nat.toDigits_ne_nil, value', if_true, Prod.mk.injEq,
      and_true]
    omega
  · simp only [if_neg negative, readSign_toDigits, taken, dropped, if_neg Nat.toDigits_ne_nil, value',
      Bool.false_eq_true, if_false, Prod.mk.injEq, and_true]
    omega

theorem print_ne_nil (value : ℤ) : print value ≠ [] := by
  unfold print
  split
  · simp
  · exact Nat.toDigits_ne_nil

end Memprof.Library.Decimal
