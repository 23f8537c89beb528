import Mathlib.Data.List.TakeWhile
import Mathlib.Data.Nat.Digits.Defs
import Mathlib.Tactic.IntervalCases

/-! # `sscanf`

The directives of a format and what they assign, in the C locale, on a machine whose
`unsigned long` has 64 bits.  A number that is written out with its leading zeros is a
`Numeral`; what another directive makes of one depends on the base it reads in.  A `Char`
stands for a byte.
-/

namespace Memprof.Library.Scanf

/-! ## Formats -/

inductive Directive where
  /-- White space: any amount of it, or none. -/
  | space
  | literal (char : Char)
  /-- `%x`, `%u` and their kin: the base, and how many bits are stored; none for `%*x`. -/
  | number (base : ℕ) (store : Option ℕ)
  /-- `%15s` -/
  | word (width : ℕ)

inductive Value where
  | number (value : ℕ)
  | text (chars : List Char)
deriving DecidableEq

def isSpace (char : Char) : Bool := char.toNat = 32 ∨ 9 ≤ char.toNat ∧ char.toNat ≤ 13

def digitOf (char : Char) : ℕ :=
  if 48 ≤ char.toNat ∧ char.toNat ≤ 57 then char.toNat - 48
  else if 97 ≤ char.toNat ∧ char.toNat ≤ 102 then char.toNat - 87
  else if 65 ≤ char.toNat ∧ char.toNat ≤ 70 then char.toNat - 55
  else 16

def isDigit (base : ℕ) (char : Char) : Bool := digitOf char < base

/-- The value of digits, the most significant one first. -/
def valueOf (base : ℕ) (digits : List ℕ) : ℕ := Nat.ofDigits base digits.reverse

/-- An optional sign, and whether it is a minus. -/
def readSign : List Char → Bool × List Char
  | '-' :: input => (true, input)
  | '+' :: input => (false, input)
  | input => (false, input)

/-- The optional `0x` of a number in base 16.  If no digit follows it, the directive fails as ISO C
has it; glibc converts the `0`. -/
def skipRadix (base : ℕ) (input : List Char) : List Char :=
  match input with
  | '0' :: mark :: rest => if base = 16 ∧ (mark = 'x' ∨ mark = 'X') then rest else input
  | _ => input

/-- `strtoul`: a number that is too large is the largest one. -/
def strtoul (negative : Bool) (value : ℕ) : ℕ :=
  if 2 ^ 64 ≤ value then 2 ^ 64 - 1 else if negative then (2 ^ 64 - value) % 2 ^ 64 else value

/-- What the directives assign before the first one that fails. -/
def scan : List Directive → List Char → List Value
  | [], _ => []
  | .space :: format, input => scan format (input.dropWhile isSpace)
  | .literal _ :: _, [] => []
  | .literal char :: format, first :: input => if first = char then scan format input else []
  | .number base store :: format, input =>
    let (negative, input) := readSign (input.dropWhile isSpace)
    let input := skipRadix base input
    let digits := input.takeWhile (isDigit base)
    if digits = [] then []
    else
      let rest := scan format (input.dropWhile (isDigit base))
      match store with
      | some bits => .number (strtoul negative (valueOf base (digits.map digitOf)) % 2 ^ bits) :: rest
      | none => rest
  | .word width :: format, input =>
    let input := input.dropWhile isSpace
    let word := (input.takeWhile (!isSpace ·)).take width
    if word = [] then [] else .text word :: scan format (input.drop word.length)

/-! ## Numerals -/

/-- The digits of a number below `limit`, the most significant one first. -/
structure Numeral (base limit : ℕ) where
  digits : List (Fin base)
  nonempty : digits ≠ []
  fits : valueOf base (digits.map Fin.val) < limit

def charsOf (digits : List ℕ) : List Char := digits.map Nat.digitChar

namespace Numeral

variable {base limit : ℕ}

def values (numeral : Numeral base limit) : List ℕ := numeral.digits.map Fin.val

def value (numeral : Numeral base limit) : ℕ := valueOf base numeral.values

def chars (numeral : Numeral base limit) : List Char := charsOf numeral.values

theorem values_nonempty (numeral : Numeral base limit) : numeral.values ≠ [] := by
  simpa [values] using numeral.nonempty

theorem lt_base (numeral : Numeral base limit) : ∀ digit ∈ numeral.values, digit < base := by
  intro digit member
  obtain ⟨finite, _, rfl⟩ := List.mem_map.mp member
  exact finite.isLt

theorem value_lt (numeral : Numeral base limit) : numeral.value < limit := numeral.fits

end Numeral

theorem digitOf_digitChar {digit : ℕ} (small : digit < 16) : digitOf (Nat.digitChar digit) = digit := by
  interval_cases digit <;> decide

theorem isSpace_digitChar {digit : ℕ} (small : digit < 16) : isSpace (Nat.digitChar digit) = false := by
  interval_cases digit <;> decide

theorem digitChar_ne {digit : ℕ} (small : digit < 16) {char : Char} (none : 16 ≤ digitOf char) :
    Nat.digitChar digit ≠ char := by
  intro same
  rw [← same, digitOf_digitChar small] at none
  omega

/-- No character of `tail` belongs to a number in front of it. -/
def Closed (tail : List Char) : Prop := ∀ char ∈ tail.head?, 16 ≤ digitOf char ∧ char ≠ 'x' ∧ char ≠ 'X'

theorem closed_cons {char : Char} (none : 16 ≤ digitOf char ∧ char ≠ 'x' ∧ char ≠ 'X') (tail : List Char) :
    Closed (char :: tail) := by
  rintro first ⟨⟩
  exact none

theorem closed_blank : ∀ tail, Closed (' ' :: tail) := closed_cons (by decide)

theorem takeWhile_append_of_head {α : Type} {test : α → Bool} (items : List α) {tail : List α}
    (stops : ∀ item ∈ tail.head?, test item = false) :
    (items ++ tail).takeWhile test = items.takeWhile test ∧
      (items ++ tail).dropWhile test = items.dropWhile test ++ tail := by
  induction items with
  | nil =>
    cases tail with
    | nil => exact ⟨rfl, rfl⟩
    | cons item tail =>
      have fails := stops item rfl
      simp [fails]
  | cons item items inductionHypothesis =>
    cases passes : test item with
    | true => simp [passes, inductionHypothesis]
    | false => simp [passes]

theorem whiles_charsOf {base : ℕ} (small : base ≤ 16) {digits : List ℕ} (hex : ∀ digit ∈ digits, digit < 16)
    {tail : List Char} (closed : Closed tail) :
    (charsOf digits ++ tail).takeWhile (isDigit base) = charsOf (digits.takeWhile (· < base)) ∧
      (charsOf digits ++ tail).dropWhile (isDigit base) = charsOf (digits.dropWhile (· < base)) ++ tail := by
  have stops : ∀ char ∈ tail.head?, isDigit base char = false := by
    intro char first
    have := (closed char first).1
    simp only [isDigit, decide_eq_false_iff_not]
    omega
  rw [(takeWhile_append_of_head _ stops).1, (takeWhile_append_of_head _ stops).2]
  induction digits with
  | nil => exact ⟨rfl, rfl⟩
  | cons digit digits inductionHypothesis =>
    obtain ⟨taken, dropped⟩ := inductionHypothesis fun other member => hex other (by simp [member])
    have same : isDigit base (Nat.digitChar digit) = decide (digit < base) := by
      rw [isDigit, digitOf_digitChar (hex digit (by simp))]
    simp only [charsOf, List.map_cons, List.takeWhile_cons, List.dropWhile_cons, same] at taken dropped ⊢
    by_cases below : digit < base
    · simp only [below, decide_true, if_true, List.map_cons, taken, true_and]
      exact dropped
    · simp [below]

theorem readSign_eq {char : Char} (minus : char ≠ '-') (plus : char ≠ '+') (input : List Char) :
    readSign (char :: input) = (false, char :: input) := by
  unfold readSign
  split
  next other => cases other; exact absurd rfl minus
  next other => cases other; exact absurd rfl plus
  next => rfl

/-- Digits do not begin with white space, nor with a sign. -/
theorem dropWhile_charsOf {digits : List ℕ} (hex : ∀ digit ∈ digits, digit < 16) (nonempty : digits ≠ [])
    (tail : List Char) : (charsOf digits ++ tail).dropWhile isSpace = charsOf digits ++ tail := by
  cases digits with
  | nil => exact absurd rfl nonempty
  | cons digit digits => simp [charsOf, isSpace_digitChar (hex digit (by simp))]

theorem readSign_charsOf {digits : List ℕ} (hex : ∀ digit ∈ digits, digit < 16) (nonempty : digits ≠ [])
    (tail : List Char) : readSign (charsOf digits ++ tail) = (false, charsOf digits ++ tail) := by
  cases digits with
  | nil => exact absurd rfl nonempty
  | cons digit digits =>
    have first := hex digit (by simp)
    exact readSign_eq (digitChar_ne first (by decide)) (digitChar_ne first (by decide)) _

theorem map_digitOf_charsOf {digits : List ℕ} (hex : ∀ digit ∈ digits, digit < 16) :
    (charsOf digits).map digitOf = digits := by
  have each : ∀ digit ∈ digits, (digitOf ∘ Nat.digitChar) digit = id digit :=
    fun digit member => digitOf_digitChar (hex digit member)
  rw [charsOf, List.map_map, List.map_congr_left each, List.map_id]

theorem skipRadix_eq (base : ℕ) {digits : List ℕ} (hex : ∀ digit ∈ digits, digit < 16) {tail : List Char}
    (closed : Closed tail) (nonempty : digits ≠ []) :
    skipRadix base (charsOf digits ++ tail) = charsOf digits ++ tail := by
  cases digits with
  | nil => exact absurd rfl nonempty
  | cons digit digits =>
    unfold skipRadix
    split
    next mark rest spelled =>
      have plain : mark ≠ 'x' ∧ mark ≠ 'X' := by
        cases digits with
        | nil =>
          simp only [charsOf, List.map_cons, List.map_nil, List.cons_append, List.nil_append, List.cons.injEq] at spelled
          exact (closed mark (by simp [spelled.2])).2
        | cons next digits =>
          have small := hex next (by simp)
          simp only [charsOf, List.map_cons, List.cons_append, List.cons.injEq] at spelled
          rw [← spelled.2.1]
          exact ⟨digitChar_ne small (by decide), digitChar_ne small (by decide)⟩
      simp [plain]
    next => rfl

/-- A directive reads the digits of its base in front of what follows, and needs one of them. -/
theorem scan_number {base : ℕ} (small : base ≤ 16) {digits : List ℕ} (hex : ∀ digit ∈ digits, digit < 16)
    (nonempty : digits ≠ []) {tail : List Char} (closed : Closed tail) (store : Option ℕ) (format : List Directive) :
    scan (.number base store :: format) (charsOf digits ++ tail) =
      if digits.takeWhile (· < base) = [] then []
      else
        let rest := scan format (charsOf (digits.dropWhile (· < base)) ++ tail)
        match store with
        | some bits => .number (strtoul false (valueOf base (digits.takeWhile (· < base))) % 2 ^ bits) :: rest
        | none => rest := by
  obtain ⟨taken, dropped⟩ := whiles_charsOf small hex closed
  have back : (charsOf (digits.takeWhile (· < base))).map digitOf = digits.takeWhile (· < base) :=
    map_digitOf_charsOf fun digit member => hex digit ((List.takeWhile_sublist _).subset member)
  have empty : charsOf (digits.takeWhile (· < base)) = [] ↔ digits.takeWhile (· < base) = [] := List.map_eq_nil_iff
  rw [scan]
  simp only [dropWhile_charsOf hex nonempty, readSign_charsOf hex nonempty, skipRadix_eq base hex closed nonempty, taken,
    dropped, back, empty]

/-! ## Reading in the base of a numeral, and in another one -/

theorem takeWhile_lt {bound : ℕ} {digits : List ℕ} (all : ∀ digit ∈ digits, digit < bound) :
    digits.takeWhile (· < bound) = digits ∧ digits.dropWhile (· < bound) = [] := by
  have passes : ∀ digit ∈ digits, decide (digit < bound) = true := fun digit member => by simpa using all digit member
  exact ⟨List.takeWhile_eq_self_iff.mpr passes, List.dropWhile_eq_nil_iff.mpr passes⟩

theorem strtoul_eq {value : ℕ} (fits : value < 2 ^ 64) : strtoul false value = value := by
  rw [strtoul, if_neg (Nat.not_le.mpr fits)]
  rfl

theorem dropWhile_chars {base limit : ℕ} (small : base ≤ 16) (numeral : Numeral base limit) (tail : List Char) :
    (numeral.chars ++ tail).dropWhile isSpace = numeral.chars ++ tail :=
  dropWhile_charsOf (fun digit member => (numeral.lt_base digit member).trans_le small) numeral.values_nonempty tail

/-- A numeral read in its own base. -/
theorem scan_numeral {base limit : ℕ} (small : base ≤ 16) (numeral : Numeral base limit) {tail : List Char}
    (closed : Closed tail) {bits : ℕ} (long : limit ≤ 2 ^ 64) (stored : limit ≤ 2 ^ bits) (format : List Directive) :
    scan (.number base (some bits) :: format) (numeral.chars ++ tail) = .number numeral.value :: scan format tail := by
  have hex : ∀ digit ∈ numeral.values, digit < 16 := fun digit member => (numeral.lt_base digit member).trans_le small
  have value := numeral.value_lt
  rw [Numeral.chars, scan_number small hex numeral.values_nonempty closed, (takeWhile_lt numeral.lt_base).1,
    (takeWhile_lt numeral.lt_base).2, if_neg numeral.values_nonempty]
  show Value.number (strtoul false numeral.value % 2 ^ bits) :: scan format tail = _
  rw [strtoul_eq (value.trans_le long), Nat.mod_eq_of_lt (value.trans_le stored)]

/-- The same without a place to store the number. -/
theorem scan_numeral_none {base limit : ℕ} (small : base ≤ 16) (numeral : Numeral base limit) {tail : List Char}
    (closed : Closed tail) (format : List Directive) :
    scan (.number base none :: format) (numeral.chars ++ tail) = scan format tail := by
  have hex : ∀ digit ∈ numeral.values, digit < 16 := fun digit member => (numeral.lt_base digit member).trans_le small
  rw [Numeral.chars, scan_number small hex numeral.values_nonempty closed, (takeWhile_lt numeral.lt_base).1,
    (takeWhile_lt numeral.lt_base).2, if_neg numeral.values_nonempty]
  rfl

theorem valueOf_le (digits : List ℕ) : valueOf 10 digits ≤ valueOf 16 digits :=
  Nat.ofDigits_monotone _ (by decide)

/-- No digit is larger than the number. -/
theorem digit_le_valueOf {base : ℕ} (positive : 0 < base) (digits : List ℕ) :
    ∀ digit ∈ digits, digit ≤ valueOf base digits := by
  intro digit member
  rw [← List.mem_reverse] at member
  rw [valueOf]
  generalize digits.reverse = reversed at member ⊢
  induction reversed with
  | nil => cases member
  | cons first rest inductionHypothesis =>
    rw [Nat.ofDigits_cons]
    rcases List.mem_cons.mp member with rfl | later
    · exact Nat.le_add_right _ _
    · calc
        digit ≤ Nat.ofDigits base rest := inductionHypothesis later
        _ ≤ base * Nat.ofDigits base rest := Nat.le_mul_of_pos_left _ positive
        _ ≤ first + base * Nat.ofDigits base rest := Nat.le_add_left _ _

/-- The same digits mean the same in both bases only if none but the last one counts. -/
theorem valueOf_eq_iff {digits : List ℕ} (decimal : ∀ digit ∈ digits, digit < 10) :
    valueOf 10 digits = valueOf 16 digits ↔ valueOf 16 digits < 10 := by
  have reversed : ∀ digit ∈ digits.reverse, digit < 10 := fun digit member => decimal digit (List.mem_reverse.mp member)
  unfold valueOf
  cases spelled : digits.reverse with
  | nil => simp
  | cons last rest =>
    have small := reversed last (by simp [spelled])
    have monotone : Nat.ofDigits 10 rest ≤ Nat.ofDigits 16 rest := Nat.ofDigits_monotone rest (by decide)
    rw [Nat.ofDigits_cons, Nat.ofDigits_cons]
    omega

end Memprof.Library.Scanf
