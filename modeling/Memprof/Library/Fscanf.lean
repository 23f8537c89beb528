import Mathlib.Data.List.Infix
import Memprof.Library.Scanf

/-! # `fscanf`, with words and numbers that are not stored

Numbers in base 10, words and single characters.  What stands between two numbers is read
only by white space and signs, so that numbers do not get past any other character: behind
it there is nothing more to read, however many directives are left.
-/

namespace Memprof.Library.Fscanf

open Scanf

inductive Directive where
  | space
  /-- `%lu`, or `%*d` and `%*u` if it is not assigned. -/
  | number (assign : Bool)
  /-- `%*s` -/
  | skipWord
  /-- `%c`, which skips no white space. -/
  | char

inductive Value where
  | number (value : ℕ)
  | char (char : Char)
deriving DecidableEq

/-- A number and what follows it. -/
def readNumber (input : List Char) : Option (ℕ × List Char) :=
  let (negative, input) := readSign (input.dropWhile isSpace)
  let digits := input.takeWhile (isDigit 10)
  if digits = [] then none
  else some (strtoul negative (valueOf 10 (digits.map digitOf)), input.dropWhile (isDigit 10))

/-- What follows a word. -/
def skipWord (input : List Char) : Option (List Char) :=
  let input := input.dropWhile isSpace
  if input.takeWhile (!isSpace ·) = [] then none else some (input.dropWhile (!isSpace ·))

/-- What the directives assign before the first one that fails. -/
def scan : List Directive → List Char → List Value
  | [], _ => []
  | .space :: format, input => scan format (input.dropWhile isSpace)
  | .number assign :: format, input =>
    match readNumber input with
    | none => []
    | some (value, rest) => if assign then .number value :: scan format rest else scan format rest
  | .skipWord :: format, input =>
    match skipWord input with
    | none => []
    | some rest => scan format rest
  | .char :: _, [] => []
  | .char :: format, char :: input => .char char :: scan format input

/-- Numbers with white space in front of each of them. -/
def numbers (assigns : List Bool) : List Directive := assigns.flatMap fun assign => [.space, .number assign]

/-! ## Numbers as they are written -/

structure SignedNumeral where
  negative : Bool
  numeral : Numeral 10 (2 ^ 64)

def SignedNumeral.chars (signed : SignedNumeral) : List Char :=
  (if signed.negative then ['-'] else []) ++ signed.numeral.chars

theorem lt_hex (numeral : Numeral 10 (2 ^ 64)) : ∀ digit ∈ numeral.values, digit < 16 :=
  fun digit member => (numeral.lt_base digit member).trans (by decide)

theorem readNumber_digits (numeral : Numeral 10 (2 ^ 64)) {tail : List Char} (closed : Closed tail) :
    (numeral.chars ++ tail).takeWhile (isDigit 10) = numeral.chars ∧
      (numeral.chars ++ tail).dropWhile (isDigit 10) = tail ∧ numeral.chars ≠ [] ∧
      valueOf 10 (numeral.chars.map digitOf) = numeral.value := by
  obtain ⟨taken, dropped⟩ := whiles_charsOf (by decide : 10 ≤ 16) (lt_hex numeral) closed
  rw [(takeWhile_lt numeral.lt_base).1] at taken
  rw [(takeWhile_lt numeral.lt_base).2] at dropped
  refine ⟨taken, dropped, by simpa [Numeral.chars, charsOf] using numeral.values_nonempty, ?_⟩
  exact congrArg (valueOf 10) (map_digitOf_charsOf (lt_hex numeral))

/-- A number is read whole. -/
theorem readNumber_numeral (numeral : Numeral 10 (2 ^ 64)) {tail : List Char} (closed : Closed tail) :
    readNumber (numeral.chars ++ tail) = some (numeral.value, tail) := by
  obtain ⟨taken, dropped, nonempty, value⟩ := readNumber_digits numeral closed
  have unsigned : readSign (numeral.chars ++ tail) = (false, numeral.chars ++ tail) :=
    readSign_charsOf (lt_hex numeral) numeral.values_nonempty tail
  rw [readNumber, dropWhile_chars (by decide), unsigned]
  dsimp only
  rw [taken, dropped, if_neg nonempty, value, strtoul_eq numeral.value_lt]

theorem readNumber_signed (signed : SignedNumeral) {tail : List Char} (closed : Closed tail) :
    ∃ value, readNumber (signed.chars ++ tail) = some (value, tail) := by
  unfold SignedNumeral.chars
  split
  next =>
    obtain ⟨taken, dropped, nonempty, _⟩ := readNumber_digits signed.numeral closed
    have minus : ('-' :: (signed.numeral.chars ++ tail)).dropWhile isSpace = '-' :: (signed.numeral.chars ++ tail) :=
      List.dropWhile_cons_of_neg (by decide)
    have sign : readSign ('-' :: (signed.numeral.chars ++ tail)) = (true, signed.numeral.chars ++ tail) := rfl
    refine ⟨strtoul true (valueOf 10 (signed.numeral.chars.map digitOf)), ?_⟩
    rw [readNumber, List.singleton_append, List.cons_append, minus, sign]
    dsimp only
    rw [taken, dropped, if_neg nonempty]
  next => exact ⟨_, readNumber_numeral signed.numeral closed⟩

theorem dropWhile_signed (signed : SignedNumeral) (tail : List Char) :
    (signed.chars ++ tail).dropWhile isSpace = signed.chars ++ tail := by
  unfold SignedNumeral.chars
  split
  next => exact List.dropWhile_cons_of_neg (by decide)
  next => exact dropWhile_chars (by decide) signed.numeral tail

/-- Numbers with a blank in front of each of them. -/
def fieldsChars (fields : List SignedNumeral) : List Char := fields.flatMap fun field => ' ' :: field.chars

theorem closed_fields (fields : List SignedNumeral) {tail : List Char} (closed : Closed tail) :
    Closed (fieldsChars fields ++ tail) := by
  cases fields with
  | nil => exact closed
  | cons field fields => exact closed_blank _

/-- Fields that are not stored are read over. -/
theorem scan_fields (fields : List SignedNumeral) (format : List Directive) {tail : List Char} (closed : Closed tail) :
    scan (numbers (List.replicate fields.length false) ++ format) (fieldsChars fields ++ tail) = scan format tail := by
  induction fields with
  | nil => rfl
  | cons field fields inductionHypothesis =>
    obtain ⟨value, read⟩ := readNumber_signed field (closed_fields fields closed)
    have blank : (' ' :: (field.chars ++ (fieldsChars fields ++ tail))).dropWhile isSpace =
        field.chars ++ (fieldsChars fields ++ tail) := by
      rw [List.dropWhile_cons_of_pos (by decide), dropWhile_signed]
    rw [fieldsChars, List.flatMap_cons, List.cons_append, List.cons_append, List.append_assoc, List.length_cons,
      List.replicate_succ, numbers, List.flatMap_cons]
    simp only [List.cons_append, List.nil_append, scan]
    rw [← fieldsChars, blank, read]
    exact inductionHypothesis

/-- The same for one field that is stored. -/
theorem scan_field (numeral : Numeral 10 (2 ^ 64)) (format : List Directive) {tail : List Char} (closed : Closed tail) :
    scan (.space :: .number true :: format) (' ' :: (numeral.chars ++ tail)) =
      .number numeral.value :: scan format tail := by
  simp only [scan]
  rw [List.dropWhile_cons_of_pos (by decide), dropWhile_chars (by decide), readNumber_numeral numeral closed]
  rfl

theorem scan_unassigned (count : ℕ) (input : List Char) : scan (numbers (List.replicate count false)) input = [] := by
  induction count generalizing input with
  | zero => rfl
  | succ count inductionHypothesis =>
    rw [List.replicate_succ, numbers, List.flatMap_cons]
    simp only [List.cons_append, List.nil_append, scan]
    split
    next => rfl
    next => exact inductionHypothesis _

/-! ## What numbers do not get past -/

/-- A character that is in no number and between none. -/
def Stops (char : Char) : Prop := isSpace char = false ∧ isDigit 10 char = false ∧ char ≠ '-' ∧ char ≠ '+'

instance (char : Char) : Decidable (Stops char) := inferInstanceAs (Decidable (_ ∧ _))

theorem readSign_append {stop : Char} (stops : Stops stop) (input rest : List Char) :
    readSign (input ++ stop :: rest) = ((readSign input).1, (readSign input).2 ++ stop :: rest) := by
  obtain ⟨_, _, minus, plus⟩ := stops
  cases input with
  | nil => exact readSign_eq minus plus rest
  | cons first input =>
    by_cases negative : first = '-'
    · subst negative
      rfl
    by_cases positive : first = '+'
    · subst positive
      rfl
    rw [List.cons_append, readSign_eq negative positive, readSign_eq negative positive]
    rfl

theorem readNumber_append {stop : Char} (stops : Stops stop) (input rest : List Char) :
    readNumber (input ++ stop :: rest) = (readNumber input).map fun read => (read.1, read.2 ++ stop :: rest) := by
  have unspaced : ∀ char ∈ (stop :: rest).head?, isSpace char = false := by
    rintro char ⟨⟩
    exact stops.1
  have undigited : ∀ char ∈ (stop :: rest).head?, isDigit 10 char = false := by
    rintro char ⟨⟩
    exact stops.2.1
  unfold readNumber
  rw [(takeWhile_append_of_head input unspaced).2, readSign_append stops]
  dsimp only
  obtain ⟨taken, dropped⟩ := takeWhile_append_of_head (readSign (input.dropWhile isSpace)).2 undigited
  rw [taken, dropped]
  split
  next => rfl
  next => rfl

/-- Numbers in front of such a character are the same without what follows. -/
theorem scan_numbers_append {stop : Char} (stops : Stops stop) (assigns : List Bool) (input rest : List Char) :
    scan (numbers assigns) (input ++ stop :: rest) = scan (numbers assigns) input := by
  have unspaced : ∀ char ∈ (stop :: rest).head?, isSpace char = false := by
    rintro char ⟨⟩
    exact stops.1
  induction assigns generalizing input with
  | nil => rfl
  | cons assign assigns inductionHypothesis =>
    rw [numbers, List.flatMap_cons]
    simp only [List.cons_append, List.nil_append, scan]
    rw [← numbers, (takeWhile_append_of_head input unspaced).2, readNumber_append stops]
    cases readNumber (input.dropWhile isSpace) with
    | none => rfl
    | some read =>
      simp only [Option.map_some, inductionHypothesis]

/-! ## How long numbers are -/

/-- A number that begins with a digit. -/
def StartsWithDigit (input : List Char) : Prop := ∃ char ∈ input.head?, isDigit 10 char = true

theorem readSign_suffix (input : List Char) : (readSign input).2 <:+ input := by
  unfold readSign
  split
  next => exact List.suffix_cons _ _
  next => exact List.suffix_cons _ _
  next => exact List.suffix_refl _

theorem startsWithDigit_of_takeWhile {input : List Char} (digits : input.takeWhile (isDigit 10) ≠ []) :
    StartsWithDigit input := by
  cases input with
  | nil => exact absurd rfl digits
  | cons first input =>
    refine ⟨first, rfl, ?_⟩
    by_contra other
    exact digits (by rw [List.takeWhile_cons, if_neg other])

theorem not_startsWithDigit_dropWhile (input : List Char) : ¬ StartsWithDigit (input.dropWhile (isDigit 10)) := by
  rintro ⟨char, first, digit⟩
  have nonempty : input.dropWhile (isDigit 10) ≠ [] := by
    intro empty
    rw [empty] at first
    cases first
  have stopped := List.head_dropWhile_not (isDigit 10) nonempty
  rw [List.head?_eq_some_head nonempty] at first
  cases first
  rw [digit] at stopped
  cases stopped

/-- The text in front of the digits is empty only if the input begins with one. -/
theorem startsWithDigit_of_length {input : List Char}
    (same : input.length ≤ (readSign (input.dropWhile isSpace)).2.length)
    (digit : StartsWithDigit (readSign (input.dropWhile isSpace)).2) : StartsWithDigit input := by
  have unspaced : input.dropWhile isSpace = input := by
    refine (List.dropWhile_suffix isSpace).eq_of_length_le ?_
    exact same.trans (readSign_suffix _).length_le
  rw [unspaced] at same digit
  rwa [(readSign_suffix input).eq_of_length_le same] at digit

/-- A number that does not begin with a digit has at least two characters. -/
theorem readNumber_length {input : List Char} {value : ℕ} {rest : List Char}
    (read : readNumber input = some (value, rest)) :
    ¬ StartsWithDigit rest ∧ rest.length + 1 ≤ input.length ∧
      (¬ StartsWithDigit input → rest.length + 2 ≤ input.length) := by
  unfold readNumber at read
  dsimp only at read
  split at read
  next => cases read
  next digits =>
    cases read
    have first := startsWithDigit_of_takeWhile digits
    have some_digit := List.length_pos_iff.mpr digits
    have split := congrArg List.length
      (List.takeWhile_append_dropWhile (p := isDigit 10) (l := (readSign (input.dropWhile isSpace)).2))
    rw [List.length_append] at split
    have shorter := (readSign_suffix (input.dropWhile isSpace)).length_le.trans (List.dropWhile_suffix isSpace).length_le
    refine ⟨not_startsWithDigit_dropWhile _, by omega, fun other => ?_⟩
    have signed : ¬ input.length ≤ (readSign (input.dropWhile isSpace)).2.length :=
      fun same => other (startsWithDigit_of_length same first)
    omega

/-- What is read behind `count` numbers needs two characters for each of them. -/
theorem scan_numbers_length (count : ℕ) (format : List Directive) (input : List Char)
    (reads : scan (numbers (List.replicate count false) ++ format) input ≠ []) :
    2 * count ≤ input.length + 1 ∧ (¬ StartsWithDigit input → 2 * count ≤ input.length) := by
  induction count generalizing input with
  | zero => exact ⟨Nat.zero_le _, fun _ => Nat.zero_le _⟩
  | succ count inductionHypothesis =>
    rw [List.replicate_succ, numbers, List.flatMap_cons] at reads
    simp only [List.cons_append, List.nil_append, scan] at reads
    rw [← numbers] at reads
    cases read : readNumber (input.dropWhile isSpace) with
    | none => simp [read] at reads
    | some number =>
      obtain ⟨value, rest⟩ := number
      rw [read] at reads
      obtain ⟨stopped, shorter, signed⟩ := readNumber_length read
      have later := (inductionHypothesis rest reads).2 stopped
      have skipped := (List.dropWhile_suffix isSpace (l := input)).length_le
      refine ⟨by omega, fun other => ?_⟩
      by_cases digit : StartsWithDigit (input.dropWhile isSpace)
      · have spaced : (input.dropWhile isSpace).length ≠ input.length := by
          intro same
          rw [(List.dropWhile_suffix isSpace).eq_of_length same] at digit
          exact other digit
        omega
      · have := signed digit
        omega

end Memprof.Library.Fscanf
