import Memprof.Library.Outcome
import Memprof.Printf
import Memprof.Verified.RoundTrip

/-! # What `mi_vprintf` prints

For literal text and directives the output is made of chunks, which are the text and the
values of the arguments but for two things: an `unsigned int` is taken for an `int`, and a
length of `2 ^ 31` or more does not fit the `int` of `write_all`.  Whatever the format is, the
two cursors stay within it.
-/

namespace Memprof.Printf

open Library RoundTrip

/-! ## Numbers -/

/-- The digits of a number; zero has none. -/
def digitsOf (radix num : ℕ) : List UInt8 := if num = 0 then [] else literal (Nat.toDigits radix num)

theorem digitByte_eq {c : ℕ} (small : c < 16) : digitByte c = byte (Nat.digitChar c) := by
  have all : ∀ c : Fin 16, digitByte c = byte (Nat.digitChar c) := by decide
  exact all ⟨c, small⟩

theorem digitsOf_eq {radix num : ℕ} (base : 1 < radix) (small : radix ≤ 16) (positive : 0 < num) :
    digitsOf radix num = digitsOf radix (num / radix) ++ [digitByte (num % radix)] := by
  have below : num % radix < 16 := Nat.lt_of_lt_of_le (Nat.mod_lt _ (by omega)) small
  rw [digitsOf, if_neg (by omega), Nat.toDigits_eq_if base, digitByte_eq below]
  by_cases last : num < radix
  · rw [if_pos last, Nat.div_eq_of_lt last, Nat.mod_eq_of_lt last, digitsOf, if_pos rfl]
    rfl
  · have more : num / radix ≠ 0 := Nat.ne_of_gt (Nat.div_pos (by omega) (by omega))
    rw [if_neg last, digitsOf, if_neg more, literal, List.map_append]
    rfl

theorem countDigits_eq {radix fuel num : ℕ} (base : 1 < radix) (small : radix ≤ 16) (enough : num < radix ^ fuel) :
    countDigits radix fuel num = .ok (digitsOf radix num).length := by
  induction fuel generalizing num with
  | zero =>
    obtain rfl : num = 0 := by simpa using enough
    rfl
  | succ fuel inductionHypothesis =>
    cases num with
    | zero => rfl
    | succ num =>
      have less : (num + 1) / radix < radix ^ fuel := by
        rw [Nat.div_lt_iff_lt_mul (by omega), ← Nat.pow_succ]
        exact enough
      have step : countDigits radix (fuel + 1) (num + 1) =
          (countDigits radix fuel ((num + 1) / radix)).map (· + 1) := rfl
      rw [step, inductionHypothesis less, digitsOf_eq base small (Nat.succ_pos num)]
      simp [Except.map]

theorem putDigits_eq {radix fuel num : ℕ} (base : 1 < radix) (small : radix ≤ 16) (enough : num < radix ^ fuel)
    {buffer : List (Option UInt8)} (room : (digitsOf radix num).length ≤ buffer.length) :
    putDigits radix fuel buffer (digitsOf radix num).length num =
      .ok ((digitsOf radix num).map some ++ buffer.drop (digitsOf radix num).length) := by
  induction fuel generalizing num buffer with
  | zero =>
    obtain rfl : num = 0 := by simpa using enough
    rfl
  | succ fuel inductionHypothesis =>
    cases num with
    | zero => rfl
    | succ num =>
      have less : (num + 1) / radix < radix ^ fuel := by
        rw [Nat.div_lt_iff_lt_mul (by omega), ← Nat.pow_succ]
        exact enough
      rw [digitsOf_eq base small (Nat.succ_pos num)] at room ⊢
      rw [List.length_append, List.length_singleton] at room ⊢
      have inside : (digitsOf radix ((num + 1) / radix)).length < buffer.length := room
      have step : ∀ i, putDigits radix (fuel + 1) buffer (i + 1) (num + 1) = if i < buffer.length then
          putDigits radix fuel (buffer.set i (some (digitByte ((num + 1) % radix)))) i ((num + 1) / radix)
        else .error .outOfBounds := fun _ => rfl
      rw [step, if_pos inside, inductionHypothesis less (by simpa using Nat.le_of_lt inside)]
      simp [List.drop_set, List.drop_eq_getElem_cons, inside]

theorem mapM_id_map_some (items : List UInt8) : (items.map some).mapM id = some items := by
  induction items with
  | nil => rfl
  | cons item items inductionHypothesis => simp [inductionHypothesis]

theorem readBuffer_eq (digits : List UInt8) (rest : List (Option UInt8)) :
    readBuffer (digits.map some ++ rest) digits.length = .ok digits := by
  have taken : (digits.map some ++ rest).take digits.length = digits.map some := by
    rw [List.take_append_of_le_length (by simp), List.take_of_length_le (by simp)]
  rw [readBuffer, taken, mapM_id_map_some]

/-! ## Chunks -/

/-- What `write_all` makes of a text. -/
def truncated (text : List UInt8) : List UInt8 := text.take (BitVec.ofNat 32 text.length).toInt.toNat

def putAll (outlet : Outlet) (chunks : List (List UInt8)) : Outlet := chunks.foldl Outlet.put outlet

theorem putAll_append (outlet : Outlet) (left right : List (List UInt8)) :
    putAll outlet (left ++ right) = putAll (putAll outlet left) right := List.foldl_append

theorem toInt_ofNat_toNat (length : ℕ) : (BitVec.ofNat 32 length).toInt.toNat ≤ length ∧
    (length < 2 ^ 31 → (BitVec.ofNat 32 length).toInt.toNat = length) ∧
    (2 ^ 31 ≤ length → (BitVec.ofNat 32 length).toInt.toNat + 2 ^ 31 ≤ length) := by
  have bits : (BitVec.ofNat 32 length).toNat = length % 2 ^ 32 := BitVec.toNat_ofNat _ _
  have value := BitVec.toInt_eq_toNat_cond (BitVec.ofNat 32 length)
  split at value
  · omega
  · omega

theorem truncated_of_lt {text : List UInt8} (short : text.length < 2 ^ 31) : truncated text = text := by
  rw [truncated, (toInt_ofNat_toNat text.length).2.1 short, List.take_length]

theorem length_truncated_long {text : List UInt8} (long : 2 ^ 31 ≤ text.length) :
    (truncated text).length + 2 ^ 31 ≤ text.length := by
  have less := (toInt_ofNat_toNat text.length).2.2 long
  rw [truncated, List.length_take]
  omega

/-- A part of an object that ends within it. -/
theorem writeAll_part (outlet : Outlet) (before text after : List UInt8) :
    writeAll outlet (before ++ (text ++ after)) before.length (.ofNat 32 text.length) =
      .ok (outlet.put (truncated text)) := by
  have less := (toInt_ofNat_toNat text.length).1
  have inside : before.length + (BitVec.ofNat 32 text.length).toInt.toNat ≤ (before ++ (text ++ after)).length := by
    simp only [List.length_append]
    omega
  simp only [writeAll, if_pos inside, List.drop_left, truncated, List.take_append_of_le_length less]

theorem writeAll_text (outlet : Outlet) {text : List UInt8} (short : text.length < 2 ^ 31) :
    writeAll outlet text 0 (.ofNat 32 text.length) = .ok (outlet.put text) := by
  have part := writeAll_part outlet [] text []
  rwa [List.nil_append, List.append_nil, truncated_of_lt short] at part

/-- The prefix of a hexadecimal number. -/
def radixPrefix (radix : ℕ) : List (List UInt8) := if radix = 16 then [literal ['0', 'x']] else []

def unsignedChunks (radix num : ℕ) : List (List UInt8) :=
  if num = 0 then [literal ['0']] else radixPrefix radix ++ [digitsOf radix num]

theorem writeUnsigned_eq (outlet : Outlet) (num : BitVec 64) {radix : ℕ} (known : radix = 10 ∨ radix = 16) :
    writeUnsigned outlet num radix = .ok (putAll outlet (unsignedChunks radix num.toNat)) := by
  have base : 1 < radix := by omega
  have small : radix ≤ 16 := by omega
  by_cases zero : num = 0
  · rw [writeUnsigned, if_pos zero, zero]
    exact @writeAll_text outlet (literal ['0']) (by decide)
  · have positive : num.toNat ≠ 0 := fun none => zero (BitVec.eq_of_toNat_eq none)
    have enough : num.toNat < radix ^ 64 := Nat.lt_of_lt_of_le num.isLt (Nat.pow_le_pow_left base 64)
    have room : (digitsOf radix num.toNat).length ≤ 64 := by
      rw [digitsOf, if_neg positive, literal, List.length_map]
      exact (Nat.length_toDigits_le_iff base (by omega)).mpr enough
    have pref : writePrefix outlet radix = .ok (putAll outlet (radixPrefix radix)) := by
      rcases known with rfl | rfl
      · rfl
      · exact @writeAll_text outlet (literal ['0', 'x']) (by decide)
    rw [writeUnsigned, if_neg zero, pref, ok_bind, countDigits_eq base small enough, ok_bind,
      putDigits_eq base small enough (by simpa using room), ok_bind, readBuffer_eq, ok_bind,
      writeAll_text _ (by omega), unsignedChunks, if_neg positive, putAll_append]
    rfl

def signedChunks (num : BitVec 64) : List (List UInt8) :=
  if num.toInt < 0 then literal ['-'] :: unsignedChunks 10 (-num).toNat else unsignedChunks 10 num.toNat

theorem writeSigned_eq (outlet : Outlet) (num : BitVec 64) :
    writeSigned outlet num 10 =
      if num = .intMin 64 then .error .signedOverflow else .ok (putAll outlet (signedChunks num)) := by
  unfold writeSigned
  by_cases negative : num.toInt < 0
  · rw [if_pos negative, signedChunks, if_pos negative]
    have sign : writeAll outlet (literal ['-']) 0 1 = .ok (outlet.put (literal ['-'])) :=
      @writeAll_text outlet (literal ['-']) (by decide)
    rw [sign, ok_bind, writeUnsigned_eq _ _ (.inl rfl)]
    rfl
  · have positive : num ≠ .intMin 64 := by
      rintro rfl
      exact negative (by decide)
    rw [if_neg negative, if_neg positive, signedChunks, if_neg negative, writeUnsigned_eq _ _ (.inl rfl)]

/-- An `int` has an opposite among the `long`s. -/
theorem signExtend_ne_intMin (value : BitVec 32) : value.signExtend 64 ≠ .intMin 64 := by
  intro same
  have extended := BitVec.toInt_signExtend_of_le (show 32 ≤ 64 by decide) (x := value)
  have bound : (BitVec.intMin 64).toInt = -2 ^ 63 := by decide
  rw [same, bound] at extended
  have := BitVec.le_toInt value
  omega

/-! ## What is to be printed -/

/-- The mathematical value in decimal. -/
def decimal (value : ℤ) : List UInt8 :=
  if value < 0 then byte '-' :: literal (Nat.toDigits 10 (-value).toNat) else literal (Nat.toDigits 10 value.toNat)

def hexadecimal (value : ℕ) : List UInt8 :=
  if value = 0 then literal ['0'] else literal ['0', 'x'] ++ literal (Nat.toDigits 16 value)

theorem flatten_unsigned (num : ℕ) : (unsignedChunks 10 num).flatten = literal (Nat.toDigits 10 num) ∧
    (unsignedChunks 16 num).flatten = hexadecimal num := by
  by_cases zero : num = 0
  · subst zero
    exact ⟨rfl, rfl⟩
  · simp [unsignedChunks, zero, radixPrefix, digitsOf, hexadecimal]

theorem flatten_signed {num : BitVec 64} (fits : num ≠ .intMin 64) :
    (signedChunks num).flatten = decimal num.toInt := by
  unfold signedChunks decimal
  by_cases negative : num.toInt < 0
  · have value : ((-num).toNat : ℤ) = -num.toInt := by
      have least : num.toInt ≠ (BitVec.intMin 64).toInt := fun same => fits (BitVec.eq_of_toInt_eq same)
      have bound : (BitVec.intMin 64).toInt = -2 ^ 63 := by decide
      have bits := BitVec.toInt_eq_toNat_cond num
      have opposite := BitVec.toNat_neg num
      have small := num.isLt
      split at bits <;> omega
    rw [if_pos negative, if_pos negative, List.flatten_cons, (flatten_unsigned _).1, ← value, Int.toNat_natCast]
    rfl
  · have value : num.toInt = num.toNat := by
      have bits := BitVec.toInt_eq_toNat_cond num
      split at bits <;> omega
    rw [if_neg negative, if_neg negative, (flatten_unsigned _).1, value, Int.toNat_natCast]

/-- A directive with its argument; `u` and `x` are given an `unsigned int`, `zu` and `zx` a
`size_t`. -/
inductive Directive where
  | percent
  | d (value : BitVec 32)
  | u (value : BitVec 32)
  | x (value : BitVec 32)
  | p (address : BitVec 64)
  | s (text : Option ByteString)
  | zd (value : BitVec 64)
  | zu (value : BitVec 64)
  | zx (value : BitVec 64)

namespace Directive

/-- What stands behind the `%`. -/
def letters : Directive → List UInt8
  | percent => literal ['%']
  | d _ => literal ['d']
  | u _ => literal ['u']
  | x _ => literal ['x']
  | p _ => literal ['p']
  | s _ => literal ['s']
  | zd _ => literal ['z', 'd']
  | zu _ => literal ['z', 'u']
  | zx _ => literal ['z', 'x']

def arguments : Directive → List Argument
  | percent => []
  | d value | u value | x value => [.int value]
  | p address => [.pointer address]
  | s text => [.string text]
  | zd value | zu value | zx value => [.size value]

def stringText (text : Option ByteString) : List UInt8 := text.elim (literal ['(', 'n', 'u', 'l', 'l', ')']) (·.1)

/-- The value of the argument. -/
def text : Directive → List UInt8
  | percent => literal ['%']
  | d value => decimal value.toInt
  | u value => literal (Nat.toDigits 10 value.toNat)
  | x value => hexadecimal value.toNat
  | p address => hexadecimal address.toNat
  | s text => stringText text
  | zd value => decimal value.toInt
  | zu value => literal (Nat.toDigits 10 value.toNat)
  | zx value => hexadecimal value.toNat

/-- An `unsigned int` that is no `int`. -/
def High : Directive → Prop
  | u value | x value => 2 ^ 31 ≤ value.toNat
  | percent | d _ | p _ | s _ | zd _ | zu _ | zx _ => False

/-- A string whose length does not fit an `int`. -/
def Long : Directive → Prop
  | s text => 2 ^ 31 ≤ (stringText text).length
  | percent | d _ | u _ | x _ | p _ | zd _ | zu _ | zx _ => False

/-- The `long` that has no opposite. -/
def Least : Directive → Prop
  | zd value => value = .intMin 64
  | percent | d _ | u _ | x _ | p _ | s _ | zu _ | zx _ => False

/-- What is written for a directive, or nothing where `-num` overflows. -/
def chunks : Directive → Option (List (List UInt8))
  | percent => some [literal ['%']]
  | d value => some (signedChunks (value.signExtend 64))
  | u value => some (unsignedChunks 10 (value.signExtend 64).toNat)
  | x value => some (unsignedChunks 16 (value.signExtend 64).toNat)
  | p address => some (unsignedChunks 16 address.toNat)
  | s text => some [truncated (stringText text)]
  | zd value => if value = .intMin 64 then none else some (signedChunks value)
  | zu value => some (unsignedChunks 10 value.toNat)
  | zx value => some (unsignedChunks 16 value.toNat)

end Directive

/-! ## The loop over a format -/

/-- Literal text. -/
abbrev Literal := { text : List UInt8 // byte '%' ∉ text ∧ 0 ∉ text }

def formatText : Literal → List (Directive × Literal) → List UInt8
  | first, [] => first.1
  | first, (directive, next) :: rest => first.1 ++ byte '%' :: (directive.letters ++ formatText next rest)

/-- The literal text with each directive replaced by the value of its argument. -/
def printed : Literal → List (Directive × Literal) → List UInt8
  | first, [] => first.1
  | first, (directive, next) :: rest => first.1 ++ (directive.text ++ printed next rest)

def chunksOf : Literal → List (Directive × Literal) → Option (List (List UInt8))
  | first, [] => some [truncated first.1]
  | first, (directive, next) :: rest =>
    directive.chunks.bind fun own => (chunksOf next rest).map fun later => truncated first.1 :: (own ++ later)

theorem letters_nonzero (directive : Directive) : 0 ∉ directive.letters := by
  cases directive <;> simp only [Directive.letters] <;> decide

theorem formatText_nonzero (first : Literal) (rest : List (Directive × Literal)) : 0 ∉ formatText first rest := by
  induction rest generalizing first with
  | nil => exact first.2.2
  | cons part rest inductionHypothesis =>
    have nonzero : (0 : UInt8) ≠ byte '%' := by decide
    simp only [formatText, List.mem_append, List.mem_cons, not_or]
    exact ⟨first.2.2, nonzero, letters_nonzero part.1, inductionHypothesis part.2⟩

def formatOf (first : Literal) (rest : List (Directive × Literal)) : ByteString :=
  ⟨formatText first rest, formatText_nonzero first rest⟩

theorem strchrPercent_literal {text : List UInt8} (plain : byte '%' ∉ text ∧ 0 ∉ text) (rest : List UInt8) (p : ℕ) :
    strchrPercent (text ++ byte '%' :: rest) p = .ok (some (p + text.length)) ∧
    strchrPercent (text ++ 0 :: rest) p = .ok none := by
  have zero : (0 : UInt8) ≠ byte '%' := by decide
  induction text generalizing p with
  | nil => simp [strchrPercent, zero]
  | cons c text inductionHypothesis =>
    simp only [List.mem_cons, not_or] at plain
    obtain ⟨found, none⟩ := inductionHypothesis ⟨plain.1.2, plain.2.2⟩ (p + 1)
    simp only [List.cons_append, strchrPercent, if_neg (Ne.symm plain.1.1), if_neg (Ne.symm plain.2.1), found, none,
      List.length_cons, and_true]
    congr 2
    omega

theorem strlen_literal {text : List UInt8} (nonzero : 0 ∉ text) (rest : List UInt8) :
    strlen (text ++ 0 :: rest) = .ok text.length := by
  induction text with
  | nil => rfl
  | cons c text inductionHypothesis =>
    simp only [List.mem_cons, not_or] at nonzero
    simp only [List.cons_append, strlen, if_neg (Ne.symm nonzero.1), inductionHypothesis nonzero.2, Except.map,
      List.length_cons]

theorem charAt_append (before : List UInt8) (c : UInt8) (after : List UInt8) :
    charAt (before ++ c :: after) before.length = .ok c := by
  simp [charAt]

namespace Directive

def letter : Directive → Letter
  | percent => .percent
  | d _ | zd _ => .d
  | u _ | zu _ => .u
  | x _ | zx _ => .x
  | p _ => .p
  | s _ => .s

def isSize : Directive → Bool
  | zd _ | zu _ | zx _ => true
  | percent | d _ | u _ | x _ | p _ | s _ => false

end Directive

theorem again_letter {before after : List UInt8} {c : UInt8} {letter : Letter} (read : Letter.ofByte c = letter)
    (other : letter ≠ .z) (fuel q : ℕ) (isSize : Bool) :
    again (before ++ c :: after) (fuel + 1) before.length q isSize = .ok (letter, q, isSize) := by
  rw [again, charAt_append, ok_bind, read]
  cases letter with
  | z => exact absurd rfl other
  | _ => rfl

theorem again_size {before after : List UInt8} {c : UInt8} {letter : Letter} (read : Letter.ofByte c = letter)
    (other : letter ≠ .z) (fuel q : ℕ) (isSize : Bool) :
    again (before ++ byte 'z' :: c :: after) (fuel + 2) before.length q isSize = .ok (letter, q + 1, true) := by
  have size : Letter.ofByte (byte 'z') = .z := by decide
  have next := @again_letter (before ++ [byte 'z']) after c letter read other fuel (q + 1) true
  rw [List.append_assoc, List.length_append] at next
  rw [again, charAt_append, ok_bind, size]
  exact next

theorem again_letters (directive : Directive) (before after : List UInt8) (fuel q : ℕ) :
    again (before ++ (directive.letters ++ after)) (fuel + 2) before.length q false =
      .ok (directive.letter, q + (directive.letters.length - 1), directive.isSize) := by
  cases directive with
  | zd _ | zu _ | zx _ => exact again_size rfl (by decide) fuel q false
  | _ => exact again_letter rfl (by decide) (fuel + 1) q false

theorem writeString_eq (outlet : Outlet) {text : List UInt8} (nonzero : 0 ∉ text) :
    writeString outlet (text ++ [0]) = .ok (outlet.put (truncated text)) := by
  rw [writeString, strlen_literal nonzero, ok_bind]
  exact writeAll_part outlet [] text [0]

/-- A directive takes its argument and writes its chunks. -/
theorem directive_eq (pid : BitVec 32) (directive : Directive) (printing : Printing) {va : List Argument}
    (given : printing.va = directive.arguments ++ va) :
    ∃ fetched, fetchArgument directive.letter directive.isSize printing = .ok fetched ∧ fetched.va = va ∧
      writeArgument pid directive.letter fetched = match directive.chunks with
        | some chunks => .ok (putAll printing.outlet chunks)
        | none => .error .signedOverflow := by
  obtain ⟨outlet, _, args, argl⟩ := printing
  obtain rfl := given
  cases directive with
  | percent => exact ⟨_, rfl, rfl, @writeAll_text outlet (literal ['%']) (by decide)⟩
  | d value =>
    refine ⟨_, rfl, rfl, ?_⟩
    exact (writeSigned_eq outlet _).trans (if_neg (signExtend_ne_intMin value))
  | u value => exact ⟨_, rfl, rfl, writeUnsigned_eq outlet _ (.inl rfl)⟩
  | x value => exact ⟨_, rfl, rfl, writeUnsigned_eq outlet _ (.inr rfl)⟩
  | p address => exact ⟨_, rfl, rfl, writeUnsigned_eq outlet _ (.inr rfl)⟩
  | s text =>
    refine ⟨_, rfl, rfl, ?_⟩
    cases text with
    | none => exact writeString_eq outlet (by decide)
    | some text => exact writeString_eq outlet text.2
  | zd value =>
    refine ⟨_, rfl, rfl, (writeSigned_eq outlet value).trans ?_⟩
    simp only [Directive.chunks]
    split
    · rfl
    · rfl
  | zu value => exact ⟨_, rfl, rfl, writeUnsigned_eq outlet _ (.inl rfl)⟩
  | zx value => exact ⟨_, rfl, rfl, writeUnsigned_eq outlet _ (.inr rfl)⟩

/-- One round of the loop at a directive. -/
theorem loop_directive (pid : BitVec 32) (before : List UInt8) (first : Literal) (directive : Directive)
    (after : List UInt8) (fuel : ℕ) (printing : Printing) {va : List Argument}
    (given : printing.va = directive.arguments ++ va) :
    ∃ fetched : Printing, fetched.va = va ∧
      miVprintfLoop pid (before ++ (first.1 ++ byte '%' :: (directive.letters ++ after))) (fuel + 1) before.length
          before.length printing =
        match directive.chunks with
        | some chunks =>
          let passed := before ++ (first.1 ++ byte '%' :: directive.letters)
          miVprintfLoop pid (passed ++ after) fuel passed.length passed.length
            { fetched with outlet := putAll (printing.outlet.put (truncated first.1)) chunks }
        | none => .error .signedOverflow := by
  obtain ⟨memory, spelled⟩ : ∃ memory, memory =
      before ++ (first.1 ++ byte '%' :: (directive.letters ++ after)) := ⟨_, rfl⟩
  have found : strchrPercent (memory.drop before.length) before.length =
      .ok (some (before.length + first.1.length)) := by
    rw [spelled, List.drop_left]
    exact (strchrPercent_literal first.2 _ _).1
  have stretch : BitVec.ofInt 32 ((before.length + first.1.length : ℕ) - before.length) = .ofNat 32 first.1.length := by
    have length : (((before.length + first.1.length : ℕ) : ℤ) - before.length) = (first.1.length : ℕ) := by omega
    rw [length, BitVec.ofInt_natCast]
  have wrote : writeAll printing.outlet memory before.length (.ofNat 32 first.1.length) =
      .ok (printing.outlet.put (truncated first.1)) := by
    rw [spelled]
    exact writeAll_part _ _ _ _
  obtain ⟨fetched, fetch, rest, write⟩ :=
    directive_eq pid directive { printing with outlet := printing.outlet.put (truncated first.1) } given
  have behind : memory = (before ++ first.1 ++ [byte '%']) ++ (directive.letters ++ after) := by simp [spelled]
  have nonempty : 0 < directive.letters.length := by
    cases directive <;> exact Nat.succ_pos _
  obtain ⟨more, length⟩ : ∃ more, memory.length = more + 2 := ⟨memory.length - 2, by
    simp only [behind, List.length_append, List.length_singleton]
    omega⟩
  have scanned := again_letters directive (before ++ first.1 ++ [byte '%']) after more (before.length + first.1.length + 2)
  rw [← behind, ← length] at scanned
  have position : (before ++ first.1 ++ [byte '%']).length = before.length + first.1.length + 1 := by simp; omega
  rw [position] at scanned
  have ended : directive.letter ≠ .nul := by
    cases directive <;> exact Letter.noConfusion
  refine ⟨fetched, rest, ?_⟩
  rw [← spelled, miVprintfLoop, found, ok_bind]
  simp only [stretch, wrote, ok_bind, scanned, fetch, write]
  cases directive.chunks with
  | none => rfl
  | some chunks =>
    have passed : (before ++ (first.1 ++ byte '%' :: directive.letters)) ++ after = memory := by simp [spelled]
    have cursor : (before ++ (first.1 ++ byte '%' :: directive.letters)).length =
        before.length + first.1.length + 2 + (directive.letters.length - 1) := by simp; omega
    simp only [ok_bind, if_neg ended, passed, cursor]

theorem loop_eq (pid : BitVec 32) (before : List UInt8) (first : Literal) (rest : List (Directive × Literal)) {fuel : ℕ}
    (enough : rest.length < fuel) (printing : Printing) (given : printing.va = rest.flatMap fun part => part.1.arguments) :
    miVprintfLoop pid (before ++ (formatText first rest ++ [0])) fuel before.length before.length printing =
      match chunksOf first rest with
      | some chunks => .ok (putAll printing.outlet chunks)
      | none => .error .signedOverflow := by
  induction rest generalizing before first fuel printing with
  | nil =>
    obtain ⟨fuel, rfl⟩ : ∃ fewer, fuel = fewer + 1 := ⟨fuel - 1, by omega⟩
    have none := (strchrPercent_literal first.2 [] before.length).2
    rw [formatText, miVprintfLoop, List.drop_left, none, ok_bind]
    simp only [strlen_literal first.2.2, ok_bind, writeAll_part]
    rfl
  | cons part rest inductionHypothesis =>
    obtain ⟨directive, next⟩ := part
    obtain ⟨fuel, rfl⟩ : ∃ fewer, fuel = fewer + 1 := ⟨fuel - 1, by omega⟩
    obtain ⟨fetched, left, round⟩ :=
      loop_directive pid before first directive (formatText next rest ++ [0]) fuel printing given
    have spelled : formatText first ((directive, next) :: rest) ++ [0] =
        first.1 ++ byte '%' :: (directive.letters ++ (formatText next rest ++ [0])) := by simp [formatText]
    rw [spelled, round, chunksOf]
    cases directive.chunks with
    | none => rfl
    | some own =>
      simp only [Option.bind_some]
      have later := inductionHypothesis (before ++ (first.1 ++ byte '%' :: directive.letters)) next
        (Nat.lt_of_succ_lt_succ enough) { fetched with outlet := putAll (printing.outlet.put (truncated first.1)) own } left
      rw [later]
      cases chunksOf next rest with
      | none => rfl
      | some later => simp [putAll]

/-! ## The output -/

theorem put_open {outlet : Outlet} (isOpen : Open outlet) (buf : List UInt8) :
    Open (outlet.put buf) ∧ (outlet.put buf).sent = outlet.sent ++ buf := by
  obtain ⟨rest, ran, harmless⟩ := miWriteLoop_ok isOpen outlet.sent buf
  rw [Outlet.put, ran]
  exact ⟨harmless, rfl⟩

theorem putAll_open {outlet : Outlet} (isOpen : Open outlet) (chunks : List (List UInt8)) :
    Open (putAll outlet chunks) ∧ (putAll outlet chunks).sent = outlet.sent ++ chunks.flatten := by
  induction chunks generalizing outlet with
  | nil => exact ⟨isOpen, (List.append_nil _).symm⟩
  | cons chunk chunks inductionHypothesis =>
    obtain ⟨openPut, sent⟩ := put_open isOpen chunk
    obtain ⟨openAll, all⟩ := inductionHypothesis openPut
    exact ⟨openAll, by rw [List.flatten_cons, ← List.append_assoc, ← sent]; exact all⟩

/-- What the program writes on an outlet that takes everything is what is to be printed. -/
def Prints (pid : BitVec 32) (outlet : Outlet) (first : Literal) (rest : List (Directive × Literal)) : Prop :=
  ∃ later, miVprintf pid outlet (formatOf first rest) (rest.flatMap fun part => part.1.arguments) = .ok later ∧
    later.sent = outlet.sent ++ printed first rest

theorem length_formatText (first : Literal) (rest : List (Directive × Literal)) :
    rest.length ≤ (formatText first rest).length := by
  induction rest generalizing first with
  | nil => exact Nat.zero_le _
  | cons part rest inductionHypothesis =>
    have := inductionHypothesis part.2
    simp only [formatText, List.length_append, List.length_cons]
    omega

theorem prints_iff (pid : BitVec 32) {outlet : Outlet} (isOpen : Open outlet) (first : Literal)
    (rest : List (Directive × Literal)) :
    Prints pid outlet first rest ↔ (chunksOf first rest).map List.flatten = some (printed first rest) := by
  have enough : rest.length < (formatOf first rest).memory.length := by
    have := length_formatText first rest
    simp only [ByteString.memory, formatOf, List.length_append, List.length_singleton]
    omega
  have ran : miVprintf pid outlet (formatOf first rest) (rest.flatMap fun part => part.1.arguments) = _ :=
    loop_eq pid [] first rest enough { outlet := outlet, va := rest.flatMap fun part => part.1.arguments } rfl
  rw [Prints, ran]
  cases chunksOf first rest with
  | none => simp
  | some chunks =>
    simp only [Option.map_some, Option.some.injEq]
    constructor
    · rintro ⟨later, same, sent⟩
      cases same
      rw [(putAll_open isOpen chunks).2] at sent
      exact List.append_cancel_left sent
    · intro same
      exact ⟨_, rfl, by rw [(putAll_open isOpen chunks).2, same]⟩

/-! ## The lengths of the parts -/

/-- A directive that is printed as its value. -/
def Directive.Plain (directive : Directive) : Prop := ¬ directive.High ∧ ¬ directive.Long ∧ ¬ directive.Least

/-- All literal text fits an `int`, and so does every string; no `unsigned int` is `2 ^ 31` or
more, and no `ssize_t` has no opposite. -/
def AllPlain (first : Literal) (rest : List (Directive × Literal)) : Prop :=
  first.1.length < 2 ^ 31 ∧ ∀ part ∈ rest, part.1.Plain ∧ part.2.1.length < 2 ^ 31

theorem toNat_signExtend {value : BitVec 32} : (value.signExtend 64).toNat =
    if value.toNat < 2 ^ 31 then value.toNat else value.toNat + (2 ^ 64 - 2 ^ 32) := by
  have extended := BitVec.toInt_signExtend_of_le (show 32 ≤ 64 by decide) (x := value)
  have wide := BitVec.toInt_eq_toNat_cond (value.signExtend 64)
  have narrow := BitVec.toInt_eq_toNat_cond value
  have small := value.isLt
  have large := (value.signExtend 64).isLt
  split <;> split at wide <;> split at narrow <;> omega

theorem length_digits {radix num n : ℕ} (base : 1 < radix) (positive : 0 < n) (above : radix ^ n ≤ num)
    (below : num < radix ^ (n + 1)) : (literal (Nat.toDigits radix num)).length = n + 1 := by
  have short := (Nat.length_toDigits_le_iff base (Nat.succ_pos n)).mpr below
  have more := (Nat.length_toDigits_le_iff base positive).not.mpr (Nat.not_lt.mpr above)
  rw [literal, List.length_map]
  omega

/-- A number that is sign-extended gets more digits. -/
theorem length_high {value : BitVec 32} (high : 2 ^ 31 ≤ value.toNat) :
    (literal (Nat.toDigits 10 value.toNat)).length = 10 ∧
    (literal (Nat.toDigits 10 (value.signExtend 64).toNat)).length = 20 ∧
    (hexadecimal value.toNat).length = 10 ∧ (hexadecimal (value.signExtend 64).toNat).length = 18 := by
  have small := value.isLt
  have extended := @toNat_signExtend value
  rw [if_neg (by omega)] at extended
  have hex : ∀ {num : ℕ}, 2 ^ 31 ≤ num → (hexadecimal num).length = 2 + (literal (Nat.toDigits 16 num)).length := by
    intro num nonzero
    rw [hexadecimal, if_neg (by omega), List.length_append]
    rfl
  rw [hex high, hex (by omega)]
  exact ⟨@length_digits 10 _ 9 (by decide) (by decide) (by omega) (by omega),
    @length_digits 10 _ 19 (by decide) (by decide) (by omega) (by omega),
    congrArg (2 + ·) (@length_digits 16 _ 7 (by decide) (by decide) (by omega) (by omega)),
    congrArg (2 + ·) (@length_digits 16 _ 15 (by decide) (by decide) (by omega) (by omega))⟩

theorem Directive.chunks_plain {directive : Directive} (plain : directive.Plain) :
    directive.chunks.map List.flatten = some directive.text := by
  obtain ⟨high, long, least⟩ := plain
  cases directive with
  | percent => rfl
  | d value =>
    simp only [chunks, Option.map_some, flatten_signed (signExtend_ne_intMin value), text, BitVec.toInt_signExtend_of_le (show 32 ≤ 64 by decide)]
  | u value => simp only [chunks, Option.map_some, (flatten_unsigned _).1, text, toNat_signExtend, if_pos (Nat.lt_of_not_le high)]
  | x value => simp only [chunks, Option.map_some, (flatten_unsigned _).2, text, toNat_signExtend, if_pos (Nat.lt_of_not_le high)]
  | p address => simp only [chunks, Option.map_some, (flatten_unsigned _).2, text]
  | s string => simp [chunks, text, truncated_of_lt (Nat.lt_of_not_le long)]
  | zd value =>
    have fits : value ≠ .intMin 64 := least
    simp only [chunks, if_neg fits, Option.map_some, flatten_signed fits, text]
  | zu value => simp only [chunks, Option.map_some, (flatten_unsigned _).1, text]
  | zx value => simp only [chunks, Option.map_some, (flatten_unsigned _).2, text]

/-- What is written instead of a value has up to ten characters more where a number is too high,
and `2 ^ 31` fewer where a string is too long. -/
theorem Directive.length_chunks {directive : Directive} {own : List (List UInt8)}
    (written : directive.chunks = some own) :
    own.flatten.length ≤ directive.text.length + 10 ∧
      (directive.Long → own.flatten.length + 2 ^ 31 ≤ directive.text.length) ∧
      (¬ directive.Long → directive.text.length ≤ own.flatten.length ∧
        (own.flatten.length = directive.text.length → directive.Plain)) := by
  by_cases plain : directive.Plain
  · have same := chunks_plain plain
    rw [written] at same
    rw [Option.some.inj same]
    exact ⟨Nat.le_add_right _ _, fun long => absurd long plain.2.1, fun _ => ⟨Nat.le_refl _, fun _ => plain⟩⟩
  · cases directive with
    | percent | d _ | p _ | zu _ | zx _ => exact absurd ⟨not_false, not_false, not_false⟩ plain
    | u value =>
      have high : 2 ^ 31 ≤ value.toNat := by
        by_contra low
        exact plain ⟨low, not_false, not_false⟩
      cases written
      obtain ⟨short, long, _⟩ := length_high high
      rw [(flatten_unsigned _).1, long, text, short]
      exact ⟨Nat.le_refl _, False.elim, fun _ => ⟨by decide, fun same => absurd same (by decide)⟩⟩
    | x value =>
      have high : 2 ^ 31 ≤ value.toNat := by
        by_contra low
        exact plain ⟨low, not_false, not_false⟩
      cases written
      obtain ⟨_, _, short, long⟩ := length_high high
      rw [(flatten_unsigned _).2, long, text, short]
      exact ⟨by decide, False.elim, fun _ => ⟨by decide, fun same => absurd same (by decide)⟩⟩
    | s string =>
      have long : 2 ^ 31 ≤ (stringText string).length := by
        by_contra short
        exact plain ⟨not_false, short, not_false⟩
      cases written
      have shorter := length_truncated_long long
      rw [List.flatten_singleton]
      exact ⟨by rw [text]; omega, fun _ => shorter, fun short => absurd long short⟩
    | zd value =>
      have least : value = .intMin 64 := by
        by_contra fits
        exact plain ⟨not_false, not_false, fits⟩
      simp [chunks, least] at written

theorem chunksOf_plain {first : Literal} {rest : List (Directive × Literal)} (plain : AllPlain first rest) :
    (chunksOf first rest).map List.flatten = some (printed first rest) := by
  induction rest generalizing first with
  | nil => simp [chunksOf, printed, truncated_of_lt plain.1]
  | cons part rest inductionHypothesis =>
    obtain ⟨own, next⟩ := plain.2 part (by simp)
    obtain ⟨later, spelledLater, sameLater⟩ := Option.map_eq_some_iff.mp
      (@inductionHypothesis part.2 ⟨next, fun other member => plain.2 other (by simp [member])⟩)
    obtain ⟨chunks, spelled, same⟩ := Option.map_eq_some_iff.mp (Directive.chunks_plain own)
    simp [chunksOf, printed, spelled, spelledLater, truncated_of_lt plain.1, same, sameLater]

/-- No literal text and no string is too long. -/
def NoneLong (first : Literal) (rest : List (Directive × Literal)) : Prop :=
  first.1.length < 2 ^ 31 ∧ ∀ part ∈ rest, ¬ part.1.Long ∧ part.2.1.length < 2 ^ 31

theorem chunksOf_cons {first next : Literal} {directive : Directive} {rest : List (Directive × Literal)}
    {chunks : List (List UInt8)} (written : chunksOf first ((directive, next) :: rest) = some chunks) :
    ∃ own later, directive.chunks = some own ∧ chunksOf next rest = some later ∧
      chunks.flatten.length = (truncated first.1).length + own.flatten.length + later.flatten.length := by
  obtain ⟨own, spelled, written⟩ := Option.bind_eq_some_iff.mp written
  obtain ⟨later, spelledLater, rfl⟩ := Option.map_eq_some_iff.mp written
  refine ⟨own, later, spelled, spelledLater, ?_⟩
  rw [List.flatten_cons, List.flatten_append, List.length_append, List.length_append, Nat.add_assoc]

/-- Text that is too long is missed among less than `2 ^ 31` characters too many. -/
theorem length_chunksOf_le {first : Literal} {rest : List (Directive × Literal)} {chunks : List (List UInt8)}
    (written : chunksOf first rest = some chunks) :
    chunks.flatten.length ≤ (printed first rest).length + 10 * rest.length ∧
      (NoneLong first rest ∨ chunks.flatten.length + 2 ^ 31 ≤ (printed first rest).length + 10 * rest.length) := by
  have literalLength : ∀ text : List UInt8, (truncated text).length ≤ text.length := by
    intro text
    rw [truncated, List.length_take]
    exact Nat.min_le_right _ _
  induction rest generalizing first chunks with
  | nil =>
    cases written
    rw [List.flatten_singleton, printed]
    refine ⟨literalLength first.1, ?_⟩
    by_cases short : first.1.length < 2 ^ 31
    · exact .inl ⟨short, by simp⟩
    · exact .inr (length_truncated_long (Nat.le_of_not_lt short))
  | cons part rest inductionHypothesis =>
    obtain ⟨own, later, spelled, spelledLater, length⟩ := chunksOf_cons written
    obtain ⟨atMost, missing, _⟩ := Directive.length_chunks spelled
    obtain ⟨atMostLater, missingLater⟩ := inductionHypothesis spelledLater
    have atMostFirst := literalLength first.1
    simp only [printed, List.length_append, List.length_cons, length]
    refine ⟨by omega, ?_⟩
    by_cases short : first.1.length < 2 ^ 31
    · by_cases long : part.1.Long
      · have := missing long
        exact .inr (by omega)
      · rcases missingLater with ⟨shortNext, none⟩ | missed
        · refine .inl ⟨short, List.forall_mem_cons.mpr ⟨⟨long, shortNext⟩, none⟩⟩
        · exact .inr (by omega)
    · have := length_truncated_long (Nat.le_of_not_lt short)
      exact .inr (by omega)

theorem length_of_noneLong {first : Literal} {rest : List (Directive × Literal)} (short : NoneLong first rest)
    {chunks : List (List UInt8)} (written : chunksOf first rest = some chunks) :
    (printed first rest).length ≤ chunks.flatten.length ∧
      (chunks.flatten.length = (printed first rest).length → AllPlain first rest) := by
  induction rest generalizing first chunks with
  | nil =>
    cases written
    rw [List.flatten_singleton, printed, truncated_of_lt short.1]
    exact ⟨Nat.le_refl _, fun _ => ⟨short.1, by simp⟩⟩
  | cons part rest inductionHypothesis =>
    obtain ⟨own, later, spelled, spelledLater, length⟩ := chunksOf_cons written
    obtain ⟨_, _, longer⟩ := Directive.length_chunks spelled
    obtain ⟨⟨notLong, shortNext⟩, others⟩ := List.forall_mem_cons.mp short.2
    obtain ⟨longerLater, plainLater⟩ := inductionHypothesis ⟨shortNext, others⟩ spelledLater
    obtain ⟨atLeast, plain⟩ := longer notLong
    rw [truncated_of_lt short.1] at length
    simp only [printed, List.length_append, length]
    refine ⟨by omega, fun same => ⟨short.1, ?_⟩⟩
    obtain ⟨nextShort, plainOthers⟩ := plainLater (by omega)
    exact List.forall_mem_cons.mpr ⟨⟨plain (by omega), nextShort⟩, plainOthers⟩

/-- Unless there are too many directives for one defect to make up for another, only plain
parts are printed right. -/
theorem plain_of_prints {pid : BitVec 32} {outlet : Outlet} (isOpen : Open outlet) {first : Literal}
    {rest : List (Directive × Literal)} (few : 10 * rest.length < 2 ^ 31) (prints : Prints pid outlet first rest) :
    AllPlain first rest := by
  obtain ⟨chunks, written, same⟩ := Option.map_eq_some_iff.mp ((prints_iff pid isOpen first rest).mp prints)
  have length : chunks.flatten.length = (printed first rest).length := congrArg List.length same
  obtain ⟨_, short | missing⟩ := length_chunksOf_le written
  · exact (length_of_noneLong short written).2 length
  · omega

/-! ## Any format -/

/-- An argument that is missing or of another kind, and an opposite that does not fit. -/
def Undefined (fault : Fault) : Prop := fault = .uninitialized ∨ fault = .signedOverflow

theorem strchrPercent_within {text : List UInt8} (nonzero : 0 ∉ text) (p : ℕ) :
    strchrPercent (text ++ [0]) p = .ok none ∨
      ∃ i < text.length, strchrPercent (text ++ [0]) p = .ok (some (p + i)) := by
  have zero : (0 : UInt8) ≠ byte '%' := by decide
  induction text generalizing p with
  | nil => exact .inl (by simp [strchrPercent, zero])
  | cons c text inductionHypothesis =>
    simp only [List.mem_cons, not_or] at nonzero
    rw [List.cons_append, strchrPercent, if_neg (Ne.symm nonzero.1)]
    by_cases percent : c = byte '%'
    · exact .inr ⟨0, Nat.succ_pos _, if_pos percent⟩
    · rw [if_neg percent]
      rcases inductionHypothesis nonzero.2 (p + 1) with none | ⟨i, inside, found⟩
      · exact .inl none
      · exact .inr ⟨i + 1, Nat.succ_lt_succ inside, by rw [found]; congr 2; omega⟩

theorem drop_memory (format : ByteString) {p : ℕ} (inside : p ≤ format.1.length) :
    format.memory.drop p = format.1.drop p ++ [0] ∧ 0 ∉ format.1.drop p := by
  refine ⟨by rw [ByteString.memory, List.drop_append_of_le_length inside], fun member => format.2 (List.mem_of_mem_drop member)⟩

/-- What is read in front of the NUL is not the NUL. -/
theorem charAt_memory (format : ByteString) {p : ℕ} (inside : p ≤ format.1.length) :
    ∃ c, charAt format.memory p = .ok c ∧ (c = 0 ↔ p = format.1.length) := by
  rcases Nat.lt_or_ge p format.1.length with before | ended
  · obtain ⟨c, held⟩ : ∃ c, format.1[p]? = some c := ⟨_, List.getElem?_eq_getElem before⟩
    refine ⟨c, by rw [charAt, ByteString.memory, List.getElem?_append_left before, held], ?_⟩
    have nonzero : c ≠ 0 := by
      rintro rfl
      exact format.2 (List.mem_of_getElem? held)
    exact iff_of_false nonzero (Nat.ne_of_lt before)
  · obtain rfl : p = format.1.length := Nat.le_antisymm inside ended
    exact ⟨0, by rw [ByteString.memory]; exact charAt_append format.1 0 [], by simp⟩

/-- The `z` are skipped within the format, and `q` goes with them. -/
theorem again_within (format : ByteString) {fuel p : ℕ} (q : ℕ) (isSize : Bool) (inside : p ≤ format.1.length)
    (enough : format.1.length - p < fuel) :
    ∃ letter k isSize', again format.memory fuel p q isSize = .ok (letter, q + k, isSize') ∧
      p + k ≤ format.1.length ∧ (letter ≠ .nul → p + k < format.1.length) := by
  induction fuel generalizing p q isSize with
  | zero => omega
  | succ fuel inductionHypothesis =>
    obtain ⟨c, read, ended⟩ := charAt_memory format inside
    rw [again, read, ok_bind]
    cases kind : Letter.ofByte c with
    | z =>
      have before : p ≠ format.1.length := by
        intro last
        rw [ended.mpr last] at kind
        exact absurd kind (by decide)
      obtain ⟨letter, k, isSize', ran, within, strictly⟩ :=
        @inductionHypothesis (p + 1) (q + 1) true (by omega) (by omega)
      exact ⟨letter, k + 1, isSize', by rw [← Nat.add_assoc, Nat.add_right_comm]; exact ran, by omega,
        fun other => by have := strictly other; omega⟩
    | nul => exact ⟨.nul, 0, isSize, rfl, inside, fun other => absurd rfl other⟩
    | d | u | x | p | s | percent | pid | other =>
      refine ⟨_, 0, isSize, rfl, inside, fun _ => Nat.lt_of_le_of_ne inside fun last => ?_⟩
      rw [ended.mpr last] at kind
      exact absurd kind (by decide)

theorem fetchArgument_ensures (letter : Letter) (isSize : Bool) (printing : Printing) :
    Ensures Undefined (fetchArgument letter isSize printing) fun _ => True := by
  have int : ∀ va, Ensures Undefined (Argument.vaInt va) fun _ => True := by
    intro va
    unfold Argument.vaInt
    split
    · exact trivial
    · exact .inl rfl
  have size : ∀ va, Ensures Undefined (Argument.vaSize va) fun _ => True := by
    intro va
    unfold Argument.vaSize
    split
    · exact trivial
    · exact .inl rfl
  have pointer : ∀ va, Ensures Undefined (Argument.vaPointer va) fun _ => True := by
    intro va
    unfold Argument.vaPointer
    split
    · exact trivial
    · exact .inl rfl
  have string : ∀ va, Ensures Undefined (Argument.vaString va) fun _ => True := by
    intro va
    unfold Argument.vaString
    split
    · exact trivial
    · exact .inl rfl
  cases letter with
  | d | u | x =>
    cases isSize with
    | true =>
      refine (size _).bind fun _ _ => ?_
      exact trivial
    | false =>
      refine (int _).bind fun _ _ => ?_
      exact trivial
  | p =>
    refine (pointer _).bind fun _ _ => ?_
    exact trivial
  | s =>
    refine (string _).bind fun _ _ => ?_
    exact trivial
  | z | percent | pid | nul | other => exact trivial

theorem writeArgument_ensures (pid : BitVec 32) (letter : Letter) (printing : Printing) :
    Ensures Undefined (writeArgument pid letter printing) fun _ => True := by
  have signed : ∀ num, Ensures Undefined (writeSigned printing.outlet num 10) fun _ => True := by
    intro num
    rw [writeSigned_eq]
    split
    · exact .inr rfl
    · exact trivial
  unfold writeArgument
  cases letter with
  | percent => rw [show writeAll printing.outlet (literal ['%']) 0 1 = _ from writeAll_text _ (by decide)]; exact trivial
  | pid | d => exact signed _
  | u => rw [writeUnsigned_eq _ _ (.inl rfl)]; exact trivial
  | p | x => rw [writeUnsigned_eq _ _ (.inr rfl)]; exact trivial
  | s =>
    cases printing.args with
    | none => simp only; rw [writeString_eq _ (by decide)]; exact trivial
    | some args => simp only; rw [ByteString.memory, writeString_eq _ args.2]; exact trivial
  | z | nul | other => exact trivial

/-- A stretch of the format that ends within it. -/
theorem writeAll_within (outlet : Outlet) {memory : List UInt8} {q count : ℕ} (inside : q + count ≤ memory.length) :
    writeAll outlet memory q (.ofNat 32 count) =
      .ok (outlet.put ((memory.drop q).take (BitVec.ofNat 32 count).toInt.toNat)) := by
  have less := (toInt_ofNat_toNat count).1
  have inside' : q + (BitVec.ofNat 32 count).toInt.toNat ≤ memory.length := by omega
  simp only [writeAll, if_pos inside']

theorem loop_ensures (pid : BitVec 32) (format : ByteString) {fuel p : ℕ} (inside : p ≤ format.1.length)
    (enough : format.1.length - p < fuel) (printing : Printing) :
    Ensures Undefined (miVprintfLoop pid format.memory fuel p p printing) fun _ => True := by
  have length : format.memory.length = format.1.length + 1 := by simp [ByteString.memory]
  induction fuel generalizing p printing with
  | zero => omega
  | succ fuel inductionHypothesis =>
    obtain ⟨rest, nonzero⟩ := drop_memory format inside
    rw [miVprintfLoop, rest]
    rcases strchrPercent_within nonzero p with none | ⟨i, before, found⟩
    · rw [none, ok_bind]
      simp only [strlen_literal nonzero [], ok_bind]
      rw [writeAll_within _ (by rw [length, List.length_drop]; omega)]
      exact trivial
    · rw [found, ok_bind]
      rw [List.length_drop] at before
      obtain ⟨letter, k, isSize, scanned, within, strictly⟩ := @again_within format format.memory.length (p + i + 1)
        (p + i + 2) false (by omega) (by omega)
      have stretch : BitVec.ofInt 32 ((p + i : ℕ) - p) = .ofNat 32 i := by
        have : (((p + i : ℕ) : ℤ) - p) = (i : ℕ) := by omega
        rw [this, BitVec.ofInt_natCast]
      simp only [stretch]
      rw [writeAll_within _ (by rw [length]; omega), ok_bind, scanned, ok_bind]
      refine (fetchArgument_ensures _ _ _).bind fun fetched _ => (writeArgument_ensures _ _ _).bind fun outlet _ => ?_
      by_cases ended : letter = .nul
      · simp only [if_pos ended]
        exact inductionHypothesis (by omega) (by omega) _
      · have := strictly ended
        simp only [if_neg ended]
        exact inductionHypothesis (by omega) (by omega) _

/-- For a format of literal text and directives with arguments of the matching types, what the
program writes is the text with the values of the arguments exactly where all text fits an `int`,
no `%u` or `%x` is given `2 ^ 31` or more, and no `%zd` the `long` without an opposite; no format
at all makes it read behind the NUL or go on for ever. -/
theorem miVprintf_prints (pid : BitVec 32) {outlet : Outlet} (isOpen : Open outlet) :
    (∀ first rest, AllPlain first rest → Prints pid outlet first rest) ∧
    (∀ first rest, 10 * rest.length < 2 ^ 31 → (Prints pid outlet first rest ↔ AllPlain first rest)) ∧
    ∀ format va, Ensures Undefined (miVprintf pid outlet format va) fun _ => True := by
  have right : ∀ first rest, AllPlain first rest → Prints pid outlet first rest := fun first rest plain =>
    (prints_iff pid isOpen first rest).mpr (chunksOf_plain plain)
  refine ⟨right, fun first rest few => ⟨plain_of_prints isOpen few, right first rest⟩, fun format va => ?_⟩
  exact loop_ensures pid format (Nat.zero_le _) (by simp [ByteString.memory]) _

theorem miVprintf_prints_sizes :
    let outlet : Outlet := ⟨[.eintr, .sent 1], []⟩
    let parts : List (Directive × Literal) := [(.d (-1), ⟨[byte ' '], by decide⟩), (.zx (.allOnes 64), ⟨[], by decide⟩)]
    Open outlet ∧ Prints 1 outlet ⟨[], by decide⟩ parts := by
  have isOpen : Open ⟨[.eintr, .sent 1], []⟩ := by simp [Open, Harmless]
  exact ⟨isOpen, (miVprintf_prints 1 isOpen).1 _ _ (by simp [AllPlain, Directive.Plain, Directive.High, Directive.Long,
    Directive.Least])⟩

/-- `mi_printf (fd, "%u", UINT_MAX)`. -/
theorem not_prints_high : ¬ Prints 1 ⟨[], []⟩ ⟨[], by decide⟩ [(.u (.allOnes 32), ⟨[], by decide⟩)] := by
  intro prints
  have plain := plain_of_prints (by simp [Open]) (by decide) prints
  have high : (2 : ℕ) ^ 31 ≤ (BitVec.allOnes 32).toNat := by decide
  exact (plain.2 _ (List.mem_singleton_self _)).1.1 high

end Memprof.Printf
