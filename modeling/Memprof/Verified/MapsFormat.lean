import Memprof.Maps

/-! # The two readers of the maps

A line of `/proc/PID/maps` is read as the kernel means it by the format of
`process_read_maps`.  The format of `read_stack_maps` reads the addresses and the device in
base 10: it agrees only where no digit but the last one counts.
-/

namespace Memprof.MapsFormat

open Library Scanf

/-- The four characters of the permissions. -/
structure Permissions where
  read : Bool
  write : Bool
  exec : Bool
  shared : Bool

def Permissions.chars (perms : Permissions) : List Char :=
  [if perms.read then 'r' else '-', if perms.write then 'w' else '-', if perms.exec then 'x' else '-',
    if perms.shared then 's' else 'p']

/-- A line as the kernel writes it; the numbers may have leading zeros, and the path, if
there is one, comes after at least one blank. -/
structure MapsLine where
  start : Numeral 16 (2 ^ 64)
  end_ : Numeral 16 (2 ^ 64)
  perms : Permissions
  offset : Numeral 16 (2 ^ 64)
  major : Numeral 16 (2 ^ 32)
  minor : Numeral 16 (2 ^ 32)
  inode : Numeral 10 (2 ^ 64)
  path : Option (ℕ × List Char)

namespace MapsLine

def rest (line : MapsLine) : List Char :=
  match line.path with
  | none => ['\n']
  | some (padding, path) => ' ' :: (List.replicate padding ' ' ++ path ++ ['\n'])

def chars (line : MapsLine) : List Char :=
  line.start.chars ++ '-' :: (line.end_.chars ++ ' ' :: (line.perms.chars ++ ' ' :: (line.offset.chars ++
    ' ' :: (line.major.chars ++ ':' :: (line.minor.chars ++ ' ' :: (line.inode.chars ++ line.rest))))))

/-- What the line says, without the offset, which neither reader stores. -/
def denotes (line : MapsLine) : List Value :=
  [.number line.start.value, .number line.end_.value, .text line.perms.chars, .number line.major.value,
    .number line.minor.value, .number line.inode.value]

/-- The format accepts the line and assigns what the line says. -/
def ReadBy (line : MapsLine) (format : List Directive) : Prop := (scan format line.chars).take 6 = line.denotes

end MapsLine

/-! ## What both formats do -/

theorem closed_dash : ∀ tail, Closed ('-' :: tail) := closed_cons (by decide)

theorem closed_colon : ∀ tail, Closed (':' :: tail) := closed_cons (by decide)

theorem closed_rest (line : MapsLine) : Closed line.rest := by
  unfold MapsLine.rest
  split
  · exact closed_cons (by decide) _
  · exact closed_cons (by decide) _

theorem scan_space (format : List Directive) (tail : List Char) :
    scan (.space :: format) (' ' :: tail) = scan format (tail.dropWhile isSpace) := by
  have blank : isSpace ' ' = true := by decide
  rw [scan, List.dropWhile_cons, if_pos blank]

theorem scan_literal (char : Char) (format : List Directive) (tail : List Char) :
    scan (.literal char :: format) (char :: tail) = scan format tail := by
  rw [scan, if_pos rfl]

/-- The permissions stand between blanks. -/
theorem scan_word {perms : Permissions} (format : List Directive) (tail : List Char) :
    scan (.word 15 :: format) ((perms.chars ++ ' ' :: tail).dropWhile isSpace) =
      .text perms.chars :: scan format (' ' :: tail) := by
  obtain ⟨read, write, exec, shared⟩ := perms
  cases read <;> cases write <;> cases exec <;> cases shared <;> rfl

/-- A blank before a number is skipped. -/
theorem scan_blank {base limit : ℕ} (small : base ≤ 16) (numeral : Numeral base limit) (format : List Directive)
    (tail : List Char) :
    scan (.space :: format) (' ' :: (numeral.chars ++ tail)) = scan format (numeral.chars ++ tail) := by
  rw [scan_space, dropWhile_chars small]

/-- The end of a line, from the inode on. -/
theorem scan_inode (line : MapsLine) (format : List Directive) :
    scan (.number 10 (some 64) :: format) (line.inode.chars ++ line.rest) =
      .number line.inode.value :: scan format line.rest :=
  scan_numeral (by decide) line.inode (closed_rest line) (Nat.le_refl _) (Nat.le_refl _) format

/-! ## The reader of the process -/

def header (line : MapsLine) : List Char :=
  line.start.chars ++ '-' :: (line.end_.chars ++ ' ' :: (line.perms.chars ++ ' ' :: (line.offset.chars ++
    ' ' :: (line.major.chars ++ ':' :: (line.minor.chars ++ ' ' :: line.inode.chars)))))

theorem chars_eq (line : MapsLine) : line.chars = header line ++ line.rest := by
  simp [MapsLine.chars, header]

/-- Up to the inode, whatever follows it. -/
theorem scan_header (line : MapsLine) {tail : List Char} (closed : Closed tail) :
    scan processMapsFormat (header line ++ tail) = line.denotes ++ scan [.space, .word 255] tail := by
  have hex : 16 ≤ 16 := Nat.le_refl _
  have word : 2 ^ 32 ≤ 2 ^ 64 := by decide
  have split : header line ++ tail = line.start.chars ++ '-' :: (line.end_.chars ++ ' ' :: (line.perms.chars ++ ' ' ::
      (line.offset.chars ++ ' ' :: (line.major.chars ++ ':' :: (line.minor.chars ++ ' ' :: (line.inode.chars ++ tail)))))) := by
    simp [header]
  rw [split, processMapsFormat, scan_numeral hex _ (closed_dash _) (Nat.le_refl _) (Nat.le_refl _),
    scan_literal, scan_numeral hex _ (closed_blank _) (Nat.le_refl _) (Nat.le_refl _), scan_space, scan_word,
    scan_blank hex, scan_numeral_none hex _ (closed_blank _), scan_blank hex,
    scan_numeral hex _ (closed_colon _) word (Nat.le_refl _), scan_literal,
    scan_numeral hex _ (closed_blank _) word (Nat.le_refl _), scan_blank (by decide),
    scan_numeral (by decide) _ closed (Nat.le_refl _) (Nat.le_refl _)]
  rfl

theorem readBy_process (line : MapsLine) : line.ReadBy processMapsFormat := by
  rw [MapsLine.ReadBy, chars_eq, scan_header line (closed_rest line)]
  rfl

/-! ## The reader of the stacks -/

/-- A hexadecimal number below 10 is the same in base 10. -/
theorem scan_small {limit : ℕ} {numeral : Numeral 16 limit} (small : numeral.value < 10) {tail : List Char}
    (closed : Closed tail) (format : List Directive) :
    scan (.number 10 (some 64) :: format) (numeral.chars ++ tail) = .number numeral.value :: scan format tail := by
  have decimal : ∀ digit ∈ numeral.values, digit < 10 := fun digit member =>
    (digit_le_valueOf (by decide) _ digit member).trans_lt small
  rw [Numeral.chars, scan_number (by decide) numeral.lt_base numeral.values_nonempty closed, (takeWhile_lt decimal).1,
    (takeWhile_lt decimal).2, if_neg numeral.values_nonempty]
  show Value.number (strtoul false (valueOf 10 numeral.values) % 2 ^ 64) :: scan format tail = _
  have same : valueOf 10 numeral.values = numeral.value := (valueOf_eq_iff decimal).mpr small
  have fits : numeral.value < 2 ^ 64 := small.trans (by decide)
  rw [same, strtoul_eq fits, Nat.mod_eq_of_lt fits]

/-- Any other one is not read, read as another number, or read up to a letter only. -/
theorem scan_large {limit : ℕ} {numeral : Numeral 16 limit} (long : limit ≤ 2 ^ 64) (large : ¬ numeral.value < 10)
    {tail : List Char} (closed : Closed tail) (format : List Directive) :
    scan (.number 10 (some 64) :: format) (numeral.chars ++ tail) = [] ∨
      (∃ value, value ≠ numeral.value ∧
        scan (.number 10 (some 64) :: format) (numeral.chars ++ tail) = .number value :: scan format tail) ∨
      ∃ value digit more, 10 ≤ digit ∧ digit < 16 ∧
        scan (.number 10 (some 64) :: format) (numeral.chars ++ tail) =
          .number value :: scan format (Nat.digitChar digit :: more) := by
  rw [Numeral.chars, scan_number (by decide) numeral.lt_base numeral.values_nonempty closed]
  split
  · exact .inl rfl
  cases letters : numeral.values.dropWhile (· < 10) with
  | nil =>
    -- All digits are decimal ones, and they mean something else.
    have decimal : ∀ digit ∈ numeral.values, digit < 10 := by simpa using List.dropWhile_eq_nil_iff.mp letters
    have fits : valueOf 10 numeral.values < 2 ^ 64 :=
      (valueOf_le _).trans_lt (numeral.value_lt.trans_le long)
    refine .inr (.inl ⟨valueOf 10 numeral.values, fun same => large ((valueOf_eq_iff decimal).mp same), ?_⟩)
    show Value.number (strtoul false (valueOf 10 (numeral.values.takeWhile (· < 10))) % 2 ^ 64) :: scan format tail = _
    rw [(takeWhile_lt decimal).1, strtoul_eq fits, Nat.mod_eq_of_lt fits]
  | cons digit digits =>
    have member : digit ∈ numeral.values := (List.dropWhile_sublist _).subset (by rw [letters]; simp)
    have nonempty : numeral.values.dropWhile (· < 10) ≠ [] := by simp [letters]
    have stopped := List.head_dropWhile_not (fun digit => decide (digit < 10)) nonempty
    simp only [letters, List.head_cons, decide_eq_false_iff_not, Nat.not_lt] at stopped
    exact .inr (.inr ⟨_, digit, charsOf digits ++ tail, stopped, numeral.lt_base digit member, rfl⟩)

/-- A decimal number does not begin with a letter. -/
theorem scan_letter {digit : ℕ} (letter : 10 ≤ digit) (hex : digit < 16) (format : List Directive) (more : List Char) :
    scan (.number 10 (some 64) :: format) (Nat.digitChar digit :: more) = [] := by
  have unspaced : (Nat.digitChar digit :: more).dropWhile isSpace = Nat.digitChar digit :: more := by
    simp [isSpace_digitChar hex]
  have unsigned := readSign_eq (digitChar_ne hex (by decide)) (digitChar_ne hex (by decide)) more
  have plain : skipRadix 10 (Nat.digitChar digit :: more) = Nat.digitChar digit :: more := by
    unfold skipRadix
    split
    next => simp
    next => rfl
  have none : isDigit 10 (Nat.digitChar digit) = false := by
    rw [isDigit, digitOf_digitChar hex, decide_eq_false_iff_not]
    omega
  rw [scan]
  simp only [unspaced, unsigned, plain, List.takeWhile_cons, none]
  rfl

/-- What stands after a letter that ends a number is no permission. -/
theorem scan_word_letter {digit : ℕ} (hex : digit < 16) (format : List Directive) (more : List Char) :
    ∃ word, scan (.space :: .word 15 :: format) (Nat.digitChar digit :: more) =
      .text (Nat.digitChar digit :: word) :: scan format ((Nat.digitChar digit :: more).drop (word.length + 1)) := by
  have unspaced : (Nat.digitChar digit :: more).dropWhile isSpace = Nat.digitChar digit :: more := by
    simp [isSpace_digitChar hex]
  refine ⟨(more.takeWhile (!isSpace ·)).take 14, ?_⟩
  rw [scan, unspaced, scan]
  simp only [unspaced, List.takeWhile_cons, isSpace_digitChar hex, Bool.not_false, if_true, List.take_succ_cons,
    reduceCtorEq, if_false, List.length_cons]

theorem permissions_ne {digit : ℕ} (hex : digit < 16) (perms : Permissions) (word : List Char) :
    Nat.digitChar digit :: word ≠ perms.chars := by
  intro same
  have first := (List.cons.inj same).1
  split at first
  · exact digitChar_ne hex (by decide) first
  · exact digitChar_ne hex (by decide) first

/-- Neither the addresses nor the device have a digit that counts in front of the last one. -/
def Small (line : MapsLine) : Prop :=
  line.start.value < 10 ∧ line.end_.value < 10 ∧ line.major.value < 10 ∧ line.minor.value < 10

instance (line : MapsLine) : Decidable (Small line) := inferInstanceAs (Decidable (_ ∧ _ ∧ _ ∧ _))

/-- A number that a character other than a digit has to follow. -/
theorem read_literal_iff {limit : ℕ} (long : limit ≤ 2 ^ 64) (numeral : Numeral 16 limit) {char : Char}
    (plain : 16 ≤ digitOf char ∧ char ≠ 'x' ∧ char ≠ 'X') (format : List Directive) (tail : List Char) {n : ℕ}
    {values : List Value} (more : values ≠ []) :
    (scan (.number 10 (some 64) :: .literal char :: format) (numeral.chars ++ char :: tail)).take (n + 1) =
        .number numeral.value :: values ↔
      numeral.value < 10 ∧ (scan format tail).take n = values := by
  have closed := closed_cons plain tail
  by_cases small : numeral.value < 10
  · rw [scan_small small closed, scan_literal, List.take_succ_cons, List.cons.injEq]
    simp [small]
  · refine iff_of_false ?_ fun both => small both.1
    rcases scan_large long small closed (.literal char :: format) with read | ⟨value, other, read⟩ |
      ⟨value, digit, rest, _, hex, read⟩
    · rw [read]
      simp
    · rw [read]
      simp [other]
    · -- The letter is not the character.
      rw [read, scan, if_neg (digitChar_ne hex plain.1)]
      simpa using fun _ => more.symm

/-- A number that a blank and the permissions follow. -/
theorem read_perms_iff {limit : ℕ} (long : limit ≤ 2 ^ 64) (numeral : Numeral 16 limit) (perms : Permissions)
    (format : List Directive) (tail : List Char) {n : ℕ} {values : List Value} :
    (scan (.number 10 (some 64) :: .space :: .word 15 :: format)
        (numeral.chars ++ ' ' :: (perms.chars ++ ' ' :: tail))).take (n + 2) =
        .number numeral.value :: .text perms.chars :: values ↔
      numeral.value < 10 ∧ (scan format (' ' :: tail)).take n = values := by
  have closed := closed_blank (perms.chars ++ ' ' :: tail)
  by_cases small : numeral.value < 10
  · rw [scan_small small closed, scan_space, scan_word, List.take_succ_cons, List.take_succ_cons]
    simp [small]
  · refine iff_of_false ?_ fun both => small both.1
    rcases scan_large long small closed (.space :: .word 15 :: format) with read | ⟨value, other, read⟩ |
      ⟨value, digit, rest, _, hex, read⟩
    · rw [read]
      simp
    · rw [read]
      simp [other]
    · -- The blank matches nothing, and the letter is taken for the permissions.
      obtain ⟨word, taken⟩ := scan_word_letter hex format rest
      rw [read, taken]
      simp [permissions_ne hex perms word]

/-- A number that a blank and a decimal number follow. -/
theorem read_inode_iff {limit : ℕ} (long : limit ≤ 2 ^ 64) (numeral : Numeral 16 limit) (line : MapsLine)
    (format : List Directive) {n : ℕ} {values : List Value} :
    (scan (.number 10 (some 64) :: .space :: .number 10 (some 64) :: format)
        (numeral.chars ++ ' ' :: (line.inode.chars ++ line.rest))).take (n + 2) =
        .number numeral.value :: .number line.inode.value :: values ↔
      numeral.value < 10 ∧ (scan format line.rest).take n = values := by
  have closed := closed_blank (line.inode.chars ++ line.rest)
  by_cases small : numeral.value < 10
  · rw [scan_small small closed, scan_blank (by decide), scan_inode, List.take_succ_cons, List.take_succ_cons]
    simp [small]
  · refine iff_of_false ?_ fun both => small both.1
    rcases scan_large long small closed (.space :: .number 10 (some 64) :: format) with read | ⟨value, other, read⟩ |
      ⟨value, digit, rest, letter, hex, read⟩
    · rw [read]
      simp
    · rw [read]
      simp [other]
    · -- The number after it begins with the letter.
      have unspaced : (Nat.digitChar digit :: rest).dropWhile isSpace = Nat.digitChar digit :: rest := by
        simp [isSpace_digitChar hex]
      rw [read, scan, unspaced, scan_letter letter hex]
      simp

theorem readBy_stack_iff (line : MapsLine) : line.ReadBy stackMapsFormat ↔ Small line := by
  have word : 2 ^ 32 ≤ 2 ^ 64 := by decide
  rw [MapsLine.ReadBy, stackMapsFormat, MapsLine.chars, MapsLine.denotes,
    read_literal_iff (Nat.le_refl _) line.start (by decide) _ _ (by simp), read_perms_iff (Nat.le_refl _),
    scan_blank (by decide), scan_numeral_none (by decide) _ (closed_blank _), scan_blank (by decide),
    read_literal_iff word line.major (by decide) _ _ (by simp), read_inode_iff word]
  simp [Small]

/-- For every line the kernel can write: both readers accept it and assign what it says
exactly if its addresses and its device are small. -/
theorem readers_agree_iff (line : MapsLine) :
    line.ReadBy processMapsFormat ∧ line.ReadBy stackMapsFormat ↔ Small line := by
  rw [readBy_stack_iff]
  exact and_iff_right (readBy_process line)

/-- `00400000-0040b000 rwxp 00000000 08:01 42 /a` -/
def heapLine : MapsLine where
  start := ⟨[0, 0, 4, 0, 0, 0, 0, 0], by decide, by decide⟩
  end_ := ⟨[0, 0, 4, 0, 11, 0, 0, 0], by decide, by decide⟩
  perms := ⟨true, true, true, false⟩
  offset := ⟨[0, 0, 0, 0, 0, 0, 0, 0], by decide, by decide⟩
  major := ⟨[0, 8], by decide, by decide⟩
  minor := ⟨[0, 1], by decide, by decide⟩
  inode := ⟨[4, 2], by decide, by decide⟩
  path := some (0, ['/', 'a'])

/-- `00600000-0060b000 rwxp 00000000 08:01 42 /a` -/
def higherLine : MapsLine := { heapLine with
  start := ⟨[0, 0, 6, 0, 0, 0, 0, 0], by decide, by decide⟩
  end_ := ⟨[0, 0, 6, 0, 11, 0, 0, 0], by decide, by decide⟩ }

/-- The reader of the stacks does not accept the first line and drops the mapping. -/
theorem readers_disagree :
    heapLine.ReadBy processMapsFormat ∧ ¬ heapLine.ReadBy stackMapsFormat ∧ readStackMap [] heapLine.chars = [] := by
  refine ⟨readBy_process heapLine, ?_, ?_⟩
  · rw [readBy_stack_iff]
    decide
  · decide

end Memprof.MapsFormat
