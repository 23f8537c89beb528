import Memprof.LeakDetect
import Memprof.Stat

/-! # What is read of a stopped clone

The name of the command is one word to `read_proc_stat`.  Behind a blank in it nothing is
read past the parenthesis that closes it, and where nothing is read the clone counts as
stopped.
-/

namespace Memprof.Stat

open Library Fscanf
open Scanf (Closed Numeral closed_blank closed_cons digitOf isDigit isSpace)

/-- A line of `/proc/PID/stat` as the kernel writes it. -/
structure StatLine where
  pid : SignedNumeral
  comm : List Char
  state : Char
  letter : state.isAlpha = true
  /-- From the parent to the end of the code. -/
  before : List SignedNumeral
  before_length : before.length = 24
  startStack : Numeral 10 (2 ^ 64)
  esp : Numeral 10 (2 ^ 64)
  after : List SignedNumeral

namespace StatLine

/-- What stands behind the state. -/
def fields (line : StatLine) : List Char :=
  fieldsChars line.before ++ ' ' :: (line.startStack.chars ++ ' ' :: (line.esp.chars ++
    (fieldsChars line.after ++ ['\n'])))

def chars (line : StatLine) : List Char :=
  line.pid.chars ++ ' ' :: '(' :: (line.comm ++ ')' :: ' ' :: line.state :: line.fields)

/-- What the line says. -/
def stat (line : StatLine) : ProcStat :=
  ⟨line.state, UInt64.ofNat line.startStack.value, UInt64.ofNat line.esp.value⟩

/-- The reader returns what the line says; the loop of `leaks_find` ends exactly if the clone
has stopped, and the root is made from the bounds of its own stack. -/
structure Recovered (line : StatLine) : Prop where
  read : readProcStat (some line.chars) = some line.stat
  waits : waits (some line.chars) = false ↔ line.state = 'T' ∨ line.state = 't'
  root : ∀ maps, cloneRoot maps (stackBounds (some line.chars)) =
    cloneRoot maps (some (line.stat.startStack, line.stat.endStack))

/-- The command is a single word. -/
def Word (line : StatLine) : Prop := ∀ char ∈ line.comm, isSpace char = false

instance (line : StatLine) : Decidable line.Word := inferInstanceAs (Decidable (∀ char ∈ line.comm, _))

/-- Behind its first word the command itself spells a state and fields, and those that are
stored are the ones of the line. -/
def Mimics (line : StatLine) : Prop :=
  assigned (scan fieldsFormat (line.comm.dropWhile (!isSpace ·))) = some line.stat

instance (line : StatLine) : Decidable line.Mimics := inferInstanceAs (Decidable (_ = _))

end StatLine

/-! ## Up to the state -/

/-- The command is read up to its first white space, or with the parenthesis behind it. -/
theorem scan_chars (line : StatLine) :
    scan statFormat line.chars =
      scan fieldsFormat ((line.comm ++ ')' :: ' ' :: line.state :: line.fields).dropWhile (!isSpace ·)) := by
  obtain ⟨value, read⟩ := readNumber_signed line.pid
    (closed_blank ('(' :: (line.comm ++ ')' :: ' ' :: line.state :: line.fields)))
  have blank : (' ' :: '(' :: (line.comm ++ ')' :: ' ' :: line.state :: line.fields)).dropWhile isSpace =
      '(' :: (line.comm ++ ')' :: ' ' :: line.state :: line.fields) := by
    rw [List.dropWhile_cons_of_pos (by decide), List.dropWhile_cons_of_neg (by decide)]
  have opened : (!isSpace '(') = true := by decide
  rw [StatLine.chars, statFormat, scan, read]
  dsimp only
  rw [if_neg Bool.false_ne_true, scan, blank, scan, skipWord, List.dropWhile_cons_of_neg (by decide)]
  rw [List.takeWhile_cons, if_pos opened, if_neg (List.cons_ne_nil _ _), List.dropWhile_cons, if_pos opened]

theorem letter_stops (line : StatLine) : Stops line.state := by
  have letter : 65 ≤ line.state.toNat ∧ line.state.toNat ≤ 90 ∨ 97 ≤ line.state.toNat ∧ line.state.toNat ≤ 122 := by
    rcases (Bool.or_eq_true _ _).mp line.letter with upper | lower
    · exact .inl (of_decide_eq_true upper)
    · obtain ⟨above, below⟩ := Bool.and_eq_true_iff.mp lower
      exact .inr ⟨of_decide_eq_true above, of_decide_eq_true below⟩
  have unequal : ∀ char : Char, char.toNat < 65 → line.state ≠ char := by
    rintro char small rfl
    omega
  refine ⟨?_, ?_, unequal '-' (by decide), unequal '+' (by decide)⟩
  · rw [isSpace, decide_eq_false_iff_not]
    omega
  · rw [isDigit, decide_eq_false_iff_not, digitOf]
    split
    · omega
    split
    · omega
    split
    · omega
    decide

theorem parenthesis_stops : Stops ')' := by decide

/-- A command of one word leaves the state and the fields. -/
theorem dropWhile_word {line : StatLine} (word : line.Word) :
    (line.comm ++ ')' :: ' ' :: line.state :: line.fields).dropWhile (!isSpace ·) = ' ' :: line.state :: line.fields := by
  have passes : ∀ char ∈ line.comm, (!isSpace char) = true := fun char member => by rw [word char member]; rfl
  rw [List.dropWhile_append_of_pos passes, List.dropWhile_cons_of_pos (by decide), List.dropWhile_cons_of_neg (by decide)]

/-! ## From the state on -/

/-- The fields of the line are read as they are. -/
theorem scan_fields_line (line : StatLine) :
    scan (numbers statAssigns) line.fields = [.number line.startStack.value, .number line.esp.value] := by
  have closed : Closed (fieldsChars line.after ++ ['\n']) := closed_fields line.after (closed_cons (by decide) _)
  have split : numbers statAssigns = numbers (List.replicate line.before.length false) ++
      .space :: .number true :: .space :: .number true :: numbers (List.replicate 8 false) := by
    rw [line.before_length]
    rfl
  rw [split, StatLine.fields, scan_fields line.before _ (closed_blank _), scan_field line.startStack _ (closed_blank _),
    scan_field line.esp _ closed, scan_unassigned]

theorem scan_state (line : StatLine) :
    scan fieldsFormat (' ' :: line.state :: line.fields) =
      [.char line.state, .number line.startStack.value, .number line.esp.value] := by
  have unspaced := (letter_stops line).1
  rw [fieldsFormat, scan, List.dropWhile_cons_of_pos (by decide), List.dropWhile_cons_of_neg (by simp [unspaced]), scan,
    scan_fields_line]

/-- What is left of a command of several words is read without what follows it, or nothing is
stored behind the parenthesis. -/
theorem assigned_left (line : StatLine) (left : List Char) :
    assigned (scan fieldsFormat (left ++ ')' :: ' ' :: line.state :: line.fields)) = assigned (scan fieldsFormat left) := by
  have unspaced : ∀ char ∈ (')' :: ' ' :: line.state :: line.fields).head?, isSpace char = false := by
    rintro char ⟨⟩
    decide
  rw [fieldsFormat, scan, scan, (Scanf.takeWhile_append_of_head left unspaced).2]
  cases left.dropWhile isSpace with
  | nil =>
    have blank : scan (numbers statAssigns) [' '] = [] := by decide
    rw [List.nil_append, scan, scan]
    rw [show ' ' :: line.state :: line.fields = [' '] ++ line.state :: line.fields from rfl,
      scan_numbers_append (letter_stops line), blank]
    rfl
  | cons char more => rw [List.cons_append, scan, scan, scan_numbers_append parenthesis_stops]

theorem readProcStat_word {line : StatLine} (word : line.Word) : readProcStat (some line.chars) = some line.stat := by
  rw [readProcStat, scan_chars, dropWhile_word word, scan_state]
  rfl

theorem readProcStat_words {line : StatLine} (words : ¬ line.Word) :
    readProcStat (some line.chars) = assigned (scan fieldsFormat (line.comm.dropWhile (!isSpace ·))) := by
  have left : (line.comm.dropWhile (!isSpace ·)).isEmpty = false := by
    rw [← Bool.not_eq_true, List.isEmpty_iff, List.dropWhile_eq_nil_iff]
    exact fun all => words fun char member => by simpa using all char member
  rw [readProcStat, scan_chars, List.dropWhile_append, left, if_neg Bool.false_ne_true]
  exact assigned_left line _

/-! ## Commands that mimic a line -/

/-- There have to be 24 numbers in them, and so no name that the kernel keeps is long enough:
it has 15 characters, which are written as 30 at most. -/
theorem length_of_mimics {line : StatLine} (mimics : line.Mimics) : 47 < line.comm.length := by
  unfold StatLine.Mimics at mimics
  have shorter := (List.dropWhile_suffix (!isSpace ·) (l := line.comm)).length_le
  have skipped := (List.dropWhile_suffix isSpace (l := line.comm.dropWhile (!isSpace ·))).length_le
  rw [fieldsFormat, scan] at mimics
  cases text : (line.comm.dropWhile (!isSpace ·)).dropWhile isSpace with
  | nil =>
    rw [text, scan] at mimics
    cases mimics
  | cons char more =>
    rw [text, scan] at mimics
    rw [text, List.length_cons] at skipped
    have reads : scan (numbers statAssigns) more ≠ [] := by
      intro nothing
      rw [nothing] at mimics
      cases mimics
    have enough := (scan_numbers_length 24 (.space :: .number true :: .space :: .number true ::
      numbers (List.replicate 8 false)) more reads).1
    omega

/-! ## The lines that are read -/

theorem toLower_eq_iff (char : Char) : char.toLower = 't' ↔ char = 'T' ∨ char = 't' := by
  constructor
  · intro lower
    have same : char.toLower.val = 't'.val := congrArg Char.val lower
    unfold Char.toLower at same
    split at same
    next upper =>
      refine .inl (Char.ext ?_)
      calc
        char.val = char.val + ('a'.val - 'A'.val) - ('a'.val - 'A'.val) := (UInt32.add_sub_cancel _ _).symm
        _ = 't'.val - ('a'.val - 'A'.val) := congrArg (· - ('a'.val - 'A'.val)) same
        _ = 'T'.val := by decide
    next => exact .inr (Char.ext same)
  · rintro (rfl | rfl) <;> rfl

/-- What the reader returns decides about both of its callers. -/
theorem recovered_of_read {line : StatLine} (read : readProcStat (some line.chars) = some line.stat) :
    line.Recovered where
  read := read
  waits := by
    have status : processStatus (some line.chars) = line.state := by rw [processStatus, read]; rfl
    rw [Memprof.waits, status, decide_eq_false_iff_not, not_not, toLower_eq_iff]
  root := by
    intro maps
    rw [stackBounds, read]
    rfl

/-- For every line: it is recovered exactly if the command has no white space in it, or
mimics the rest of the line. -/
theorem recovered_iff (line : StatLine) : line.Recovered ↔ line.Word ∨ line.Mimics := by
  constructor
  · intro recovered
    by_cases word : line.Word
    · exact .inl word
    · refine .inr ?_
      rw [StatLine.Mimics, ← readProcStat_words word]
      exact recovered.read
  · rintro (word | mimics)
    · exact recovered_of_read (readProcStat_word word)
    · by_cases word : line.Word
      · exact recovered_of_read (readProcStat_word word)
      · exact recovered_of_read ((readProcStat_words word).trans mimics)

def nine : Numeral 10 (2 ^ 64) := ⟨[Fin.last 9], by decide, by decide⟩

/-- `9 (a b) R 9 9 ...` -/
def wordsLine : StatLine where
  pid := ⟨false, nine⟩
  comm := ['a', ' ', 'b']
  state := 'R'
  letter := by decide
  before := List.replicate 24 ⟨false, nine⟩
  before_length := by decide
  startStack := nine
  esp := nine
  after := []

/-- It is not read, and the loop does not wait for the process, which is running. -/
theorem recovered_words : ¬ wordsLine.Recovered ∧ readProcStat (some wordsLine.chars) = none ∧
    waits (some wordsLine.chars) = false ∧ wordsLine.state = 'R' := by
  have unread : readProcStat (some wordsLine.chars) = none := by decide
  refine ⟨fun recovered => ?_, unread, by decide, rfl⟩
  have read := recovered.read
  rw [unread] at read
  cases read

end Memprof.Stat
