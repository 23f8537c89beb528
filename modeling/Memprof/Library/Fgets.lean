import Mathlib.Data.List.Basic
import Mathlib.Data.Nat.Notation

/-! # `fgets` in a loop

A buffer of fixed size takes as much of a line as it has room for, and the next call goes on
from there: what the loop sees of a text are the lines cut into chunks.
-/

namespace Memprof.Library.Fgets

/-- What is put into a buffer of `size` characters, one of which ends the string, and what
is left; nothing at the end of the input. -/
def fgets (size : ℕ) (input : List Char) : Option (List Char × List Char) :=
  if input = [] then none
  else
    let count := min (size - 1) (input.findIdx (· = '\n') + 1)
    some (input.take count, input.drop count)

/-- `while (fgets (buffer, size, in))`; nothing if it goes on for longer than `fuel`. -/
def fgetsLoop {σ : Type} (size : ℕ) (step : σ → List Char → σ) : ℕ → σ → List Char → Option σ
  | 0, _, _ => none
  | fuel + 1, state, input =>
    match fgets size input with
    | none => some state
    | some (buffer, rest) => fgetsLoop size step fuel (step state buffer) rest

/-! ## Lines in chunks -/

/-- The chunk of a line that the buffer has room for when `k` of them have been read. -/
def chunk (room : ℕ) (line : List Char) (k : ℕ) : List Char := (line.drop (room * k)).take room

def chunks (room : ℕ) (line : List Char) : List (List Char) :=
  (List.range ((line.length - 1) / room + 1)).map (chunk room line)

/-- A line with the character that ends it. -/
def Ended (line : List Char) : Prop := ∃ body, '\n' ∉ body ∧ line = body ++ ['\n']

theorem chunk_zero (room : ℕ) (line : List Char) : chunk room line 0 = line.take room := by
  rw [chunk, Nat.mul_zero, List.drop_zero]

theorem chunk_succ (room : ℕ) (line : List Char) (k : ℕ) : chunk room line (k + 1) = chunk room (line.drop room) k := by
  rw [chunk, chunk, List.drop_drop, Nat.mul_succ, Nat.add_comm]

theorem chunks_short {room : ℕ} {line : List Char} (nonempty : line ≠ []) (short : line.length ≤ room) :
    chunks room line = [line] := by
  have positive := List.length_pos_iff.mpr nonempty
  have single : (line.length - 1) / room = 0 := Nat.div_eq_of_lt (by omega)
  rw [chunks, single, List.range_one, List.map_singleton, chunk_zero, List.take_of_length_le short]

theorem chunks_long {room : ℕ} {line : List Char} (positive : 0 < room) (long : room < line.length) :
    chunks room line = line.take room :: chunks room (line.drop room) := by
  have more : (line.length - 1) / room = ((line.drop room).length - 1) / room + 1 := by
    rw [List.length_drop, Nat.sub_right_comm, Nat.div_eq (line.length - 1) room, if_pos ⟨positive, by omega⟩]
  have shifted : chunk room line ∘ Nat.succ = chunk room (line.drop room) := funext fun k => chunk_succ room line k
  rw [chunks, more, List.range_succ_eq_map, List.map_cons, List.map_map, chunk_zero, shifted, chunks]

/-- Behind the last chunk there is nothing. -/
theorem chunk_eq_nil {room : ℕ} {line : List Char} {k : ℕ} (positive : 0 < room) (last : (line.length - 1) / room < k) :
    chunk room line k = [] := by
  have behind : line.length - 1 < room * k := by
    rw [Nat.mul_comm]
    exact (Nat.div_lt_iff_lt_mul positive).mp last
  rw [chunk, List.drop_eq_nil_of_le (by omega), List.take_nil]

/-- The first chunk, and all the others. -/
theorem chunks_eq (room : ℕ) (line : List Char) :
    chunks room line = line.take room :: (List.range ((line.length - 1) / room)).map fun k =>
      chunk room line (k + 1) := by
  rw [chunks, List.range_succ_eq_map, List.map_cons, List.map_map, chunk_zero]
  rfl

theorem Ended.nonempty {line : List Char} (ended : Ended line) : line ≠ [] := by
  obtain ⟨body, _, rfl⟩ := ended
  simp

theorem Ended.findIdx {line : List Char} (ended : Ended line) (rest : List Char) :
    (line ++ rest).findIdx (· = '\n') + 1 = line.length := by
  obtain ⟨body, within, rfl⟩ := ended
  have none : body.findIdx (· = '\n') = body.length := by
    rw [List.findIdx_eq_length]
    intro char member
    simpa using fun same : char = '\n' => within (same ▸ member)
  rw [List.append_assoc, List.findIdx_append, none]
  simp [List.findIdx_cons]

theorem Ended.drop {line : List Char} (ended : Ended line) {room : ℕ} (long : room < line.length) :
    Ended (line.drop room) := by
  obtain ⟨body, within, rfl⟩ := ended
  rw [List.length_append, List.length_singleton] at long
  refine ⟨body.drop room, fun member => within ((List.drop_sublist _ _).subset member), ?_⟩
  rw [List.drop_append_of_le_length (by omega)]

/-! ## What the loop sees -/

section

variable {σ : Type} {size : ℕ} (step : σ → List Char → σ)

/-- A line is read in chunks, and nothing of what is behind it. -/
theorem fgetsLoop_line (room : 1 < size) {line : List Char} (ended : Ended line) (rest : List Char) {fuel : ℕ}
    (enough : line.length + rest.length ≤ fuel) (state : σ) :
    ∃ left, rest.length ≤ left ∧ fgetsLoop size step (fuel + 1) state (line ++ rest) =
      fgetsLoop size step (left + 1) ((chunks (size - 1) line).foldl step state) rest := by
  induction fuel generalizing line state with
  | zero => exact absurd (List.length_pos_iff.mpr ended.nonempty) (by omega)
  | succ fuel inductionHypothesis =>
    have nonempty : line ++ rest ≠ [] := fun empty => ended.nonempty (List.append_eq_nil_iff.mp empty).1
    have some_char := List.length_pos_iff.mpr ended.nonempty
    rw [fgetsLoop, fgets, if_neg nonempty]
    dsimp only
    rw [ended.findIdx rest]
    by_cases short : line.length ≤ size - 1
    · refine ⟨fuel, by omega, ?_⟩
      rw [Nat.min_eq_right short, List.take_left, List.drop_left, chunks_short ended.nonempty short]
      rfl
    · have long : size - 1 < line.length := Nat.lt_of_not_le short
      obtain ⟨left, kept, ran⟩ := inductionHypothesis (ended.drop long)
        (by rw [List.length_drop]; omega) (step state (line.take (size - 1)))
      refine ⟨left, kept, ?_⟩
      have within := Nat.le_of_lt long
      rw [Nat.min_eq_left within, List.take_append_of_le_length within, List.drop_append_of_le_length within, ran,
        chunks_long (by omega) long, List.foldl_cons]

/-- A text of any number of lines: the loop ends, and has seen the chunks of each of them. -/
theorem fgetsLoop_lines (room : 1 < size) {lines : List (List Char)} (ended : ∀ line ∈ lines, Ended line) {fuel : ℕ}
    (enough : lines.flatten.length ≤ fuel) (state : σ) :
    fgetsLoop size step (fuel + 1) state lines.flatten =
      some ((lines.flatMap (chunks (size - 1))).foldl step state) := by
  induction lines generalizing fuel state with
  | nil => rfl
  | cons line lines inductionHypothesis =>
    rw [List.flatten_cons, List.length_append] at enough
    obtain ⟨left, kept, ran⟩ := fgetsLoop_line step room (ended line (by simp)) lines.flatten enough state
    rw [List.flatten_cons, ran, inductionHypothesis (fun other member => ended other (by simp [member])) kept,
      List.flatMap_cons, List.foldl_append]

end

end Memprof.Library.Fgets
