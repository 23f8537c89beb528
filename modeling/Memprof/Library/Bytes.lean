import Mathlib.Algebra.Order.Ring.Nat
import Mathlib.Tactic.Ring

/-! # Objects as bytes

An object of `n` bytes, what is left of it when fewer bytes are read into it, and numbers
as little endian fields that are written and read one after the other.
-/

namespace Memprof.Library

abbrev Object (n : ℕ) := { bytes : List UInt8 // bytes.length = n }

namespace Object

def zero (n : ℕ) : Object n := ⟨List.replicate n 0, List.length_replicate⟩

/-- The first bytes of the object are read from `image`, the others stay. -/
def overlay {n : ℕ} (object : Object n) (image : List UInt8) : Object n :=
  ⟨(image ++ object.1.drop image.length).take n, by
    have := object.2
    simp only [List.length_take, List.length_append, List.length_drop]
    omega⟩

theorem overlay_all {n : ℕ} (object image : Object n) : object.overlay image.1 = image := by
  apply Subtype.ext
  show (image.1 ++ _).take n = _
  rw [List.take_left' image.2]

end Object

namespace Bytes

def littleEndian : ℕ → ℕ → List UInt8
  | 0, _ => []
  | n + 1, value => UInt8.ofNat value :: littleEndian n (value / 256)

def value : List UInt8 → ℕ
  | [] => 0
  | byte :: bytes => byte.toNat + 256 * value bytes

/-- The next field of `n` bytes and what comes after it. -/
def readField (n : ℕ) (bytes : List UInt8) : ℕ × List UInt8 := (value (bytes.take n), bytes.drop n)

@[simp] theorem length_littleEndian (n number : ℕ) : (littleEndian n number).length = n := by
  induction n generalizing number with
  | zero => rfl
  | succ n inductionHypothesis => rw [littleEndian, List.length_cons, inductionHypothesis]

theorem value_littleEndian (n number : ℕ) : value (littleEndian n number) = number % 256 ^ n := by
  induction n generalizing number with
  | zero => rw [littleEndian, value, pow_zero, Nat.mod_one]
  | succ n inductionHypothesis =>
    have digits := Nat.mod_mul (x := number) (a := 256) (b := 256 ^ n)
    rw [littleEndian, value, inductionHypothesis, UInt8.toNat_ofNat', pow_succ 256 n, Nat.mul_comm (256 ^ n), digits]

theorem readField_append {n : ℕ} {field : List UInt8} (length : field.length = n) (rest : List UInt8) :
    readField n (field ++ rest) = (value field, rest) := by
  rw [readField, List.take_left' length, List.drop_left' length]

theorem readField_littleEndian {n number : ℕ} (fits : number < 256 ^ n) (rest : List UInt8) :
    readField n (littleEndian n number ++ rest) = (number, rest) := by
  rw [readField_append (length_littleEndian n number), value_littleEndian, Nat.mod_eq_of_lt fits]

end Bytes

end Memprof.Library
