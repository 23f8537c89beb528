import Mathlib.Algebra.BigOperators.Ring.List
import Mathlib.Algebra.GroupWithZero.Nat
import Mathlib.Algebra.Order.BigOperators.Group.List

/-! # Sums of rounded parts

Parts of a whole are scaled and each one is rounded on its own: `(part + bias) / unit` is
rounded up where the remainder and the bias together make a unit.  What the sum of the
rounded parts has too much or too little is told by the remainders.
-/

namespace Memprof.Library

/-- How many of the parts are rounded up. -/
def roundedUp (unit bias : ℕ) (parts : List ℕ) : ℕ := parts.countP fun part => unit ≤ part % unit + bias

theorem add_div_eq {unit bias : ℕ} (small : bias < unit) (part : ℕ) :
    (part + bias) / unit = part / unit + if unit ≤ part % unit + bias then 1 else 0 := by
  have positive : 0 < unit := Nat.zero_lt_of_lt small
  have remainder := Nat.mod_lt part positive
  have split := Nat.div_add_mod part unit
  conv => lhs; rw [← split, Nat.add_assoc, Nat.mul_add_div positive]
  split
  next up =>
    rw [Nat.div_eq_of_lt_le (by omega : 1 * unit ≤ part % unit + bias) (by omega)]
  next down => rw [Nat.div_eq_of_lt (Nat.lt_of_not_le down)]

/-- The rounded parts and the remainders make up the parts and what was rounded up. -/
theorem sum_rounded {unit bias : ℕ} (small : bias < unit) (parts : List ℕ) :
    unit * (parts.map fun part => (part + bias) / unit).sum + (parts.map (· % unit)).sum =
      parts.sum + unit * roundedUp unit bias parts := by
  induction parts with
  | nil => simp [roundedUp]
  | cons part parts inductionHypothesis =>
    have split := Nat.div_add_mod part unit
    have counted : roundedUp unit bias (part :: parts) =
        roundedUp unit bias parts + if unit ≤ part % unit + bias then 1 else 0 := by
      rw [roundedUp, List.countP_cons]
      simp only [decide_eq_true_eq]
      rfl
    rw [List.map_cons, List.sum_cons, List.map_cons, List.sum_cons, List.sum_cons, counted, add_div_eq small]
    rw [Nat.mul_add, Nat.mul_add, Nat.mul_add]
    omega

/-- The rounded parts are at most the whole exactly if the remainders make up for the ones
that are rounded up. -/
theorem sum_rounded_le_iff {unit bias whole : ℕ} (small : bias < unit) {parts : List ℕ}
    (total : parts.sum = unit * whole) :
    (parts.map fun part => (part + bias) / unit).sum ≤ whole ↔
      unit * roundedUp unit bias parts ≤ (parts.map (· % unit)).sum := by
  have balance := sum_rounded small parts
  have positive : 0 < unit := Nat.zero_lt_of_lt small
  rw [total] at balance
  rw [← Nat.mul_le_mul_left_iff positive]
  omega

/-- Each part is too large by less than the bias. -/
theorem sum_rounded_bound (unit bias : ℕ) (parts : List ℕ) :
    unit * (parts.map fun part => (part + bias) / unit).sum ≤ parts.sum + bias * parts.length := by
  induction parts with
  | nil => simp
  | cons part parts inductionHypothesis =>
    have rounded := Nat.mul_div_le (part + bias) unit
    rw [List.map_cons, List.sum_cons, List.sum_cons, List.length_cons, Nat.mul_add, Nat.mul_add]
    omega

/-- With no more parts than the whole has units, and a bias below their share, it always is. -/
theorem sum_rounded_le {unit bias whole : ℕ} (share : bias * whole < unit) {parts : List ℕ}
    (total : parts.sum = unit * whole) (few : parts.length ≤ whole) :
    (parts.map fun part => (part + bias) / unit).sum ≤ whole := by
  have biases : bias * parts.length ≤ bias * whole := Nat.mul_le_mul_left _ few
  have less : unit * (parts.map fun part => (part + bias) / unit).sum < unit * (whole + 1) := by
    have bound := sum_rounded_bound unit bias parts
    rw [total] at bound
    rw [Nat.mul_add]
    omega
  exact Nat.le_of_lt_succ (Nat.lt_of_mul_lt_mul_left less)

end Memprof.Library
