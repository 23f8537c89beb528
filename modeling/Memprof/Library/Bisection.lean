import Mathlib.Algebra.Group.Nat.Defs
import Mathlib.Data.Nat.Basic
import Memprof.Library.Outcome

/-! # Bisection with 32-bit indexes

The loop of a binary search whose indexes are unsigned words of 32 bits, and whose test
says that what is sought lies below an index.  From `first < last` it ends at the index
in front of the first one that the test holds at, as long as the sum of two indexes does not
wrap; from `first = last = 0` it never ends.
-/

namespace Memprof.Library

variable {ε : Type}

/-- `while (first < last - 1)`, where `below` says whether `last` may come down. -/
def bisect (below : UInt32 → Except ε Bool) (stuck : ε) : ℕ → UInt32 → UInt32 → Except ε UInt32
  | 0, _, _ => .error stuck
  | fuel + 1, first, last =>
    if first < last - 1 then do
      -- The sum wraps, which `first < last - 1` does not exclude.
      let middle := (first + last) / 2
      let less ← below middle
      if less then bisect below stuck fuel first middle else bisect below stuck fuel middle last
    else .ok first

/-- The sum of two indexes up to `2 ^ 31` does not wrap. -/
theorem middle_eq {first last : UInt32} (fits : last.toNat ≤ 2 ^ 31) (less : first.toNat < last.toNat) :
    ((first + last) / 2).toNat = (first.toNat + last.toNat) / 2 := by
  have two : (2 : UInt32).toNat = 2 := rfl
  rw [UInt32.toNat_div, UInt32.toNat_add, two, Nat.mod_eq_of_lt (by omega)]

theorem lt_pred_iff {first last : UInt32} (positive : 0 < last.toNat) :
    first < last - 1 ↔ first.toNat + 1 < last.toNat := by
  have one : (1 : UInt32).toNat = 1 := rfl
  rw [UInt32.lt_iff_toNat_lt, UInt32.toNat_sub_of_le _ _ (by rw [UInt32.le_iff_toNat_le, one]; exact positive), one]
  omega

variable {below : UInt32 → Except ε Bool} {stuck : ε} {test : ℕ → Prop} [DecidablePred test]

/-- More fuel changes nothing once the loop has ended. -/
theorem bisect_fuel {fuel fuel' : ℕ} {first last found : UInt32} (more : fuel ≤ fuel')
    (ran : bisect below stuck fuel first last = .ok found) : bisect below stuck fuel' first last = .ok found := by
  induction fuel generalizing fuel' first last with
  | zero => cases ran
  | succ fuel inductionHypothesis =>
    obtain ⟨fuel', rfl⟩ : ∃ fewer, fuel' = fewer + 1 := ⟨fuel' - 1, by omega⟩
    rw [bisect] at ran ⊢
    split at ran
    next apart =>
      rw [if_pos apart]
      obtain ⟨less, tested, ran⟩ := ok_of_bind ran
      simp only [tested, ok_bind]
      split at ran
      next lower =>
        rw [if_pos lower]
        exact inductionHypothesis (by omega) ran
      next higher =>
        rw [if_neg higher]
        exact inductionHypothesis (by omega) ran
    next adjacent =>
      rw [if_neg adjacent]
      exact ran

/-- What is found is the start or fails the test, and its successor passes it. -/
theorem bisect_ok {fuel : ℕ} {first last : UInt32} (tested : ∀ i, i < last → below i = .ok (decide (test i.toNat)))
    (fits : last.toNat ≤ 2 ^ 31) (less : first < last) (ends : test last.toNat)
    (enough : last.toNat - first.toNat ≤ fuel) :
    ∃ found, bisect below stuck fuel first last = .ok found ∧ found < last ∧
      (found = first ∨ ¬ test found.toNat) ∧ test (found.toNat + 1) := by
  induction fuel generalizing first last with
  | zero =>
    rw [UInt32.lt_iff_toNat_lt] at less
    omega
  | succ fuel inductionHypothesis =>
    have lessNat := UInt32.lt_iff_toNat_lt.mp less
    rw [bisect]
    by_cases apart : first.toNat + 1 < last.toNat
    · have middle := middle_eq fits lessNat
      obtain ⟨between, spelled⟩ : ∃ between, between = (first + last) / 2 := ⟨_, rfl⟩
      rw [← spelled] at middle
      have above : first < between := by rw [UInt32.lt_iff_toNat_lt]; omega
      have under : between < last := by rw [UInt32.lt_iff_toNat_lt]; omega
      rw [if_pos ((lt_pred_iff (Nat.zero_lt_of_lt lessNat)).mpr apart)]
      simp only [← spelled, tested between under, ok_bind, decide_eq_true_eq]
      by_cases passes : test between.toNat
      · rw [if_pos passes]
        obtain ⟨found, ran, inside, rest⟩ := inductionHypothesis (fun i lower => tested i (UInt32.lt_trans lower under))
          (by omega) above passes (by omega)
        exact ⟨found, ran, UInt32.lt_trans inside under, rest⟩
      · rw [if_neg passes]
        obtain ⟨found, ran, inside, starts, next⟩ := inductionHypothesis tested fits under ends (by omega)
        refine ⟨found, ran, inside, .inr ?_, next⟩
        rcases starts with rfl | fails
        · exact passes
        · exact fails
    · rw [if_neg (by rwa [lt_pred_iff (Nat.zero_lt_of_lt lessNat)])]
      have adjacent : last.toNat = first.toNat + 1 := by omega
      exact ⟨first, rfl, less, .inl rfl, adjacent ▸ ends⟩

/-- `last - 1` wraps for a `last` of `0`: the loop stays at `0` for ever if the test holds there. -/
theorem bisect_stuck (passes : below 0 = .ok true) (fuel : ℕ) : bisect below stuck fuel 0 0 = .error stuck := by
  induction fuel with
  | zero => rfl
  | succ fuel inductionHypothesis =>
    have entered : (0 : UInt32) < 0 - 1 := by decide
    have middle : ((0 : UInt32) + 0) / 2 = 0 := by decide
    rw [bisect, if_pos entered]
    simp only [middle, passes, ok_bind, if_true]
    exact inductionHypothesis

/-- The middle is always below `2 ^ 31`: the loop never gets to an index from there on. -/
theorem bisect_endless (above : ∀ i : UInt32, i.toNat < 2 ^ 31 → below i = .ok false) {first last : UInt32}
    (high : 2 ^ 31 < last.toNat) (low : first.toNat < 2 ^ 31) (fuel : ℕ) :
    bisect below stuck fuel first last = .error stuck := by
  induction fuel generalizing first with
  | zero => rfl
  | succ fuel inductionHypothesis =>
    have apart : first < last - 1 := (lt_pred_iff (by omega)).mpr (by omega)
    have middle : ((first + last) / 2).toNat < 2 ^ 31 := by
      have two : (2 : UInt32).toNat = 2 := rfl
      rw [UInt32.toNat_div, two]
      have := (first + last).toNat_lt
      omega
    rw [bisect, if_pos apart]
    simp only [above _ middle, ok_bind, Bool.false_eq_true, if_false]
    exact inductionHypothesis middle

end Memprof.Library
