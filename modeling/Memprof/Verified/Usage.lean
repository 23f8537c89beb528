import Mathlib.Data.UInt
import Memprof.Library.Outcome
import Memprof.Usage

/-! # The scale of the usage bar grows to fit

The scale is a power of two modulo the width of a `guint`.  Up to `2 ^ 31` there is one
that fits; a heap above that takes the doubling to `0`, where it stays.
-/

namespace Memprof.UsageBar

open Library

/-- The scale after some doublings. -/
def scale (doublings : ℕ) : UInt32 := UInt32.ofNat (2 ^ doublings)

theorem scale_double (doublings : ℕ) : scale doublings * 2 = scale (doublings + 1) := by
  rw [scale, scale, pow_succ, UInt32.ofNat_mul]
  rfl

theorem toNat_scale {doublings : ℕ} (small : doublings < 32) : (scale doublings).toNat = 2 ^ doublings := by
  rw [scale, UInt32.toNat_ofNat']
  exact Nat.mod_eq_of_lt (Nat.pow_lt_pow_right (by decide) small)

/-- The doubling wraps to `0`. -/
theorem scale_le (doublings : ℕ) : (scale doublings).toNat ≤ 2 ^ 31 := by
  rcases Nat.lt_or_ge doublings 32 with small | large
  · rw [toNat_scale small]
    exact Nat.pow_le_pow_right (by decide) (by omega)
  · have wraps : 2 ^ doublings % 2 ^ 32 = 0 := Nat.mod_eq_zero_of_dvd (Nat.pow_dvd_pow 2 large)
    rw [scale, UInt32.toNat_ofNat', wraps]
    exact Nat.zero_le _

section Loop

variable {bytesUsed : UInt32}

/-- No power of two exceeds `2 ^ 31`, and neither does `0`. -/
theorem growUsageMax_endless (large : 2 ^ 31 < bytesUsed.toNat) (fuel doublings : ℕ) :
    growUsageMax bytesUsed fuel (scale doublings) = .error .outOfFuel := by
  induction fuel generalizing doublings with
  | zero => rfl
  | succ fuel inductionHypothesis =>
    have less : scale doublings < bytesUsed := UInt32.lt_iff_toNat_lt.mpr ((scale_le doublings).trans_lt large)
    rw [growUsageMax, if_pos less, scale_double, inductionHypothesis]

theorem growUsageMax_ok (fits : bytesUsed.toNat ≤ 2 ^ 31) {fuel doublings : ℕ} (small : doublings < 32)
    (enough : 32 - doublings ≤ fuel) :
    ∃ later < 32, doublings ≤ later ∧ growUsageMax bytesUsed fuel (scale doublings) = .ok (scale later) ∧
      bytesUsed ≤ scale later := by
  induction fuel generalizing doublings with
  | zero => omega
  | succ fuel inductionHypothesis =>
    rw [growUsageMax]
    by_cases less : scale doublings < bytesUsed
    · have below : 2 ^ doublings < 2 ^ 31 := by
        have := UInt32.lt_iff_toNat_lt.mp less
        rw [toNat_scale small] at this
        omega
      have below : doublings < 31 := (Nat.pow_lt_pow_iff_right (by decide)).mp below
      obtain ⟨later, smallLater, more, ran, reached⟩ :=
        @inductionHypothesis (doublings + 1) (by omega) (by omega)
      exact ⟨later, smallLater, by omega, by rw [if_pos less, scale_double, ran], reached⟩
    · exact ⟨doublings, small, Nat.le_refl _, by rw [if_neg less], UInt32.not_lt.mp less⟩

theorem growUsageMax_scale {fuel doublings : ℕ} {usageMax : UInt32}
    (ran : growUsageMax bytesUsed fuel (scale doublings) = .ok usageMax) : ∃ later, usageMax = scale later := by
  induction fuel generalizing doublings with
  | zero => cases ran
  | succ fuel inductionHypothesis =>
    rw [growUsageMax] at ran
    split at ran
    · rw [scale_double] at ran
      exact inductionHypothesis ran
    · cases ran
      exact ⟨doublings, rfl⟩

end Loop

/-! ## Runs -/

/-- What `update_status` is to leave behind. -/
def Fits (pwin : UsageBar) (bytesUsed : UInt32) : Prop := bytesUsed ≤ pwin.usageMax ∧ 0 < pwin.usageMax

/-- The scale of a window that has not overflowed. -/
def Small (pwin : UsageBar) : Prop := ∃ doublings < 32, pwin.usageMax = scale doublings

theorem start_scale : (32 * 1024 : UInt32) = scale 15 := by decide

theorem Small.positive {pwin : UsageBar} (small : Small pwin) : 0 < pwin.usageMax := by
  obtain ⟨doublings, bound, spelled⟩ := small
  rw [spelled, UInt32.lt_iff_toNat_lt, toNat_scale bound]
  exact Nat.two_pow_pos doublings

theorem Small.updateStatus {pwin : UsageBar} (small : Small pwin) {bytesUsed : UInt32}
    (fits : bytesUsed.toNat ≤ 2 ^ 31) {fuel : ℕ} (enough : 32 ≤ fuel) :
    ∃ later, pwin.updateStatus fuel bytesUsed = .ok later ∧ Small later ∧ Fits later bytesUsed := by
  obtain ⟨doublings, bound, spelled⟩ := small
  rw [UsageBar.updateStatus]
  by_cases less : pwin.usageMax < bytesUsed
  · obtain ⟨later, boundLater, _, ran, reached⟩ :=
      @growUsageMax_ok bytesUsed fits fuel doublings bound (by omega)
    rw [if_pos less, spelled, ran]
    refine ⟨_, rfl, ⟨later, boundLater, rfl⟩, reached, ?_⟩
    exact Small.positive ⟨later, boundLater, rfl⟩
  · rw [if_neg less]
    have unchanged : Small { pwin with
      usageHigh := if pwin.usageHigh < bytesUsed then bytesUsed else pwin.usageHigh } := ⟨doublings, bound, spelled⟩
    exact ⟨_, rfl, unchanged, UInt32.not_lt.mp less, unchanged.positive⟩

/-- Events that show no more than `2 ^ 31` bytes. -/
theorem run_small {events : List Event}
    (fits : ∀ bytesUsed, .updateStatus bytesUsed ∈ events → bytesUsed.toNat ≤ 2 ^ 31) :
    Ensures (fun _ => False) (run 32 events) Small := by
  have start : Small {} := ⟨15, by decide, start_scale⟩
  refine ensures_foldlM (fun pwin event member small => ?_) start
  cases event with
  | updateStatus bytesUsed =>
    obtain ⟨later, ran, smallLater, _⟩ := small.updateStatus (fits bytesUsed member) (Nat.le_refl 32)
    rw [perform, ran]
    exact ensures_ok smallLater
  | processWindowReset => exact start

/-- Whatever the process uses, the scale is a power of two or `0`. -/
def Scaled (pwin : UsageBar) : Prop := ∃ doublings, pwin.usageMax = scale doublings

theorem run_scaled {fuel : ℕ} {events : List Event} {pwin : UsageBar} (ran : run fuel events = .ok pwin) :
    Scaled pwin := by
  have always : Ensures (fun _ => True) (run fuel events) Scaled := by
    refine ensures_foldlM ?_ ⟨15, start_scale⟩
    rintro pwin event _ ⟨doublings, spelled⟩
    cases event with
    | updateStatus bytesUsed =>
      rw [perform, UsageBar.updateStatus]
      split
      · cases grown : growUsageMax bytesUsed fuel pwin.usageMax with
        | error fault => exact ensures_error trivial
        | ok usageMax =>
          rw [spelled] at grown
          exact growUsageMax_scale grown
      · exact ⟨doublings, spelled⟩
    | processWindowReset => exact ⟨15, start_scale⟩
  exact always.of_ok ran

/-- Each call of `update_status` in a run ends with a scale that fits if and only if none
is made while the process uses more than `2 ^ 31` bytes. -/
theorem run_fits_iff {events : List Event} :
    (∀ earlier bytesUsed, earlier ++ [.updateStatus bytesUsed] <+: events →
      ∃ fuel later, run fuel (earlier ++ [.updateStatus bytesUsed]) = .ok later ∧ Fits later bytesUsed) ↔
    ∀ bytesUsed, .updateStatus bytesUsed ∈ events → bytesUsed.toNat ≤ 2 ^ 31 := by
  constructor
  · intro all bytesUsed member
    obtain ⟨earlier, rest, rfl⟩ := List.append_of_mem member
    obtain ⟨fuel, later, ran, _⟩ := all earlier bytesUsed ⟨rest, by simp⟩
    by_contra large
    rw [run, foldlM_concat] at ran
    obtain ⟨pwin, ranEarlier, called⟩ := ok_of_bind ran
    obtain ⟨doublings, spelled⟩ := run_scaled ranEarlier
    have less : pwin.usageMax < bytesUsed := by
      rw [spelled, UInt32.lt_iff_toNat_lt]
      exact (scale_le doublings).trans_lt (Nat.lt_of_not_le large)
    rw [perform, updateStatus, if_pos less, spelled, growUsageMax_endless (Nat.lt_of_not_le large)] at called
    cases called
  · intro fits earlier bytesUsed before
    have shown : ∀ shown, .updateStatus shown ∈ earlier → shown.toNat ≤ 2 ^ 31 := fun shown member =>
      fits shown (before.subset (by simp [member]))
    obtain ⟨pwin, ranEarlier, small⟩ := (run_small shown).exists_ok
    obtain ⟨later, ran, _, holds⟩ := small.updateStatus (fits bytesUsed (before.subset (by simp))) (Nat.le_refl 32)
    refine ⟨32, later, ?_, holds⟩
    rw [run] at ranEarlier ⊢
    rw [foldlM_concat, ranEarlier, ok_bind, perform, ran]

/-- A heap of three gigabytes. -/
theorem run_frozen : ¬ ∀ (events earlier : List Event) (bytesUsed : UInt32),
    earlier ++ [.updateStatus bytesUsed] <+: events →
    ∃ fuel later, run fuel (earlier ++ [.updateStatus bytesUsed]) = .ok later ∧ Fits later bytesUsed := by
  intro claim
  have shown := run_fits_iff.mp (claim [.updateStatus 3221225472]) 3221225472 (by simp)
  exact absurd shown (by decide)

end Memprof.UsageBar
