import Memprof.Calloc
import Memprof.Library.Outcome

/-! # The interposed `calloc`

`do_calloc` asks for the product that is left when it has been an `int`.  The block is
large enough when that is no less than the product itself, and the report is right when
it is the same.
-/

namespace Memprof.Calloc

open Library

variable {model : DataModel}

/-- The product that the caller means. -/
def product (nmemb size : SizeT model) : ℕ := nmemb.toNat * size.toNat

/-- The real `malloc` returns blocks that are as large as it is asked for. -/
def Correct (oldMalloc : SizeT model → Option (Chunk model)) : Prop :=
  ∀ request, ∀ chunk ∈ oldMalloc request, request.toNat ≤ chunk.bytes.length

/-- A `malloc` that returns no byte more than it is asked for. -/
def tightMalloc (serves : SizeT model → Prop) [DecidablePred serves] (request : SizeT model) : Option (Chunk model) :=
  if serves request then some ⟨1, by cases model <;> decide, List.replicate request.toNat 1⟩ else none

/-- What `do_calloc` is to return and to report. -/
def Safe (library : Interposed model) (nmemb size : SizeT model) : Prop :=
  ∃ result report, doCalloc library nmemb size = .ok (result, report) ∧
    (∀ chunk ∈ result, product nmemb size ≤ chunk.bytes.length ∧
      (∀ i < product nmemb size, chunk.bytes[i]? = some 0) ∧ ∀ info ∈ report, info.size.toNat = product nmemb size) ∧
    (2 ^ model.bits ≤ product nmemb size → result = none)

/-- Products that are still themselves when they have been an `int`. -/
def Exact : DataModel → ℕ → Prop
  | .ilp32, n => n < 2 ^ 32
  | .lp64, n => n < 2 ^ 31 ∨ (2 ^ 64 - 2 ^ 31 ≤ n ∧ n < 2 ^ 64)

/-- Products that do not get smaller. -/
def Enough : DataModel → ℕ → Prop
  | .ilp32, n => n < 2 ^ 32
  | .lp64, n => n < 2 ^ 31 ∨ (2 ^ 31 ≤ n % 2 ^ 32 ∧ n < 2 ^ 64)

/-! ## The request -/

theorem toNat_callocTotal (nmemb size : SizeT model) :
    (callocTotal nmemb size).toNat = product nmemb size % 2 ^ 32 := by
  have divides : 2 ^ 32 ∣ 2 ^ model.bits := Nat.pow_dvd_pow 2 (by cases model <;> decide)
  rw [callocTotal, BitVec.toNat_setWidth, BitVec.toNat_mul, Nat.mod_mod_of_dvd _ divides, product]

theorem toNat_callocRequest_ilp32 (nmemb size : SizeT .ilp32) :
    (callocRequest nmemb size).toNat = product nmemb size % 2 ^ 32 := by
  rw [← toNat_callocTotal]
  exact congrArg BitVec.toNat (BitVec.signExtend_eq _)

/-- An `int` that is negative becomes a very large `size_t`. -/
theorem toNat_callocRequest_lp64 (nmemb size : SizeT .lp64) :
    (callocRequest nmemb size).toNat = product nmemb size % 2 ^ 32 +
      if 2 ^ 31 ≤ product nmemb size % 2 ^ 32 then 2 ^ 64 - 2 ^ 32 else 0 := by
  have wide : DataModel.lp64.bits = 64 := rfl
  have low : product nmemb size % 2 ^ 32 % 2 ^ 64 = product nmemb size % 2 ^ 32 := Nat.mod_eq_of_lt (by omega)
  rw [callocRequest, BitVec.toNat_signExtend, BitVec.toNat_setWidth, BitVec.msb_eq_decide, toNat_callocTotal, wide, low]
  simp

theorem request_eq_iff (nmemb size : SizeT model) :
    (callocRequest nmemb size).toNat = product nmemb size ↔ Exact model (product nmemb size) := by
  cases model with
  | ilp32 =>
    rw [toNat_callocRequest_ilp32, Exact]
    omega
  | lp64 =>
    rw [toNat_callocRequest_lp64, Exact]
    split <;> omega

theorem product_le_request_iff (nmemb size : SizeT model) :
    product nmemb size ≤ (callocRequest nmemb size).toNat ↔ Enough model (product nmemb size) := by
  cases model with
  | ilp32 =>
    rw [toNat_callocRequest_ilp32, Enough]
    omega
  | lp64 =>
    rw [toNat_callocRequest_lp64, Enough]
    split <;> omega

theorem Exact.enough {n : ℕ} (exactly : Exact model n) : Enough model n := by
  cases model with
  | ilp32 => exact exactly
  | lp64 =>
    unfold Exact at exactly
    unfold Enough
    omega

/-! ## The call -/

variable {library : Interposed model} {nmemb size : SizeT model}

theorem memsetZero_ok {chunk : Chunk model} {n : SizeT model} (inside : n.toNat ≤ chunk.bytes.length) :
    ∃ later, memsetZero chunk n = .ok later ∧ later.bytes.length = chunk.bytes.length ∧
      ∀ i < n.toNat, later.bytes[i]? = some 0 := by
  refine ⟨_, if_pos inside, ?_, ?_⟩
  · rw [List.length_append, List.length_replicate, List.length_drop]
    omega
  · intro i less
    rw [List.getElem?_append_left (by rwa [List.length_replicate]), List.getElem?_replicate, if_pos less]

theorem doCalloc_of_null (refused : (doMalloc library (callocRequest nmemb size)).1 = none) :
    ∃ report, doCalloc library nmemb size = .ok (none, report) := by
  obtain ⟨report, spelled⟩ : ∃ report, doMalloc library (callocRequest nmemb size) = (none, report) :=
    ⟨_, Prod.ext refused rfl⟩
  exact ⟨report, by rw [doCalloc, spelled]⟩

/-- A block that the real `malloc` returns is returned with zeros at its beginning. -/
theorem doCalloc_ok (ready : library.ready = true) (correct : Correct library.oldMalloc) {chunk : Chunk model}
    (given : library.oldMalloc (callocRequest nmemb size) = some chunk) :
    ∃ result, doCalloc library nmemb size = .ok (some result, if library.tracing then
        some { operation := .malloc, oldPtr := 0, newPtr := chunk.ptr, size := callocRequest nmemb size } else none) ∧
      result.bytes.length = chunk.bytes.length ∧
      ∀ i < (callocRequest nmemb size).toNat, result.bytes[i]? = some 0 := by
  obtain ⟨result, ran, length, zeroed⟩ := memsetZero_ok (correct _ chunk given)
  refine ⟨result, ?_, length, zeroed⟩
  rw [doCalloc, doMalloc, if_pos ready, given]
  simp only [ran, ok_bind, Option.elim_some]

/-- If what the real `malloc` gives is enough, and what is reported right, all is well. -/
theorem safe_of_right (correct : Correct library.oldMalloc)
    (right : library.ready = true → (library.oldMalloc (callocRequest nmemb size)).isSome = true →
      if library.tracing then Exact model (product nmemb size) else Enough model (product nmemb size)) :
    Safe library nmemb size := by
  cases returned : (doMalloc library (callocRequest nmemb size)).1 with
  | none =>
    obtain ⟨report, ran⟩ := doCalloc_of_null returned
    exact ⟨none, report, ran, by simp, fun _ => rfl⟩
  | some chunk =>
    obtain ⟨ready, given⟩ : library.ready = true ∧ library.oldMalloc (callocRequest nmemb size) = some chunk := by
      rw [doMalloc] at returned
      split at returned
      next ready => exact ⟨ready, returned⟩
      next => cases returned
    have right := right ready (by rw [given]; rfl)
    have enough : Enough model (product nmemb size) := by
      split at right
      · exact right.enough
      · exact right
    have covered := (product_le_request_iff nmemb size).mpr enough
    obtain ⟨result, ran, length, zeroed⟩ := doCalloc_ok ready correct given
    refine ⟨some result, _, ran, ?_, ?_⟩
    · rintro _ ⟨⟩
      refine ⟨?_, fun i less => zeroed i (Nat.lt_of_lt_of_le less covered), ?_⟩
      · rw [length]
        exact covered.trans (correct _ chunk given)
      · intro info reported
        split at reported
        next tracing =>
          cases reported
          rw [if_pos tracing] at right
          exact (request_eq_iff nmemb size).mpr right
        next => cases reported
    · intro overflows
      have := (callocRequest nmemb size).isLt
      omega

section Tight

variable {serves : SizeT model → Prop} [DecidablePred serves]

theorem isSome_tightMalloc (request : SizeT model) : (tightMalloc serves request).isSome = true ↔ serves request := by
  by_cases served : serves request <;> simp [tightMalloc, served]

theorem length_tightMalloc {request : SizeT model} {chunk : Chunk model}
    (given : tightMalloc serves request = some chunk) : chunk.bytes.length = request.toNat := by
  rw [tightMalloc] at given
  split at given <;> cases given
  exact List.length_replicate

theorem correct_tightMalloc : Correct (tightMalloc serves) :=
  fun _ _ given => Nat.le_of_eq (length_tightMalloc given).symm

/-- On the tight `malloc` nothing else is safe. -/
theorem right_of_safe {tracing : Bool} (served : serves (callocRequest nmemb size))
    (safe : Safe ⟨true, tracing, tightMalloc serves⟩ nmemb size) :
    if tracing then Exact model (product nmemb size) else Enough model (product nmemb size) := by
  obtain ⟨chunk, given⟩ := Option.isSome_iff_exists.mp ((isSome_tightMalloc _).mpr served)
  obtain ⟨result, ran, length, _⟩ :=
    @doCalloc_ok model ⟨true, tracing, tightMalloc serves⟩ nmemb size rfl correct_tightMalloc chunk given
  obtain ⟨result', report, ran', holds, _⟩ := safe
  rw [ran] at ran'
  cases ran'
  obtain ⟨large, _, reported⟩ := holds result rfl
  rw [length, length_tightMalloc given] at large
  cases tracing with
  | true => exact (request_eq_iff nmemb size).mp (reported _ rfl)
  | false => exact (product_le_request_iff nmemb size).mp large

end Tight

/-- The interposed `calloc` is safe on every real `malloc` that serves the same requests if
and only if it is not called too early, the request is refused, or the product goes
through an `int` unharmed; while nothing is reported, it may only grow. -/
theorem doCalloc_safe_iff (ready tracing : Bool) (serves : SizeT model → Prop) (nmemb size : SizeT model) :
    (∀ oldMalloc, Correct oldMalloc → (∀ request, (oldMalloc request).isSome = true ↔ serves request) →
      Safe ⟨ready, tracing, oldMalloc⟩ nmemb size) ↔
    ready = false ∨ ¬ serves (callocRequest nmemb size) ∨
      if tracing then Exact model (product nmemb size) else Enough model (product nmemb size) := by
  constructor
  · intro safe
    by_contra neither
    simp only [not_or, Bool.not_eq_false, not_not] at neither
    obtain ⟨rfl, served, notRight⟩ := neither
    classical
    exact notRight (right_of_safe served (safe (tightMalloc serves) correct_tightMalloc isSome_tightMalloc))
  · intro right oldMalloc correct same
    refine safe_of_right correct fun isReady given => ?_
    have served := (same _).mp given
    rcases right with early | refused | right
    · rw [early] at isReady
      cases isReady
    · exact absurd served refused
    · exact right

/-- `calloc (65536, 65536)` returns a block of no bytes at all. -/
theorem doCalloc_unsafe : ¬ ∀ (ready tracing : Bool) (oldMalloc : SizeT .lp64 → Option (Chunk .lp64))
    (nmemb size : SizeT .lp64), Correct oldMalloc → Safe ⟨ready, tracing, oldMalloc⟩ nmemb size := by
  intro claim
  have right := (doCalloc_safe_iff true true (fun _ => True) (65536 : SizeT .lp64) 65536).mp
    fun oldMalloc correct _ => claim true true oldMalloc _ _ correct
  have overflows : ¬ Exact .lp64 (product (65536 : SizeT .lp64) 65536) := by
    unfold Exact product
    decide
  rcases right with early | refused | right
  · cases early
  · exact refused trivial
  · rw [if_pos rfl] at right
    exact overflows right

end Memprof.Calloc
