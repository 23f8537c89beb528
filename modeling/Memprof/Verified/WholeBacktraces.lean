import Memprof.Descriptors
import Memprof.Tracing
import Memprof.Verified.Backtraces

/-! # Backtraces are whole or absent

With `backtrace` a buffer that is not full holds all frames, and a call that comes from inside
of it finds its counter raised and passes nothing on.  Along the frames every return address
is stored before the next one, as for a signal.  Either way the size of the buffer must fit
an `int`.
-/

namespace Memprof.StackFrame

open Library

/-- The callback was called once more. -/
def Backtracing.call (thread : Backtracing) (n : ℤ) (addresses : List Addr) : Backtracing :=
  { thread with called := thread.called ++ [(n, addresses)] }

/-- The callbacks of calls from inside of `backtrace`, with what these were to skip. -/
def Backtracing.absent (thread : Backtracing) (skipped : List ℕ) : Backtracing :=
  { thread with called := thread.called ++ skipped.map fun toSkip : ℕ => (-(toSkip : ℤ), []) }

theorem absent_absent (thread : Backtracing) (skipped more : List ℕ) :
    (thread.absent skipped).absent more = thread.absent (skipped ++ more) := by
  simp [Backtracing.absent]

/-- What happens while `backtrace` runs: the library is entered any number of times. -/
inductive Reenters (thread : Backtracing) : Backtracing → Prop
  | refl : Reenters thread thread
  | call {middle later : Backtracing} {backtrace : Backtrace} {fuel toSkip : ℕ} (before : Reenters thread middle)
      (ran : callWithBacktrace backtrace fuel toSkip middle = .ok later) : Reenters thread later

/-- `backtrace` on a stack with these return addresses, from the innermost one on. -/
structure Unwinds (backtrace : Backtrace) (stack : List Addr) : Prop where
  stores : ∀ thread n, (backtrace thread n).2 = stack.take n
  reenters : ∀ thread n, 0 < thread.inBacktrace → Reenters thread (backtrace thread n).1

/-! ## Calls from inside -/

/-- A call that finds the counter raised passes nothing on, whatever `backtrace` would do. -/
theorem callWithBacktrace_inside (backtrace : Backtrace) (fuel toSkip : ℕ) {thread : Backtracing}
    (inside : 0 < thread.inBacktrace) :
    callWithBacktrace backtrace (fuel + 1) toSkip thread = .ok (thread.call (-(toSkip : ℤ)) []) := by
  have raised : thread.inBacktrace ≠ 0 := ne_of_gt inside
  have nothing : ((0 : ℕ) - (toSkip : ℤ)).toNat = 0 := by omega
  have restored : thread.inBacktrace + 1 - 1 = thread.inBacktrace := by omega
  have passed : (Buffer.alloca 128).passedFrom toSkip ((0 : ℕ) - toSkip) = .ok [] := if_pos nothing
  rw [callWithBacktrace, backtraceAgain, fillBacktrace, if_neg raised, ok_bind]
  dsimp only
  rw [if_neg (by decide), passed, ok_bind, restored, Nat.cast_zero, zero_sub]
  rfl

theorem Reenters.absent {thread later : Backtracing} (reenters : Reenters thread later)
    (inside : 0 < thread.inBacktrace) : ∃ skipped, later = thread.absent skipped := by
  induction reenters with
  | refl => exact ⟨[], by simp [Backtracing.absent]⟩
  | @call middle later backtrace fuel toSkip before ran inductionHypothesis =>
    obtain ⟨skipped, rfl⟩ := inductionHypothesis
    cases fuel with
    | zero => cases ran
    | succ fuel =>
      have still : 0 < (thread.absent skipped).inBacktrace := inside
      rw [callWithBacktrace_inside backtrace fuel toSkip still] at ran
      cases ran
      exact ⟨skipped ++ [toSkip], by simp [Backtracing.absent, Backtracing.call]⟩

/-! ## The words that are passed on -/

/-- From a buffer that begins with all addresses the callback gets those that are not skipped. -/
theorem passedFrom_ok {buffer : Buffer} {addresses : List Addr}
    (written : buffer.frames.take addresses.length = addresses.map some) (fits : addresses.length ≤ buffer.nframes)
    (toSkip : ℕ) : buffer.passedFrom toSkip (addresses.length - toSkip) = .ok (addresses.drop toSkip) := by
  have count : ((addresses.length : ℤ) - toSkip).toNat = addresses.length - toSkip := by omega
  rw [Buffer.passedFrom, count]
  by_cases skipped : addresses.length - toSkip = 0
  · rw [if_pos skipped, List.drop_eq_nil_of_le (by omega)]
  · have kept : (buffer.frames.drop toSkip).take (addresses.length - toSkip) =
        (addresses.drop toSkip).map some := by
      rw [← List.drop_take, written, List.map_drop]
    rw [if_neg skipped, if_pos (by omega), kept, List.mapM_map]
    exact (mapM_ok fun address _ => rfl).trans (congrArg Except.ok (List.map_id _))

theorem fill_ok {nframes : ℕ} {addresses : List Addr} (fits : addresses.length ≤ nframes) :
    ∃ buffer, (Buffer.alloca nframes).fill addresses = .ok buffer ∧ buffer.nframes = nframes ∧
      buffer.frames.take addresses.length = addresses.map some := by
  refine ⟨_, dif_pos fits, rfl, ?_⟩
  rw [List.take_left' (List.length_map _)]

/-! ## With `backtrace` -/

section

variable {backtrace : Backtrace} {stack : List Addr}

/-- One round, for a thread that is not in `backtrace`: it ends if the buffer is larger than the
stack, and the buffer is doubled if not. -/
theorem backtraceAgain_round (unwinds : Unwinds backtrace stack) {thread : Backtracing} (idle : thread.inBacktrace = 0)
    (toSkip bufsiz count : ℕ) :
    ∃ skipped, ∀ fuel, backtraceAgain backtrace toSkip (fuel + 1) bufsiz count thread =
      if stack.length < bufsiz then .ok ((thread.absent skipped).call (stack.length - toSkip) (stack.drop toSkip))
      else if bufsiz * 2 < 2 ^ 31 then backtraceAgain backtrace toSkip fuel (bufsiz * 2) bufsiz (thread.absent skipped)
      else .error .signedOverflow := by
  obtain ⟨entered, spelled⟩ : ∃ entered : Backtracing,
    entered = { thread with inBacktrace := thread.inBacktrace + 1 } := ⟨_, rfl⟩
  have inside : 0 < entered.inBacktrace := by
    rw [spelled]
    show 0 < thread.inBacktrace + 1
    omega
  obtain ⟨skipped, left⟩ := (unwinds.reenters entered bufsiz inside).absent inside
  have stored := unwinds.stores entered bufsiz
  have fits : (stack.take bufsiz).length ≤ bufsiz := by rw [List.length_take]; exact Nat.min_le_left _ _
  obtain ⟨buffer, filled, size, written⟩ := fill_ok fits
  have restored : { entered.absent skipped with inBacktrace := (entered.absent skipped).inBacktrace - 1 } =
      thread.absent skipped := by
    rw [spelled]
    simp [Backtracing.absent]
  have ran : fillBacktrace backtrace bufsiz count thread =
      .ok (buffer, (stack.take bufsiz).length, thread.absent skipped) := by
    rw [fillBacktrace, if_pos idle]
    simp only [← spelled, stored, filled, ok_bind, left, restored]
  refine ⟨skipped, fun fuel => ?_⟩
  rw [backtraceAgain, ran, ok_bind]
  by_cases short : stack.length < bufsiz
  · have all : stack.take bufsiz = stack := List.take_of_length_le (Nat.le_of_lt short)
    rw [all] at written
    have passed := passedFrom_ok written (by omega) toSkip
    simp only [all, if_neg (Nat.ne_of_lt short), if_pos short, passed, ok_bind]
    rfl
  · have full : (stack.take bufsiz).length = bufsiz := by rw [List.length_take]; omega
    simp only [full, if_true, if_neg short]

/-- The call of a thread ends, and calls back once apart from what calls from inside do: with
the frames that are not skipped. -/
def WholeBacktrace (backtrace : Backtrace) (stack : List Addr) (toSkip : ℕ) (thread : Backtracing) : Prop :=
  ∃ skipped enough, ∀ fuel ≥ enough, callWithBacktrace backtrace fuel toSkip thread =
    .ok ((thread.absent skipped).call (stack.length - toSkip) (stack.drop toSkip))

/-- Rounds are left up to the largest size of the buffer. -/
theorem backtraceAgain_whole (unwinds : Unwinds backtrace stack) (few : stack.length < 2 ^ 30) (toSkip : ℕ)
    {rounds k : ℕ} (left : k + rounds = 23) {thread : Backtracing} (idle : thread.inBacktrace = 0) (count : ℕ) :
    ∃ skipped, ∀ fuel ≥ rounds + 1, backtraceAgain backtrace toSkip fuel (128 * 2 ^ k) count thread =
      .ok ((thread.absent skipped).call (stack.length - toSkip) (stack.drop toSkip)) := by
  induction rounds generalizing k thread count with
  | zero =>
    have largest : 128 * 2 ^ k = 2 ^ 30 := by
      rw [show k = 23 from left]
      rfl
    obtain ⟨skipped, ran⟩ := backtraceAgain_round unwinds idle toSkip (128 * 2 ^ k) count
    refine ⟨skipped, fun fuel enough => ?_⟩
    obtain ⟨fuel, rfl⟩ := Nat.exists_eq_succ_of_ne_zero (Nat.ne_of_gt enough)
    rw [ran, if_pos (largest ▸ few)]
  | succ rounds inductionHypothesis =>
    obtain ⟨skipped, ran⟩ := backtraceAgain_round unwinds idle toSkip (128 * 2 ^ k) count
    by_cases short : stack.length < 128 * 2 ^ k
    · refine ⟨skipped, fun fuel enough => ?_⟩
      obtain ⟨fuel, rfl⟩ := Nat.exists_eq_succ_of_ne_zero (Nat.ne_of_gt (Nat.zero_lt_of_lt enough))
      rw [ran, if_pos short]
    · have doubled : 128 * 2 ^ k * 2 = 128 * 2 ^ (k + 1) := by rw [pow_succ, mul_assoc]
      have sized : 2 ^ (k + 1) ≤ 2 ^ 23 := Nat.pow_le_pow_right (by decide) (by omega)
      obtain ⟨more, rest⟩ := @inductionHypothesis (k + 1) (by omega) (thread.absent skipped) idle (128 * 2 ^ k)
      refine ⟨skipped ++ more, fun fuel enough => ?_⟩
      obtain ⟨fuel, rfl⟩ := Nat.exists_eq_succ_of_ne_zero (Nat.ne_of_gt (Nat.zero_lt_of_lt enough))
      rw [ran, if_neg short, if_pos (by omega), doubled, rest fuel (Nat.le_of_succ_le_succ enough), absent_absent]

/-- No size of the buffer is larger than the stack. -/
theorem backtraceAgain_fails (unwinds : Unwinds backtrace stack) (many : 2 ^ 30 ≤ stack.length) (toSkip fuel : ℕ)
    {k : ℕ} (sized : k ≤ 23) {thread : Backtracing} (idle : thread.inBacktrace = 0) (count : ℕ)
    (later : Backtracing) :
    backtraceAgain backtrace toSkip fuel (128 * 2 ^ k) count thread ≠ .ok later := by
  induction fuel generalizing k thread count with
  | zero => nofun
  | succ fuel inductionHypothesis =>
    obtain ⟨skipped, ran⟩ := backtraceAgain_round unwinds idle toSkip (128 * 2 ^ k) count
    have power : 2 ^ k ≤ 2 ^ 23 := Nat.pow_le_pow_right (by decide) sized
    rw [ran, if_neg (by omega)]
    by_cases fits : 128 * 2 ^ k * 2 < 2 ^ 31
    · have smaller : k < 23 := (Nat.pow_lt_pow_iff_right Nat.one_lt_two).mp (by omega : 2 ^ k < 2 ^ 23)
      rw [if_pos fits, mul_assoc, ← pow_succ]
      exact @inductionHypothesis (k + 1) smaller (thread.absent skipped) idle _
    · rw [if_neg fits]
      nofun

theorem wholeBacktrace_iff (unwinds : Unwinds backtrace stack) (toSkip : ℕ) {thread : Backtracing}
    (idle : thread.inBacktrace = 0) : WholeBacktrace backtrace stack toSkip thread ↔ stack.length < 2 ^ 30 := by
  constructor
  · rintro ⟨_, enough, ran⟩
    by_contra many
    exact @backtraceAgain_fails _ _ unwinds (Nat.le_of_not_lt many) toSkip enough 0 (by decide) thread idle 0 _
      (ran enough le_rfl)
  · intro few
    obtain ⟨skipped, ran⟩ := @backtraceAgain_whole _ _ unwinds few toSkip 23 0 rfl thread idle 0
    exact ⟨skipped, 24, ran⟩

end

/-! ## Along the frames -/

/-- The call of a thread ends, and calls back once, with the frames that are not skipped. -/
def WholeFrames (memory : FrameMemory) (firstFrame : Addr) (stack : List Addr) (toSkip : ℕ) (thread : Backtracing) :
    Prop :=
  ∃ enough, ∀ fuel ≥ enough, callWithFrameBacktrace fuel memory firstFrame toSkip thread =
    .ok (thread.call (stack.length - toSkip) (stack.drop toSkip))

/-- The loop is the one of `mi_call_with_signal_backtrace`, without a bound. -/
theorem frameLoop_eq (memory : FrameMemory) (fuel : ℕ) (frame : Addr) (depth : ℕ) (buffer : Buffer) :
    frameLoop memory fuel frame depth buffer = signalLoop memory 0 fuel frame depth buffer := by
  induction fuel generalizing frame depth buffer with
  | zero => rfl
  | succ fuel inductionHypothesis =>
    have above : frame ≠ 0 ↔ 0 < frame := UInt64.pos_iff_ne_zero.symm
    rw [frameLoop, signalLoop]
    simp only [above, inductionHypothesis]

/-- The frames that are visited are determined. -/
theorem Visited.unique {memory : FrameMemory} {stackBound frame : Addr} {visited others : List Addr}
    (chain : Visited memory stackBound frame visited) (same : Visited memory stackBound frame others) :
    others = visited := by
  induction chain generalizing others with
  | stop below =>
    cases same with
    | stop _ => rfl
    | step above _ => exact absurd above below
  | step above _ inductionHypothesis =>
    cases same with
    | stop below => exact absurd above below
    | step _ next => rw [inductionHypothesis next]

theorem wholeFrames_iff {memory : FrameMemory} {firstFrame : Addr} {visited : List Addr}
    (chain : Visited memory 0 firstFrame visited) (toSkip : ℕ) (thread : Backtracing) :
    WholeFrames memory firstFrame (visited.map fun frame => (memory frame).returnAddress) toSkip thread ↔
      visited.length ≤ 2 ^ 30 := by
  constructor
  · rintro ⟨enough, ran⟩
    have returned := ran enough le_rfl
    rw [callWithFrameBacktrace, frameLoop_eq] at returned
    obtain ⟨⟨depth, later⟩, looped, _⟩ := ok_of_bind returned
    obtain ⟨others, same, short⟩ := visited_of_signalLoop holds_empty (Nat.zero_le _) looped
    rw [chain.unique same] at short
    simpa using short
  · intro short
    refine ⟨visited.length + 1, fun fuel enough => ?_⟩
    obtain ⟨later, looped, held⟩ :=
      signalLoop_visited chain holds_empty (by simpa using short) (Nat.lt_of_succ_le enough)
    rw [List.length_nil, Nat.zero_add] at looped
    have passed := passedFrom_ok held.written held.fits toSkip
    rw [List.nil_append, List.length_map] at passed
    rw [callWithFrameBacktrace, frameLoop_eq, looped, ok_bind]
    dsimp only
    rw [passed, ok_bind, List.length_map]
    rfl

/-! ## The reports -/

/-- A trace with a negative number of frames leaves the memory, with the counter in it, as it is,
and nothing is written. -/
theorem miWriteStack_negative {nFrames : ℤ} (negative : nFrames < 0) :
    (∀ memory pid info registration sent,
      Tracing.miWriteStack memory pid info nFrames registration sent = .ok memory) ∧
    ∀ (running : Descriptors.Running) registration infoSent framesSent,
      running.miWriteStack nFrames registration infoSent framesSent = .ok running := by
  constructor
  · intro memory pid info registration sent
    have bogus : numberReport info nFrames pid memory.seqno = none := if_pos (Or.inl negative)
    rw [Tracing.miWriteStack, bogus]
  · intro running registration infoSent framesSent
    exact if_pos (Or.inl negative)

/-- A backtrace is whole if the size of the buffer fits an `int` up to where it is larger than
the stack, or as large where the frames are followed; it is absent, and not reported, if it is
asked for from inside of `backtrace`. -/
theorem backtraces_whole_iff {backtrace : Backtrace} {stack : List Addr} (unwinds : Unwinds backtrace stack)
    {memory : FrameMemory} {firstFrame : Addr} {visited : List Addr} (chain : Visited memory 0 firstFrame visited)
    {toSkip : ℕ} (skips : 1 ≤ toSkip) :
    (∀ thread : Backtracing, thread.inBacktrace = 0 →
      (WholeBacktrace backtrace stack toSkip thread ↔ stack.length < 2 ^ 30)) ∧
    (∀ thread, WholeFrames memory firstFrame (visited.map fun frame => (memory frame).returnAddress) toSkip thread ↔
      visited.length ≤ 2 ^ 30) ∧
    (∀ thread : Backtracing, 0 < thread.inBacktrace → ∀ fuel,
      callWithBacktrace backtrace (fuel + 1) toSkip thread = .ok (thread.call (-(toSkip : ℤ)) [])) ∧
    (∀ memory pid info registration sent,
      Tracing.miWriteStack memory pid info (-(toSkip : ℤ)) registration sent = .ok memory) ∧
    ∀ (running : Descriptors.Running) registration infoSent framesSent,
      running.miWriteStack (-(toSkip : ℤ)) registration infoSent framesSent = .ok running :=
  have negative : -(toSkip : ℤ) < 0 := by omega
  ⟨fun _ idle => wholeBacktrace_iff unwinds toSkip idle, fun thread => wholeFrames_iff chain toSkip thread,
    fun _ inside fuel => callWithBacktrace_inside backtrace fuel toSkip inside, miWriteStack_negative negative⟩

/-- Three frames, on which `backtrace` calls the allocator once, and two frames in memory. -/
theorem backtraces_whole_iff_shallow :
    WholeBacktrace (fun thread n => (thread.call (-2) [], ([16, 32, 48] : List Addr).take n)) [16, 32, 48] 1 {} ∧
    WholeFrames (fun frame => if frame = 4096 then ⟨4112, 16⟩ else ⟨0, 32⟩) 4096 [16, 32] 1 {} := by
  have unwinds : Unwinds (fun thread n => (thread.call (-2) [], ([16, 32, 48] : List Addr).take n)) [16, 32, 48] := {
    stores := fun _ _ => rfl
    reenters := fun thread n inside =>
      .call .refl (callWithBacktrace_inside (fun thread _ => (thread, [])) 0 2 inside) }
  have chain : Visited (fun frame => if frame = 4096 then ⟨4112, 16⟩ else ⟨0, 32⟩) 0 4096 [4096, 4112] :=
    .step (by decide) (.step (by decide) (.stop (by decide)))
  obtain ⟨whole, frames, _⟩ := backtraces_whole_iff unwinds chain (le_refl 1)
  exact ⟨(whole {} rfl).mpr (by decide), (frames {}).mpr (by decide)⟩

/-- For 2 ^ 30 frames the size of the buffer does not fit an `int`. -/
theorem not_wholeBacktrace_deep :
    ¬ WholeBacktrace (fun thread n => (thread, (List.replicate (2 ^ 30) (4096 : Addr)).take n))
      (List.replicate (2 ^ 30) 4096) 1 {} := by
  have unwinds : Unwinds (fun thread n => (thread, (List.replicate (2 ^ 30) (4096 : Addr)).take n))
      (List.replicate (2 ^ 30) 4096) := ⟨fun _ _ => rfl, fun _ _ _ => .refl⟩
  rw [wholeBacktrace_iff unwinds 1 rfl, List.length_replicate]
  exact lt_irrefl _

end Memprof.StackFrame
