import Mathlib.Logic.Function.Iterate
import Memprof.Library.Outcome
import Memprof.StackFrame

/-! # Backtraces of signals

Every word that the callback reads has been written, whatever number of times the buffer
was doubled.  The loop ends where the links come to a frame that is not above the stack
bound; links that go round above it are followed for ever.
-/

namespace Memprof.StackFrame

open Library

/-- The frames from `frame` on, up to the first one that is not above the bound. -/
inductive Visited (memory : FrameMemory) (stackBound : Addr) : Addr → List Addr → Prop
  | stop {frame : Addr} (below : ¬ stackBound < frame) : Visited memory stackBound frame []
  | step {frame : Addr} {rest : List Addr} (above : stackBound < frame)
      (next : Visited memory stackBound (memory frame).next rest) : Visited memory stackBound frame (frame :: rest)

/-- The call ends, and its callback gets the first address and the return addresses of all
frames that are visited. -/
def Whole (memory : FrameMemory) (firstAddress secondFrame stackBound : Addr) : Prop :=
  ∃ visited, Visited memory stackBound secondFrame visited ∧ ∃ enough, ∀ fuel ≥ enough,
    callWithSignalBacktrace fuel memory firstAddress secondFrame stackBound =
      .ok (visited.length + 1, firstAddress :: visited.map fun frame => (memory frame).returnAddress)

/-! ## The buffer -/

/-- The first words of the buffer are these addresses; it has been doubled at most 24 times. -/
structure Holds (buffer : Buffer) (addresses : List Addr) : Prop where
  written : buffer.frames.take addresses.length = addresses.map some
  fits : addresses.length ≤ buffer.nframes
  doubled : ∃ k ≤ 24, buffer.nframes = 64 * 2 ^ k

theorem holds_empty : Holds (.alloca 64) [] := ⟨rfl, Nat.zero_le _, 0, Nat.zero_le _, rfl⟩

theorem holds_store {buffer : Buffer} {addresses : List Addr} (holds : Holds buffer addresses)
    (room : addresses.length < buffer.nframes) (ret : Addr) :
    ∃ later, buffer.store addresses.length ret = .ok later ∧ Holds later (addresses ++ [ret]) := by
  refine ⟨_, if_pos room, ?_, ?_, holds.doubled⟩
  · have inside : addresses.length < buffer.frames.length := buffer.sized ▸ room
    rw [List.length_append, List.length_singleton, List.take_add_one, List.getElem?_set_self inside,
      List.take_set_of_le le_rfl, holds.written, List.map_append]
    rfl
  · rw [List.length_append, List.length_singleton]
    exact room

/-- Doubling the buffer keeps what was written; at its largest size it cannot be doubled. -/
theorem holds_double {buffer : Buffer} {addresses : List Addr} (holds : Holds buffer addresses) :
    (buffer.nframes < 2 ^ 30 → ∃ later, buffer.double = .ok later ∧ Holds later addresses ∧
      buffer.nframes < later.nframes) ∧
    (buffer.nframes = 2 ^ 30 → buffer.double = .error .signedOverflow) := by
  obtain ⟨k, atMost, size⟩ := holds.doubled
  constructor
  · intro small
    have exponent : k < 24 := (Nat.pow_lt_pow_iff_right (Nat.one_lt_two)).mp (by omega : 2 ^ k < 2 ^ 24)
    have positive : 0 < 2 ^ k := Nat.two_pow_pos k
    have larger : buffer.nframes < buffer.nframes * 2 := by omega
    refine ⟨_, if_pos (by omega), ⟨?_, holds.fits.trans larger.le, k + 1, exponent, ?_⟩, larger⟩
    · rw [List.take_append_of_le_length (by rw [buffer.sized]; exact holds.fits), holds.written]
    · rw [pow_succ, ← mul_assoc, ← size]
  · intro large
    exact if_neg (by omega)

theorem holds_passed {buffer : Buffer} {addresses : List Addr} (holds : Holds buffer addresses) :
    buffer.passed addresses.length = .ok addresses := by
  rw [Buffer.passed, holds.written, List.mapM_map]
  exact (mapM_ok fun address _ => rfl).trans (congrArg Except.ok (List.map_id _))

/-! ## The loop -/

theorem nextFrame_eq (memory : FrameMemory) {stackBound frame : Addr} (above : stackBound < frame) :
    nextFrame memory frame = (memory frame).next ∧ frameReturnAddress memory frame = (memory frame).returnAddress := by
  have nonzero : frame ≠ 0 := by
    rintro rfl
    exact absurd above (by simp)
  exact ⟨if_pos nonzero, if_pos nonzero⟩

section

variable {memory : FrameMemory} {stackBound : Addr} {buffer : Buffer} {addresses : List Addr} {frame : Addr}

/-- One round: the return address of the frame is added, as long as there are fewer than
2 ^ 30 of them. -/
theorem signalLoop_step (holds : Holds buffer addresses) (above : stackBound < frame) (fuel : ℕ) :
    (addresses.length < 2 ^ 30 → ∃ later, Holds later (addresses ++ [(memory frame).returnAddress]) ∧
      signalLoop memory stackBound (fuel + 1) frame addresses.length buffer =
        signalLoop memory stackBound fuel (memory frame).next (addresses.length + 1) later) ∧
    (2 ^ 30 ≤ addresses.length →
      signalLoop memory stackBound (fuel + 1) frame addresses.length buffer = .error .signedOverflow) := by
  have largest : buffer.nframes ≤ 2 ^ 30 := by
    obtain ⟨k, atMost, size⟩ := holds.doubled
    have power : 2 ^ k ≤ 2 ^ 24 := Nat.pow_le_pow_right (by decide) atMost
    omega
  have fits := holds.fits
  obtain ⟨next, return_⟩ := nextFrame_eq memory above
  have stored : ∀ middle, buffer.grow addresses.length = .ok middle → Holds middle addresses →
      addresses.length < middle.nframes →
      ∃ later, Holds later (addresses ++ [(memory frame).returnAddress]) ∧
        signalLoop memory stackBound (fuel + 1) frame addresses.length buffer =
          signalLoop memory stackBound fuel (memory frame).next (addresses.length + 1) later := by
    intro middle grown kept room
    obtain ⟨later, ran, held⟩ := holds_store kept room (memory frame).returnAddress
    refine ⟨later, held, ?_⟩
    rw [signalLoop, if_pos above, next, return_, grown, ok_bind, ran, ok_bind]
  by_cases full : addresses.length = buffer.nframes
  · obtain ⟨doubles, stuck⟩ := holds_double holds
    rw [Buffer.grow, if_pos full] at stored
    constructor
    · intro room
      obtain ⟨later, doubled, kept, larger⟩ := doubles (full ▸ room)
      exact stored later doubled kept (full ▸ larger)
    · intro large
      rw [signalLoop, if_pos above, Buffer.grow, if_pos full, stuck (by omega)]
      rfl
  · rw [Buffer.grow, if_neg full] at stored
    exact ⟨fun _ => stored buffer rfl holds (by omega), fun large => by omega⟩

theorem signalLoop_stop (below : ¬ stackBound < frame) (fuel depth : ℕ) (buffer : Buffer) :
    signalLoop memory stackBound (fuel + 1) frame depth buffer = .ok (depth, buffer) := by
  rw [signalLoop, if_neg below]

/-- A chain that ends is followed to its end, if the buffer can grow that far. -/
theorem signalLoop_visited {visited : List Addr} (chain : Visited memory stackBound frame visited)
    (holds : Holds buffer addresses) (room : addresses.length + visited.length ≤ 2 ^ 30) {fuel : ℕ}
    (enough : visited.length < fuel) :
    ∃ later, signalLoop memory stackBound fuel frame addresses.length buffer =
        .ok (addresses.length + visited.length, later) ∧
      Holds later (addresses ++ visited.map fun frame => (memory frame).returnAddress) := by
  induction chain generalizing buffer addresses fuel with
  | stop below =>
    obtain ⟨fuel, rfl⟩ := Nat.exists_eq_succ_of_ne_zero (Nat.ne_of_gt enough)
    exact ⟨buffer, signalLoop_stop below fuel _ _, by rwa [List.map_nil, List.append_nil]⟩
  | @step frame rest above _ inductionHypothesis =>
    obtain ⟨fuel, rfl⟩ := Nat.exists_eq_succ_of_ne_zero (Nat.ne_of_gt (Nat.zero_lt_of_lt enough))
    rw [List.length_cons] at room enough
    obtain ⟨next, kept, stepped⟩ := (signalLoop_step holds above fuel).1 (by omega)
    obtain ⟨later, ran, held⟩ := inductionHypothesis kept
      (by rw [List.length_append, List.length_singleton]; omega) (Nat.lt_of_succ_lt_succ enough)
    refine ⟨later, ?_, by rwa [List.append_assoc] at held⟩
    rw [stepped, List.length_cons]
    rw [List.length_append, List.length_singleton] at ran
    rw [ran, Nat.add_assoc, Nat.add_comm 1]

/-- A loop that ends has followed a chain that ends, and the buffer could grow that far. -/
theorem visited_of_signalLoop (holds : Holds buffer addresses) {fuel depth : ℕ} {later : Buffer}
    (fewer : addresses.length ≤ 2 ^ 30)
    (returned : signalLoop memory stackBound fuel frame addresses.length buffer = .ok (depth, later)) :
    ∃ visited, Visited memory stackBound frame visited ∧ addresses.length + visited.length ≤ 2 ^ 30 := by
  induction fuel generalizing frame buffer addresses with
  | zero => cases returned
  | succ fuel inductionHypothesis =>
    by_cases above : stackBound < frame
    · obtain ⟨steps, stuck⟩ := @signalLoop_step memory stackBound buffer addresses frame holds above fuel
      by_cases room : addresses.length < 2 ^ 30
      · obtain ⟨next, kept, stepped⟩ := steps room
        rw [stepped, ← @List.length_singleton _ (memory frame).returnAddress, ← List.length_append] at returned
        obtain ⟨visited, chain, short⟩ := inductionHypothesis kept
          (by rw [List.length_append, List.length_singleton]; exact room) returned
        refine ⟨frame :: visited, .step above chain, ?_⟩
        rw [List.length_append, List.length_singleton] at short
        rw [List.length_cons]
        omega
      · rw [stuck (Nat.le_of_not_lt room)] at returned
        cases returned
    · exact ⟨[], .stop above, fewer⟩

end

/-! ## The call -/

theorem holds_first (firstAddress : Addr) :
    ∃ buffer, (Buffer.alloca 64).store 0 firstAddress = .ok buffer ∧ Holds buffer [firstAddress] :=
  holds_store holds_empty (by decide) firstAddress

/-- The links come to a frame that is not above the bound after `n` of them. -/
theorem visited_iff {memory : FrameMemory} {stackBound frame : Addr} {bound : ℕ} :
    (∃ visited, Visited memory stackBound frame visited ∧ visited.length < bound) ↔
      ∃ n < bound, ¬ stackBound < (fun frame => (memory frame).next)^[n] frame := by
  constructor
  · rintro ⟨visited, chain, short⟩
    refine ⟨visited.length, short, ?_⟩
    clear short
    induction chain with
    | stop below => exact below
    | step _ _ inductionHypothesis => exact inductionHypothesis
  · rintro ⟨n, short, below⟩
    induction n generalizing frame bound with
    | zero => exact ⟨[], .stop below, short⟩
    | succ n inductionHypothesis =>
      by_cases above : stackBound < frame
      · have sooner : n < bound - 1 := by omega
        obtain ⟨visited, chain, fewer⟩ := inductionHypothesis sooner below
        exact ⟨frame :: visited, .step above chain, by rw [List.length_cons]; omega⟩
      · exact ⟨[], .stop above, Nat.zero_lt_of_lt short⟩

/-- The backtrace of a signal is whole exactly if fewer than 2 ^ 30 links lead to a frame
that is not above the stack bound. -/
theorem whole_iff (memory : FrameMemory) (firstAddress secondFrame stackBound : Addr) :
    Whole memory firstAddress secondFrame stackBound ↔
      ∃ n < 2 ^ 30, ¬ stackBound < (fun frame => (memory frame).next)^[n] secondFrame := by
  obtain ⟨buffer, first, holds⟩ := holds_first firstAddress
  rw [← visited_iff]
  constructor
  · rintro ⟨_, _, enough, whole⟩
    have returned := whole enough le_rfl
    rw [callWithSignalBacktrace, first, ok_bind] at returned
    obtain ⟨⟨depth, later⟩, looped, _⟩ := ok_of_bind returned
    obtain ⟨visited, chain, short⟩ := visited_of_signalLoop holds (by simp) looped
    exact ⟨visited, chain, by simpa [Nat.add_comm, Nat.succ_le_iff] using short⟩
  · rintro ⟨visited, chain, short⟩
    refine ⟨visited, chain, visited.length + 1, fun fuel enough => ?_⟩
    obtain ⟨later, looped, held⟩ := signalLoop_visited chain holds
      (by rw [List.length_singleton]; omega) (Nat.lt_of_succ_le enough)
    have count : ([firstAddress] ++ visited.map fun frame => (memory frame).returnAddress).length = 1 + visited.length := by
      simp [Nat.add_comm]
    have passed := holds_passed held
    rw [count, Nat.add_comm] at passed
    rw [List.length_singleton, Nat.add_comm] at looped
    rw [callWithSignalBacktrace, first, ok_bind, looped, ok_bind]
    dsimp only
    rw [passed, ok_bind, List.singleton_append]

/-- A frame above the bound that is its own next one is visited for ever. -/
theorem whole_cycle : ¬ Whole (fun frame => { next := frame, returnAddress := 4096 }) 4096 16 8 := by
  rintro ⟨visited, chain, ended⟩
  clear ended
  have above : (8 : Addr) < 16 := by decide
  revert above
  generalize (16 : Addr) = frame at chain
  intro above
  induction chain with
  | stop below => exact below above
  | step _ _ inductionHypothesis => exact inductionHypothesis above

end Memprof.StackFrame
