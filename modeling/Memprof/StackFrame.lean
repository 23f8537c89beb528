import Memprof.Types

/-! # `stack-frame.c`

`mi_call_with_signal_backtrace` up to the call of its callback, and the two implementations of
`mi_call_with_backtrace`.  The frames are read from memory that may hold anything, and
`alloca` always finds room.
-/

namespace Memprof.StackFrame

/-- `struct stack_frame_struct` -/
structure Frame where
  next : Addr
  returnAddress : Addr

/-- What is read at the address of a frame. -/
abbrev FrameMemory := Addr → Frame

def nextFrame (memory : FrameMemory) (fp : Addr) : Addr := if fp ≠ 0 then (memory fp).next else 0

def frameReturnAddress (memory : FrameMemory) (fp : Addr) : Addr := if fp ≠ 0 then (memory fp).returnAddress else 0

/-- `frames` and `nframes`; a word that was not written is nothing. -/
structure Buffer where
  nframes : ℕ
  frames : List (Option Addr)
  sized : frames.length = nframes

namespace Buffer

/-- `alloca (sizeof (void *) * nframes)` -/
def alloca (nframes : ℕ) : Buffer := ⟨nframes, List.replicate nframes none, List.length_replicate⟩

/-- `frames[depth] = ret` -/
def store (buffer : Buffer) (depth : ℕ) (ret : Addr) : Except Fault Buffer :=
  if depth < buffer.nframes then
    .ok ⟨buffer.nframes, buffer.frames.set depth (some ret), by rw [List.length_set, buffer.sized]⟩
  else .error .outOfBounds

/-- `memcpy` into a buffer of twice the size, which is an `int`. -/
def double (buffer : Buffer) : Except Fault Buffer :=
  if buffer.nframes * 2 < 2 ^ 31 then
    .ok {
      nframes := buffer.nframes * 2
      frames := buffer.frames ++ (alloca (buffer.nframes * 2)).frames.drop buffer.nframes
      sized := by
        rw [List.length_append, List.length_drop, (alloca _).sized, buffer.sized]
        show buffer.nframes + (buffer.nframes * 2 - buffer.nframes) = _
        omega }
  else .error .signedOverflow

/-- `if (depth == nframes)` -/
def grow (buffer : Buffer) (depth : ℕ) : Except Fault Buffer :=
  if depth = buffer.nframes then buffer.double else .ok buffer

/-- The words that are passed on; the callback reads `depth` of them. -/
def passed (buffer : Buffer) (depth : ℕ) : Except Fault (List Addr) :=
  (buffer.frames.take depth).mapM fun word => match word with
    | some address => .ok address
    | none => .error .uninitialized

end Buffer

/-- The loop of `mi_call_with_signal_backtrace`.  The depth is never more than `nframes`,
so that it does not overflow before `nframes` does. -/
def signalLoop (memory : FrameMemory) (stackBound : Addr) : ℕ → Addr → ℕ → Buffer → Except Fault (ℕ × Buffer)
  | 0, _, _, _ => .error .outOfFuel
  | fuel + 1, frame, depth, buffer =>
    if stackBound < frame then do
      let ret := frameReturnAddress memory frame
      let buffer ← buffer.grow depth
      let buffer ← buffer.store depth ret
      signalLoop memory stackBound fuel (nextFrame memory frame) (depth + 1) buffer
    else .ok (depth, buffer)

/-- The count and the addresses that the callback gets. -/
def callWithSignalBacktrace (fuel : ℕ) (memory : FrameMemory) (firstAddress secondFrame stackBound : Addr) :
    Except Fault (ℕ × List Addr) := do
  let buffer ← (Buffer.alloca 64).store 0 firstAddress
  let (depth, buffer) ← signalLoop memory stackBound fuel secondFrame 1 buffer
  let addresses ← buffer.passed depth
  .ok (depth, addresses)

/-! ## `mi_call_with_backtrace`, with `backtrace` -/

/-- `in_backtrace` of a thread, and what its callbacks were called with: the count, and the words
that they are to read. -/
structure Backtracing where
  inBacktrace : ℤ := 0
  called : List (ℤ × List Addr) := []

/-- `backtrace`, given the size of the buffer: what it stores, and the thread after it, since what
it calls may enter the library again. -/
abbrev Backtrace := Backtracing → ℕ → Backtracing × List Addr

namespace Buffer

def fill (buffer : Buffer) (addresses : List Addr) : Except Fault Buffer :=
  if fits : addresses.length ≤ buffer.nframes then
    .ok {
      nframes := buffer.nframes
      frames := addresses.map some ++ buffer.frames.drop addresses.length
      sized := by
        rw [List.length_append, List.length_map, List.length_drop, buffer.sized]
        omega }
  else .error .outOfBounds

/-- `buf + to_skip`, from where the callback reads `n` words if that is not negative. -/
def passedFrom (buffer : Buffer) (toSkip : ℕ) (n : ℤ) : Except Fault (List Addr) :=
  if n.toNat = 0 then .ok []
  else if toSkip + n.toNat ≤ buffer.nframes then
    ((buffer.frames.drop toSkip).take n.toNat).mapM fun word => match word with
      | some address => .ok address
      | none => .error .uninitialized
  else .error .outOfBounds

end Buffer

/-- `if (!(in_backtrace++)) count = backtrace (buf, bufsiz); in_backtrace--;` -/
def fillBacktrace (backtrace : Backtrace) (bufsiz count : ℕ) (thread : Backtracing) :
    Except Fault (Buffer × ℕ × Backtracing) :=
  let entered := { thread with inBacktrace := thread.inBacktrace + 1 }
  if thread.inBacktrace = 0 then do
    let (left, stored) := backtrace entered bufsiz
    let buf ← (Buffer.alloca bufsiz).fill stored
    .ok (buf, stored.length, { left with inBacktrace := left.inBacktrace - 1 })
  else .ok (.alloca bufsiz, count, { entered with inBacktrace := entered.inBacktrace - 1 })

/-- `again:`, with the call of the callback. -/
def backtraceAgain (backtrace : Backtrace) (toSkip : ℕ) : ℕ → ℕ → ℕ → Backtracing → Except Fault Backtracing
  | 0, _, _, _ => .error .outOfFuel
  | fuel + 1, bufsiz, count, thread => do
    let (buf, count, thread) ← fillBacktrace backtrace bufsiz count thread
    -- A full buffer may have left out frames; its size is an `int`.
    if count = bufsiz then
      if bufsiz * 2 < 2 ^ 31 then backtraceAgain backtrace toSkip fuel (bufsiz * 2) count thread
      else .error .signedOverflow
    else do
      let addresses ← buf.passedFrom toSkip (count - toSkip)
      .ok { thread with called := thread.called ++ [((count : ℤ) - toSkip, addresses)] }

def callWithBacktrace (backtrace : Backtrace) (fuel toSkip : ℕ) (thread : Backtracing) : Except Fault Backtracing :=
  backtraceAgain backtrace toSkip fuel 128 0 thread

/-! ## `mi_call_with_backtrace`, along the frames -/

def frameLoop (memory : FrameMemory) : ℕ → Addr → ℕ → Buffer → Except Fault (ℕ × Buffer)
  | 0, _, _, _ => .error .outOfFuel
  | fuel + 1, frame, depth, buffer =>
    if frame ≠ 0 then do
      let ret := frameReturnAddress memory frame
      let buffer ← buffer.grow depth
      let buffer ← buffer.store depth ret
      frameLoop memory fuel (nextFrame memory frame) (depth + 1) buffer
    else .ok (depth, buffer)

def callWithFrameBacktrace (fuel : ℕ) (memory : FrameMemory) (firstFrame : Addr) (toSkip : ℕ) (thread : Backtracing) :
    Except Fault Backtracing := do
  let (depth, buffer) ← frameLoop memory fuel firstFrame 0 (.alloca 64)
  let addresses ← buffer.passedFrom toSkip (depth - toSkip)
  .ok { thread with called := thread.called ++ [((depth : ℤ) - toSkip, addresses)] }

end Memprof.StackFrame
