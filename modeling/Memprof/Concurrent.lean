import Memprof.Pipeline

/-! # From the calls of several threads to one profile

A thread calls the real allocator, and later takes the next number of the shared counter and
writes its report on a channel of its own.  The main loop calls `input_func` for the channels
in any order; all of them belong to one process and its clones.
-/

namespace Memprof.Concurrent

open Library Memprof.Sequential Pipeline

section Writing

variable {layout : Layout} {τ : Type} [DecidableEq τ]

/-- A program with threads `τ`: what is allocated, the calls that are not reported yet in the
order in which they were made, the library's counter, and what each thread has written. -/
structure Program (layout : Layout) (τ : Type) where
  heap : Heap := fun _ => none
  pending : List (τ × Origin layout) := []
  seqno : UInt32 := 0
  calls : τ → List (StackCall layout) := fun _ => []
  exit : τ → Option (Pid × UInt32) := fun _ => none

inductive Event (layout : Layout) (τ : Type) where
  | call (thread : τ) (origin : Origin layout)
  | report (thread : τ)
  | exit (thread : τ) (pid : Pid)

namespace Event

def thread : Event layout τ → τ
  | .call thread _ | .report thread | .exit thread _ => thread

def origin : Event layout τ → Option (Origin layout)
  | .call _ origin => some origin
  | .report _ | .exit _ _ => none

end Event

namespace Program

/-- The call of `thread` that it has not reported. -/
def unreported (program : Program layout τ) (thread : τ) : Option (Origin layout) :=
  (program.pending.find? fun call => call.1 = thread).map Prod.snd

/-- The unreported calls made before the one of `thread`. -/
def earlier (program : Program layout τ) (thread : τ) : List (Origin layout) :=
  (program.pending.takeWhile fun call => call.1 ≠ thread).map Prod.snd

/-- The thread has reported what it has done, and has not ended. -/
def Runs (program : Program layout τ) (thread : τ) : Prop :=
  program.unreported thread = none ∧ program.exit thread = none

instance (program : Program layout τ) (thread : τ) : Decidable (program.Runs thread) :=
  decidable_of_iff ((program.unreported thread).isNone = true ∧ program.exit thread = none) <| by
    rw [Option.isNone_iff_eq_none]
    exact Iff.rfl

/-- One step; `none` where the program or its allocator cannot take it, or the report is
bogus. -/
def step (program : Program layout τ) : Event layout τ → Option (Program layout τ)
  | .call thread origin =>
    if program.Runs thread ∧ origin.call.Possible program.heap.live then
      some { program with heap := origin.effect program.heap, pending := program.pending ++ [(thread, origin)] }
    else none
  | .report thread => do
    let origin ← program.unreported thread
    if origin.frames.length ≤ 20000 then
      some { program with
        -- The increment of the counter orders the reports, not the calls.
        pending := program.pending.eraseP fun call => call.1 = thread
        seqno := program.seqno + 1
        calls := Function.update program.calls thread (program.calls thread ++ [origin.stackCall program.seqno]) }
    else none
  | .exit thread pid =>
    if program.Runs thread then
      some { program with
        seqno := program.seqno + 1
        exit := Function.update program.exit thread (some (pid, program.seqno)) }
    else none

def run (program : Program layout τ) (events : List (Event layout τ)) : Option (Program layout τ) :=
  events.foldlM step program

end Program

end Writing

/-! ## Reading -/

/-- A channel: its source, and what is still to be read. -/
structure Inlet where
  watch : Watch
  bytes : List UInt8

structure Profiler where
  world : World
  inlets : List Inlet

/-- What the threads have written on their channels. -/
def Program.inlets {layout : Layout} {τ : Type} (program : Program layout τ) (threads : List τ) (watch : τ → Watch)
    (results : τ → List SendResult) : List Inlet :=
  threads.map fun thread =>
    ⟨watch thread, (writeChannel layout (program.calls thread) (program.exit thread) (results thread)).1.sent⟩

/-- A call of `input_func` for one of the channels, with the buffer conditions after its rounds
and what the profiler does before. -/
structure Turn where
  before : World → World := id
  inlet : ℕ
  conditions : List Bool

/-- A channel that has come to its end has no source any more. -/
def dispatch (layout : Layout) (profiler : Profiler) (turn : Turn) : Except Fault Profiler :=
  let world := turn.before profiler.world
  match profiler.inlets[turn.inlet]? with
  | none => .ok { profiler with world := world }
  | some inlet => do
    let called ← inputFunc layout inlet.watch turn.conditions world inlet.bytes
    .ok {
      world := called.world
      inlets :=
        if called.stays then profiler.inlets.set turn.inlet { inlet with bytes := called.bytes }
        else profiler.inlets.eraseIdx turn.inlet }

def dispatchAll (layout : Layout) (profiler : Profiler) (turns : List Turn) : Except Fault Profiler :=
  turns.foldlM (dispatch layout) profiler

end Memprof.Concurrent
