import Mathlib.Data.Finset.Basic
import Memprof.Intercept

/-! # Threads of a traced program

An interposed call is two steps of its thread: the real allocator call, and later
`mi_write_stack`, whose increment of the shared counter orders the reports.  Threads
interleave freely.  The real allocator is any that returns addresses which are not live.
-/

namespace Memprof.Threads

variable {τ : Type} [DecidableEq τ]

/-- A program with threads `τ`: what is live in its allocator, the calls that are not
reported yet in the order in which they were made, the library's counter, and the
reports sent so far. -/
structure Program (τ : Type) where
  live : Finset Addr := ∅
  pending : List (τ × MIInfo) := []
  seqno : UInt32 := 0
  sent : List Command := []

inductive Event (τ : Type) where
  | malloc (thread : τ) (size : UInt64) (result : Addr)
  | realloc (thread : τ) (ptr : Addr) (size : UInt64) (result : Addr)
  | free (thread : τ) (ptr : Addr)
  | report (thread : τ) (pid : Pid) (nFrames : ℤ) (stack : StackPtr)

namespace Program

/-- The call of `thread` that it has not reported. -/
def unreported (program : Program τ) (thread : τ) : Option MIInfo :=
  (program.pending.find? fun call => call.1 = thread).map Prod.snd

/-- The unreported calls made before the one of `thread`. -/
def earlier (program : Program τ) (thread : τ) : List MIInfo :=
  (program.pending.takeWhile fun call => call.1 ≠ thread).map Prod.snd

def call (program : Program τ) (thread : τ) (live : Finset Addr) (info : MIInfo) : Program τ :=
  { program with live := live, pending := program.pending ++ [(thread, info)] }

/-- One step; `none` where the program or its allocator cannot take it.  A `realloc`
that returns `NULL` for a size of `0` has freed the block. -/
def step (program : Program τ) : Event τ → Option (Program τ)
  | .malloc thread size result =>
    -- A failed call returns `NULL` and is reported all the same.
    if program.unreported thread = none ∧ result ∉ program.live then
      let live := if result = 0 then program.live else insert result program.live
      some (program.call thread live (mallocInfo result size))
    else none
  | .realloc thread ptr size result =>
    if program.unreported thread = none ∧ (ptr = 0 ∨ ptr ∈ program.live) ∧ (result ≠ 0 ∨ size = 0) ∧
        result ∉ program.live.erase ptr then
      let released := program.live.erase ptr
      let live := if result = 0 then released else insert result released
      some (program.call thread live (reallocInfo ptr result size))
    else none
  | .free thread ptr =>
    if program.unreported thread = none ∧ (ptr = 0 ∨ ptr ∈ program.live) then
      some (program.call thread (program.live.erase ptr) (freeInfo ptr))
    else none
  | .report thread pid nFrames stack => do
    let info ← program.unreported thread
    let info ← numberReport info nFrames pid program.seqno
    some { program with
      -- The increment of the counter orders the reports, not the calls.
      pending := program.pending.eraseP fun call => call.1 = thread
      seqno := program.seqno + 1
      sent := program.sent ++ [⟨info, stack⟩] }

def run (program : Program τ) (events : List (Event τ)) : Option (Program τ) := events.foldlM step program

end Program

end Memprof.Threads
