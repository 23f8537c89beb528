import Memprof.Concurrent
import Memprof.Descriptors
import Memprof.Environment
import Memprof.Library.Decimal
import Memprof.StackFrame

/-! # `speedintercept.c`

The library of time profiles: the settings that `mp_server_instrument` leaves for it, the timer it
starts, and a program with threads whose signals are sampled.  The model has the clock of an
`itimer`, which goes off once; the other timers may at any time.  The handler of `mi-perfctr.c`
samples in the same way; what that timer makes of the interval is left out.  A run ends for a
thread when it writes its `MI_EXIT`: one that a timer still interrupts while it waits for the
answer is left out.
-/

namespace Memprof.Speed

open Library Environment StackFrame Concurrent
open Descriptors (SpeedProfType)

/-! ## Settings -/

inductive MPProfileType where
  | memory | cycles | time
deriving DecidableEq, Repr

structure MPServer where
  profileType : MPProfileType := .memory
  /-- In microseconds. -/
  interval : ℤ := 10000
  socketPath : EnvString

def memprofInterval : EnvString := "_MEMPROF_INTERVAL=".toList

def memprofSpeedType : EnvString := "_MEMPROF_SPEED_TYPE=".toList

def instrumentEnviron (server : MPServer) (libLocation : EnvString) (environ : List EnvString) : List EnvString :=
  let environ := putenv (memprofSocket ++ server.socketPath) environ
  let environ := putenv ("LD_PRELOAD=".toList ++ libLocation) environ
  if server.profileType ≠ .memory then
    let environ := putenv (memprofInterval ++ Decimal.print server.interval) environ
    putenv (memprofSpeedType ++ (if server.profileType = .cycles then "cycles" else "time").toList) environ
  else environ

/-- The environments that come from the one a program was started with: tracing stops, the program
sets a variable of its own with `putenv`, or it executes another one with what it has.  A fork has
what its parent has.  There is no `unsetenv`, and no `execve` with an environment that the program
has made itself. -/
inductive Inherits (first : List EnvString) : List EnvString → Prop
  | start : Inherits first first
  | stopTracing {image : Image} (inherits : Inherits first image.environ) :
      Inherits first (Environment.stopTracing image).environ
  | putenv {environ : List EnvString} (string : EnvString) (inherits : Inherits first environ) (named : '=' ∈ string)
      (own : envName string ≠ memprofInterval ∧ envName string ≠ memprofSpeedType) :
      Inherits first (Environment.putenv string environ)
  | execve {image : Image} (inherits : Inherits first image.environ) :
      Inherits first (execEnvp image image.environ)

/-! ## Timers -/

/-- `while (1000000 / irq_rate > profile_interval && irq_rate < 8192) irq_rate *= 2` -/
def irqRateLoop (profileInterval : ℤ) : ℕ → ℕ → Except Fault ℕ
  | 0, _ => .error .outOfFuel
  | fuel + 1, irqRate =>
    if profileInterval < (1000000 / irqRate : ℕ) ∧ irqRate < 8192 then irqRateLoop profileInterval fuel (irqRate * 2)
    else .ok irqRate

def irqRate (profileInterval : ℤ) : Except Fault ℕ := irqRateLoop profileInterval 14 1

structure Timeval where
  sec : ℤ
  usec : ℤ
deriving DecidableEq, Repr

/-- `setitimer` for a timer that goes off once: the microseconds until then, unless the value is
invalid. -/
def setitimer (value : Timeval) : Option ℕ :=
  if 0 ≤ value.sec ∧ 0 ≤ value.usec ∧ value.usec < 1000000 then some (value.sec * 1000000 + value.usec).toNat
  else none

def itValue (profileInterval : ℤ) : Timeval where
  sec := profileInterval.tdiv 1000000
  usec := profileInterval.tmod 1000000

/-! ## The program -/

structure Signal where
  memory : FrameMemory
  eip : Addr
  ebp : Addr
  esp : Addr
  pid : Pid

structure Program (layout : Layout) (τ : Type) where
  profileInterval : ℤ
  profileType : SpeedProfType
  irqRate : Option ℕ := none
  /-- Until the `itimer` goes off; at `0` its signal is pending. -/
  timer : Option ℕ := none
  seqno : UInt32 := 0
  calls : τ → List (StackCall layout) := fun _ => []
  exit : τ → Option (Pid × UInt32) := fun _ => none

inductive Event (τ : Type) where
  | runs (usecs : ℕ)
  | signal (thread : τ) (signal : Signal)
  /-- A thread takes the number of its `MI_EXIT`; it writes it after its last sample. -/
  | exit (thread : τ) (pid : Pid)

namespace Event

variable {τ : Type}

def thread : Event τ → Option τ
  | .runs _ => none
  | .signal thread _ | .exit thread _ => some thread

def sampled : Event τ → Option Signal
  | .signal _ interrupt => some interrupt
  | .runs _ | .exit _ _ => none

def usecs : Event τ → ℕ
  | .runs usecs => usecs
  | .signal _ _ | .exit _ _ => 0

end Event

structure Timers where
  rtc : Bool
  perfctr : Bool

variable {layout : Layout} {τ : Type}

/-- `reset_itimer_timer`, and whether it has worked. -/
def resetItimerTimer (program : Program layout τ) : Program layout τ × Bool :=
  match setitimer (itValue program.profileInterval) with
  | some usecs => ({ program with timer := some usecs }, true)
  | none => (program, false)

def startItimerTimer (program : Program layout τ) : Option (Program layout τ) :=
  match resetItimerTimer program with
  | (program, true) => some program
  | (_, false) => none

def startRtcTimer (timers : Timers) (program : Program layout τ) : Except Fault (Option (Program layout τ)) :=
  if timers.rtc then do
    let irqRate ← irqRate program.profileInterval
    .ok (some { program with irqRate := some irqRate })
  else .ok none

/-- `profile_interval` of `mi_start` -/
def readInterval (environ : List EnvString) : ℤ :=
  let intervalString := (getenv memprofInterval environ).getD "10000".toList
  let (value, rest) := Decimal.strtol intervalString
  let profileInterval := Decimal.toInt value
  if intervalString = [] ∨ rest ≠ [] ∨ profileInterval ≤ 0 then 10000 else profileInterval

/-- `mi_start`; none is `_exit (1)`. -/
def miStart (timers : Timers) (environ : List EnvString) : Except Fault (Option (Program layout τ)) :=
  let profileInterval := readInterval environ
  let typeString := (getenv memprofSpeedType environ).getD "cycles".toList
  if typeString = "time".toList then do
    match ← startRtcTimer timers { profileInterval := profileInterval, profileType := .rtc } with
    | some program => .ok (some program)
    | none => .ok (startItimerTimer { profileInterval := profileInterval, profileType := .itimer })
  else if typeString = "cycles".toList then
    if timers.perfctr then .ok (some { profileInterval := profileInterval, profileType := .perfctr })
    else .ok (startItimerTimer { profileInterval := profileInterval, profileType := .itimer })
  else .ok none

/-! ## Samples -/

def sampleInfo : MIInfo := { operation := .time, oldPtr := 0, newPtr := 0, size := 1 }

def Signal.stackCall (signal : Signal) (frames : List Addr) (seqno : UInt32) : StackCall layout where
  object := Object.zero _
  info := sampleInfo
  frames := frames
  pid := signal.pid
  seqno := seqno

section Sampling

variable [DecidableEq τ]

/-- `sigprof_handler`; none where the walk over the frames does not end in time. -/
def sigprofHandler (fuel : ℕ) (program : Program layout τ) (thread : τ) (signal : Signal) :
    Option (Program layout τ) := do
  let (depth, frames) ← (callWithSignalBacktrace fuel signal.memory signal.eip signal.ebp signal.esp).toOption
  let call := signal.stackCall frames program.seqno
  let program := { program with
    -- A bogus count leaves the counter as it is.
    seqno := if (numberReport call.info depth call.pid call.seqno).isSome then program.seqno + 1 else program.seqno
    calls := Function.update program.calls thread (program.calls thread ++ [call]) }
  some (if program.profileType = .itimer then (resetItimerTimer program).1 else program)

/-- The signal of an `itimer` comes at some time after it has gone off. -/
def Program.step (fuel : ℕ) (program : Program layout τ) : Event τ → Option (Program layout τ)
  | .runs usecs => some { program with timer := program.timer.map (· - usecs) }
  | .signal thread signal =>
    if program.profileType = .itimer → program.timer = some 0 then sigprofHandler fuel program thread signal else none
  | .exit thread pid =>
    if program.exit thread = none then
      some { program with
        seqno := program.seqno + 1
        exit := Function.update program.exit thread (some (pid, program.seqno)) }
    else none

def Program.run (fuel : ℕ) (program : Program layout τ) (events : List (Event τ)) : Option (Program layout τ) :=
  events.foldlM (Program.step fuel) program

end Sampling

def Program.inlets (program : Program layout τ) (threads : List τ) (watch : τ → Watch)
    (results : τ → List SendResult) : List Inlet :=
  threads.map fun thread =>
    ⟨watch thread, (writeChannel layout (program.calls thread) (program.exit thread) (results thread)).1.sent⟩

end Memprof.Speed
