import Memprof.Intercept
import Memprof.Server

/-! # A traced program that makes clones

`clone_thunk` only notes the pid of the parent, the clone connects with its first report
(`find_thread`), and the server reads that connection and the ends of the channels in any
order.  Every thread has a pid of its own.
-/

namespace Memprof.Cloning

open Library

/-- A thread: its `pid` and `clone_pid`, whether `new_process` waits for the server's answer
and whether the thread has ended; `process` is what the server has made for it. -/
structure Thread where
  pid : Pid
  clonePid : Option Pid := none
  connecting : Bool := false
  exited : Bool := false
  process : Option ProcId := none
deriving DecidableEq

/-- The server and the threads of one program. -/
structure System where
  world : World
  threads : List Thread

inductive Event where
  /-- Thread `t` returns from `__clone` with a new thread. -/
  | clone (t : ℕ) (pid : Pid)
  /-- The first report of thread `t`: its connection is opened. -/
  | report (t : ℕ)
  /-- `control_func` handles the connection of thread `t`. -/
  | accept (t : ℕ) (channel : Channel)
  | exit (t : ℕ)
  /-- `input_func` handles the end of the channel of thread `t`. -/
  | eof (t : ℕ) (watch : Watch)
  /-- Another input of the main loop. -/
  | serve (event : World.Event)

namespace System

def thread (system : System) (t : ℕ) : Except Fault Thread :=
  match system.threads[t]? with
  | some thread => .ok thread
  | none => .error .nullDereference

def setThread (system : System) (t : ℕ) (thread : Thread) : System :=
  { system with threads := system.threads.set t thread }

/-- What `find_thread` sends for a thread with a `clone_pid`. -/
def cloneInfo (thread : Thread) : MIInfoFork := newProcessInfo thread.pid (thread.clonePid.getD 0) .clone

def perform (system : System) : Event → Except Fault System
  | .clone t pid => do
    let parent ← system.thread t
    -- `__clone` hands the pid of its caller to `clone_thunk`.
    .ok { system with threads := system.threads ++ [{ pid := pid, clonePid := some parent.pid }] }
  | .report t => do
    let thread ← system.thread t
    .ok (system.setThread t { thread with connecting := true })
  | .accept t channel => do
    let thread ← system.thread t
    -- An answer is read in any case, and `clone_pid` cleared.
    let (world, _) ← system.world.controlFunc channel (cloneInfo thread)
    .ok ({ system with world := world }.setThread t { thread with
      clonePid := none, connecting := false, process := some system.world.processes.length })
  | .exit t => do
    let thread ← system.thread t
    .ok (system.setThread t { thread with exited := true })
  | .eof _ watch => do
    let world ← system.world.inputEof watch
    .ok { system with world := world }
  | .serve event => do
    let world ← system.world.handle event
    .ok { system with world := world }

/-- When an event can happen.  A thread is registered before it makes a clone, new pids are
not in use, a thread that waits for an answer does not end, and its channel ends with it;
other inputs do not end the channels of processes with the pid of a thread. -/
def Enabled (system : System) : Event → Prop
  | .clone t pid => ∃ parent, system.thread t = .ok parent ∧ parent.clonePid = none ∧ parent.exited = false ∧
      pid ≠ 0 ∧ ∀ thread ∈ system.threads, thread.pid ≠ pid
  | .report t => ∃ thread, system.thread t = .ok thread ∧ thread.clonePid ≠ none ∧ thread.exited = false
  | .accept t channel => ∃ thread, system.thread t = .ok thread ∧ thread.connecting = true ∧
      thread.clonePid ≠ none ∧ thread.exited = false ∧ system.world.Fresh channel
  | .exit t => ∃ thread, system.thread t = .ok thread ∧ thread.connecting = false ∧ thread.exited = false
  | .eof t watch => ∃ thread, system.thread t = .ok thread ∧ thread.exited = true ∧
      thread.process = some watch.process ∧ watch ∈ system.world.watches
  | .serve event => system.world.Admissible event ∧
      ∀ watch, event = .eof watch → ∀ process, system.world.process watch.process = .ok process →
        ∀ thread ∈ system.threads, thread.pid ≠ process.pid

theorem exists_thread_iff {system : System} {t : ℕ} {property : Thread → Prop} :
    (∃ thread ∈ (system.thread t).toOption, property thread) ↔
      ∃ thread, system.thread t = .ok thread ∧ property thread := by
  cases system.thread t with
  | ok thread => simp [Except.toOption]
  | error fault => simp [Except.toOption]

instance (system : System) (event : Event) : Decidable (system.Enabled event) :=
  match event with
  | .clone _ _ | .report _ | .accept _ _ | .exit _ | .eof _ _ => decidable_of_iff _ exists_thread_iff
  | .serve (.eof watch) =>
    decidable_of_iff (system.world.Admissible (.eof watch) ∧
        ∀ process ∈ system.world.processes[watch.process]?, ∀ thread ∈ system.threads, thread.pid ≠ process.pid) <|
      and_congr_right fun _ => by
        constructor
        · intro foreign other same process found
          cases same
          exact foreign process (World.process_eq_ok.mp found)
        · intro foreign process found
          exact foreign watch rfl process (World.process_eq_ok.mpr found)
  | .serve (.run pid) => decidable_of_iff (system.world.Admissible (.run pid)) (by simp [Enabled])
  | .serve (.startInput p) => decidable_of_iff (system.world.Admissible (.startInput p)) (by simp [Enabled])
  | .serve (.stopInput p) => decidable_of_iff (system.world.Admissible (.stopInput p)) (by simp [Enabled])
  | .serve (.clearInput p) => decidable_of_iff (system.world.Admissible (.clearInput p)) (by simp [Enabled])
  | .serve (.connect channel info) =>
    decidable_of_iff (system.world.Admissible (.connect channel info)) (by simp [Enabled])
  | .serve (.message watch info frames) =>
    decidable_of_iff (system.world.Admissible (.message watch info frames)) (by simp [Enabled])

end System

/-- The program that the server knows as process `p` with `pid`, before it makes clones. -/
def start (world : World) (p : ProcId) (pid : Pid) : System where
  world := world
  threads := [{ pid := pid, process := some p }]

def run (world : World) (p : ProcId) (pid : Pid) (events : List Event) : Except Fault System :=
  events.foldlM System.perform (start world p pid)

/-- Every event of the run is one that can happen. -/
def Possible (world : World) (p : ProcId) (pid : Pid) (events : List Event) : Prop :=
  ∀ earlier event reached, earlier ++ [event] <+: events → run world p pid earlier = .ok reached →
    reached.Enabled event

instance (world : World) (p : ProcId) (pid : Pid) (events : List Event) : Decidable (Possible world p pid events) :=
  decidable_of_iff _ forall_steps_iff

end Memprof.Cloning
