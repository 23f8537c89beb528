import Memprof.Tracing

/-! # The sockets of a traced program

The calls of `Tracing` once more, for all the threads that run in one memory and with a
log of what they do with descriptors.  A thread belongs to the task that runs in it: one
that calls `vfork` waits while a task of its own, with descriptors of its own, runs in its
`ThreadInfo`.  The handler of the speed library calls `mi_write_stack` without a look at
`tracing`.
-/

namespace Memprof.Descriptors

open Tracing (ThreadInfo Connection)

abbrev LivePid := { pid : Pid // pid ≠ 0 }

inductive Action where
  | connect | write | read | close
  /-- `find_thread` returns the record that has the descriptor. -/
  | found
deriving DecidableEq

structure Entry where
  task : ℕ
  action : Action
  fd : ℤ
deriving DecidableEq

/-- What a call of the library works on; the log has its latest entry first. -/
structure Running where
  task : ℕ
  tracing : Bool
  info : ThreadInfo
  log : List Entry
deriving DecidableEq

namespace Running

def note (running : Running) (action : Action) (fd : ℤ) : Running :=
  { running with log := ⟨running.task, action, fd⟩ :: running.log }

def stopTracing (running : Running) (fd : ℤ) : Running := { running with tracing := false }.note .close fd

/-- `allocate_thread`, where it is called, and `thread->outfd = outfd`. -/
def setOutfd (running : Running) (allocate : Option LivePid) (outfd : ℤ) : Running :=
  match allocate with
  | some pid => { running with info := { pid := pid, outfd := outfd, clonePid := 0 } }
  | none => { running with info := { running.info with outfd := outfd } }

def newProcess (running : Running) (allocate : Option LivePid) : Connection → Except Running Running
  | .failed => .error { running with tracing := false }
  | .unsent outfd =>
    let running := ((running.setOutfd allocate outfd).note .connect outfd).note .write outfd
    -- `count = 0` after the failed write is taken for a missing answer.
    .ok ((running.stopTracing outfd).stopTracing outfd)
  | .answered outfd response =>
    let running := (((running.setOutfd allocate outfd).note .connect outfd).note .write outfd).note .read outfd
    .ok (if response = some true then running else running.stopTracing outfd)

/-- With a record for each thread `thread` is never `NULL`, and the branch for a thread that
is not found is never taken. -/
def findThread (running : Running) (registration : Connection) : Except Running Running :=
  if running.info.clonePid ≠ 0 then do
    let running ← running.newProcess none registration
    .ok ({ running with info := { running.info with clonePid := 0 } }.note .found running.info.outfd)
  else .ok (running.note .found running.info.outfd)

/-- The two `mi_write` of `mi_write_stack`; there is nothing to write for an empty stack. -/
def writeReport (running : Running) (nFrames : ℤ) (infoSent framesSent : Bool) : Running :=
  let outfd := running.info.outfd
  let running := running.note .write outfd
  if ¬ infoSent then running.stopTracing outfd
  else if nFrames = 0 then running
  else
    let running := running.note .write outfd
    if framesSent then running else running.stopTracing outfd

def miWriteStack (running : Running) (nFrames : ℤ) (registration : Connection) (infoSent framesSent : Bool) :
    Except Running Running :=
  if nFrames < 0 ∨ 20000 < nFrames then .ok running
  else do
    let running ← running.findThread registration
    .ok (running.writeReport nFrames infoSent framesSent)

/-- The end of `exit_wait`, and `tracing = 0;`. -/
def takeLeave (running : Running) (sent : Bool) : Running :=
  let outfd := running.info.outfd
  let running := running.note .write outfd
  let running := if sent then running.note .read outfd else running
  { running.note .close outfd with tracing := false, info := { running.info with pid := 0 } }

def exitWait (running : Running) (registration : Connection) (sent : Bool) : Except Running Running := do
  let running ← running.findThread registration
  .ok (running.takeLeave sent)

end Running

/-- A thread of control with descriptors: `unregistered` says that `new_process` was never
called for it nor put off, `vforked` that one was called for a child in its record. -/
structure Task where
  id : ℕ
  pid : LivePid
  unregistered : Bool := false
  vforked : Bool := false
deriving DecidableEq

/-- `busy` between the look at `tracing` and the end of the call, `interrupted` if the
handler runs then; the tasks that wait for `task` come with the last one first. -/
structure Thread where
  info : ThreadInfo
  task : Task
  waiting : List Task := []
  busy : Bool := false
  interrupted : Bool := false
deriving DecidableEq

inductive SpeedProfType where
  | rtc | perfctr | itimer
deriving DecidableEq

structure Program where
  tracing : Bool := true
  timer : Option SpeedProfType := none
  threads : List Thread := []
  tasks : ℕ := 0
  log : List Entry := []
deriving DecidableEq

/-- Why a step leaves no program: there was no such call to make, or the process ends in it. -/
inductive Halt where
  | absent | ended
deriving DecidableEq

inductive Event where
  /-- The constructor, or the return of `fork` in a child, with the memory as it is then.
  Nothing connects where `tracing` was seen to be off. -/
  | start (pid : LivePid) (inherited : ThreadInfo) (tracing : Bool) (connection : Option Connection)
      (timer : Option SpeedProfType)
  | enter (i : ℕ)
  | report (i : ℕ) (nFrames : ℤ) (registration : Connection) (infoSent framesSent : Bool)
  | sample (i : ℕ) (nFrames : ℤ) (registration : Connection) (infoSent framesSent : Bool)
  | exit (i : ℕ) (registration : Connection) (sent : Bool)
  | fork (i : ℕ) (registration : Connection)
  | vfork (i : ℕ) (registration : Connection) (childPid : LivePid) (connection : Connection)
  | leave (i : ℕ)
  | clone (i : ℕ) (registration : Connection) (childPid : LivePid)
  /-- A thread that is not made by `__clone` of the library. -/
  | spawn (pid : LivePid)
deriving DecidableEq

namespace Program

def running (program : Program) (thread : Thread) : Running :=
  { task := thread.task.id, tracing := program.tracing, info := thread.info, log := program.log }

def resume (program : Program) (i : ℕ) (thread : Thread) (running : Running) : Program :=
  { program with
    tracing := running.tracing, log := running.log,
    threads := program.threads.set i { thread with info := running.info } }

def call (program : Program) (i : ℕ) (thread : Thread) (outcome : Except Running Running) : Except Halt Program :=
  match outcome with
  | .ok running => .ok (program.resume i thread running)
  | .error _ => .error .ended

def thread (program : Program) (i : ℕ) : Except Halt Thread :=
  match program.threads[i]? with
  | some thread => .ok thread
  | none => .error .absent

def entered (program : Program) (i : ℕ) : Except Halt Thread := do
  let thread ← program.thread i
  if thread.busy then .ok thread else .error .absent

/-- Thread `i`, where a signal can come: a timer is not inherited by a child. -/
def signalled (program : Program) (i : ℕ) : Except Halt Thread := do
  let thread ← program.thread i
  if program.timer ≠ none ∧ thread.waiting = [] then .ok thread else .error .absent

/-- Only the RTC timer is ever stopped. -/
def miStop (program : Program) : Program :=
  if program.timer = some .rtc then { program with timer := none } else program

/-- The child of `vfork` in the record of `thread`.  A child that cannot connect ends before
it has touched the record. -/
def vforkChild (program : Program) (i : ℕ) (thread : Thread) (childPid : LivePid) (connection : Connection) : Program :=
  let running := { program.running thread with task := program.tasks }
  match running.newProcess (some childPid) connection with
  | .error running => program.resume i thread running
  | .ok running =>
    { program.resume i
        { thread with
          task := { id := program.tasks, pid := childPid },
          waiting := { thread.task with vforked := true } :: thread.waiting } running with
      tasks := program.tasks + 1 }

def addThread (program : Program) (pid : LivePid) (info : ThreadInfo) (unregistered : Bool) : Program :=
  { program with
    threads := program.threads ++
      [{ info := info, task := { id := program.tasks, pid := pid, unregistered := unregistered } }],
    tasks := program.tasks + 1 }

def perform (program : Program) : Event → Except Halt Program
  | .start pid inherited tracing connection timer =>
    if program.threads ≠ [] then .error .absent
    else
      match connection with
      | none => .ok { program.addThread pid inherited (inherited.clonePid = 0) with tracing := false, timer := timer }
      | some connection =>
        let running : Running := { task := program.tasks, tracing := tracing, info := inherited, log := program.log }
        match running.newProcess (some pid) connection with
        | .ok running =>
          .ok { program.addThread pid running.info false with
                tracing := running.tracing, log := running.log, timer := timer }
        | .error _ => .error .ended
  | .enter i => do
    let thread ← program.thread i
    .ok { program with threads := program.threads.set i { thread with busy := program.tracing, interrupted := false } }
  | .report i nFrames registration infoSent framesSent => do
    let thread ← program.entered i
    program.call i { thread with busy := false }
      ((program.running thread).miWriteStack nFrames registration infoSent framesSent)
  | .sample i nFrames registration infoSent framesSent => do
    let thread ← program.signalled i
    program.call i { thread with interrupted := true }
      ((program.running thread).miWriteStack nFrames registration infoSent framesSent)
  | .exit i registration sent => do
    let thread ← program.entered i
    program.miStop.call i { thread with busy := false } ((program.running thread).exitWait registration sent)
  | .fork i registration => do
    let thread ← program.entered i
    -- The child has a copy of the memory.
    program.call i { thread with busy := false } ((program.running thread).findThread registration)
  | .vfork i registration childPid connection => do
    let thread ← program.entered i
    let program ← program.call i { thread with busy := false } ((program.running thread).findThread registration)
    let thread ← program.thread i
    .ok (program.vforkChild i thread childPid connection)
  | .leave i => do
    let thread ← program.thread i
    match thread.waiting with
    | [] => .error .absent
    | task :: waiting =>
      .ok { program with threads := program.threads.set i { thread with task := task, waiting := waiting, busy := false } }
  | .clone i registration childPid => do
    let thread ← program.entered i
    let program ← program.call i { thread with busy := false } ((program.running thread).findThread registration)
    .ok (program.addThread childPid { pid := childPid, clonePid := thread.task.pid } false)
  | .spawn pid =>
    if program.threads = [] then .error .absent
    else .ok (program.addThread pid {} true)

def run (events : List Event) : Except Halt Program := events.foldlM perform {}

end Program

end Memprof.Descriptors
