import Memprof.Intercept

/-! # `intercept.c`: the state of the library

What the library keeps in the memory of a traced process, with one thread-local record for
each thread, and the calls that change it.  A process that `fork` makes has a copy of the
memory, one that `vfork` makes runs in the memory of its parent, which waits, and in the
parent's thread.  File descriptors are a process's own either way; what is sent on them is
the subject of `Intercept` and `Wire`.
-/

namespace Memprof.Tracing

/-- `global_per_thread` of the thread that runs. -/
structure ThreadInfo where
  pid : Pid := 0
  outfd : ℤ := 0
  /-- See `clone_thunk`: the parent of a thread that has not connected yet, else `0`. -/
  clonePid : Pid := 0
deriving DecidableEq

/-- `tracing`, `seqno` and the thread, and whether `_MEMPROF_SOCKET` names a socket. -/
structure Memory where
  tracing : Bool := true
  seqno : UInt32 := 0
  thread : ThreadInfo := {}
  memprofSocket : Bool := true
deriving DecidableEq

/-- How a connection goes: `socket`, `connect` or `fcntl` fails; the message cannot be
written; or the server gives an answer, which may be none. -/
inductive Connection where
  | failed
  | unsent (outfd : ℤ)
  | answered (outfd : ℤ) (response : Option Bool)
deriving DecidableEq

/-- The memory that a call leaves, whether it returns or ends the process. -/
def left : Except Memory Memory → Memory
  | .ok memory => memory
  | .error memory => memory

/-- `close` and `putenv` included. -/
def stopTracing (memory : Memory) : Memory := { memory with tracing := false, memprofSocket := false }

/-- `allocate_thread`, where it is called, and `thread->outfd = outfd`. -/
def setOutfd (memory : Memory) (allocate : Option Pid) (outfd : ℤ) : Memory :=
  match allocate with
  | some pid => { memory with thread := { memory.thread with pid := pid, clonePid := 0, outfd := outfd } }
  | none => { memory with thread := { memory.thread with outfd := outfd } }

/-- `new_process`, for the thread that runs or, with `allocate`, for `NULL`.  A connection
that fails ends the process. -/
def newProcess (memory : Memory) (allocate : Option Pid) : Connection → Except Memory Memory
  -- `new_process` ends the process with `_exit`.
  | .failed => .error { memory with tracing := false }
  -- `stop_tracing` for the failed write, and again for the answer that is missing.
  | .unsent outfd => .ok (stopTracing (stopTracing (setOutfd memory allocate outfd)))
  | .answered outfd response =>
    if response = some true then .ok (setOutfd memory allocate outfd)
    else .ok (stopTracing (setOutfd memory allocate outfd))

/-- A thread with a `clone_pid` connects, as `registration` goes. -/
def findThread (memory : Memory) (registration : Connection) : Except Memory Memory :=
  if memory.thread.clonePid ≠ 0 then do
    let memory ← newProcess memory none registration
    .ok { memory with thread := { memory.thread with clonePid := 0 } }
  else .ok memory

/-- `mi_write_stack`; `sent` says whether both writes succeed. -/
def miWriteStack (memory : Memory) (pid : Pid) (info : MIInfo) (nFrames : ℤ) (registration : Connection) (sent : Bool) :
    Except Memory Memory :=
  match numberReport info nFrames pid memory.seqno with
  | none => .ok memory
  | some _ => do
    -- The number is taken before the thread connects and is lost with a failed write.
    let memory ← findThread { memory with seqno := memory.seqno + 1 } registration
    .ok (if sent then memory else stopTracing memory)

/-- The thread is given up, whatever the server answers. -/
def exitWait (memory : Memory) (registration : Connection) : Except Memory Memory := do
  let memory ← findThread { memory with seqno := memory.seqno + 1 } registration
  .ok { memory with thread := { memory.thread with pid := 0 } }

/-- What a process and the processes it makes with `vfork` do in one memory, one after the
other, until they exec or exit: interposed calls of the allocator, an exit that the library
sees, and the first step of a process made by `vfork`. -/
inductive Call where
  | report (pid : Pid) (info : MIInfo) (nFrames : ℤ) (registration : Connection) (sent : Bool)
  | exit (registration : Connection)
  | vforked (childPid : Pid) (registration connection : Connection)

/-- Each of them looks at `tracing` first. -/
def Call.perform (memory : Memory) (call : Call) : Memory :=
  if memory.tracing then
    match call with
    | .report pid info nFrames registration sent => left (miWriteStack memory pid info nFrames registration sent)
    -- `tracing = 0;` comes after `exit_wait`, which may not return.
    | .exit registration => { left (exitWait memory registration) with tracing := false }
    | .vforked childPid registration connection =>
      left (findThread memory registration >>= fun memory => newProcess memory (some childPid) connection)
  else memory

/-- The memories of the parent and of the child when the child has ended. -/
def fork (memory : Memory) (childPid : Pid) (registration connection : Connection) (calls : List Call) :
    Except Memory (Memory × Memory) :=
  if memory.tracing then do
    let memory ← findThread memory registration
    -- The child works on its copy.
    .ok (memory, calls.foldl Call.perform (left (newProcess memory (some childPid) connection)))
  else .ok (memory, calls.foldl Call.perform memory)

def vfork (memory : Memory) (childPid : Pid) (registration connection : Connection) (calls : List Call) :
    Except Memory Memory :=
  if memory.tracing then do
    let memory ← findThread memory registration
    -- There is one memory, and the parent gets it back as the child leaves it.
    .ok (calls.foldl Call.perform (left (newProcess memory (some childPid) connection)))
  else .ok (calls.foldl Call.perform memory)

inductive ForkKind where
  | fork | vfork
deriving DecidableEq

/-- The parent's memory when the call has returned and the child is done. -/
def ForkKind.parentMemory (kind : ForkKind) (memory : Memory) (childPid : Pid) (registration connection : Connection)
    (calls : List Call) : Except Memory Memory :=
  match kind with
  | .fork => (Tracing.fork memory childPid registration connection calls).map Prod.fst
  | .vfork => Tracing.vfork memory childPid registration connection calls

end Memprof.Tracing
