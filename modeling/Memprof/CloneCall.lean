import Memprof.Types

/-! # `intercept.c`: a call of `__clone`

The caller, which waits on its own stack until `clone_thunk` has run, and the child, which
works on that stack or on a copy of it.  The child may run before, while or after the
underlying `clone` returns to the caller.
-/

namespace Memprof.CloneCall

def cloneVm : UInt32 := 0x100

def cloneVfork : UInt32 := 0x4000

/-- A call, and what the underlying `clone` comes to: the pid of a child, or nothing where
it returns -1. -/
structure Call where
  tracing : Bool
  fn : Addr
  arg : Addr
  flags : UInt32
  /-- `getpid` in the caller. -/
  pid : Pid
  outcome : Option Pid

/-- What the underlying `clone` returns. -/
def Call.result (call : Call) : ℤ :=
  match call.outcome with
  | some child => child.toNat
  | none => -1

def Call.shares (call : Call) : Prop := call.flags &&& cloneVm ≠ 0

def Call.suspends (call : Call) : Prop := call.flags &&& cloneVfork ≠ 0

instance (call : Call) : Decidable call.shares := inferInstanceAs (Decidable (_ ≠ _))

structure CloneData where
  started : Bool := false
  fn : Addr
  arg : Addr
  pid : Pid
deriving DecidableEq

inductive Caller where
  | calling
  /-- The child has been made, the underlying `clone` has not returned. -/
  | cloning
  /-- `while (!data.started)` -/
  | waiting (pid : ℤ)
  | returned (pid : ℤ)
deriving DecidableEq

inductive Control where
  /-- The child begins with `clone_thunk`, and after `allocate_thread` it sets `started`. -/
  | thunk
  | allocated
  /-- `(*fn) (sub_arg)` -/
  | running (fn arg : Addr)
  | ended
deriving DecidableEq

/-- The child with its `thread->clone_pid`; its memory is a copy of the `CloneData`, or
nothing if it shares that of the caller. -/
structure Child where
  control : Control
  copy : Option CloneData
  clonePid : Pid := 0

structure State where
  caller : Caller := .calling
  data : CloneData
  child : Option Child := none

def start (call : Call) : State where
  data := { fn := call.fn, arg := call.arg, pid := call.pid }

/-- Where the caller is when the underlying `clone` has returned. -/
def Call.back (call : Call) : Caller := if call.tracing then .waiting call.result else .returned call.result

/-- The child as the kernel makes it. -/
def Call.newChild (call : Call) (data : CloneData) : Child where
  control := if call.tracing then .thunk else .running call.fn call.arg
  copy := if call.shares then none else some data

/-- The caller looks at `data.started` once. -/
def poll (state : State) : State :=
  match state.caller with
  | .waiting pid => if state.data.started then { state with caller := .returned pid } else state
  | .calling | .cloning | .returned _ => state

inductive Step (call : Call) : State → State → Prop
  | made {state : State} (calling : state.caller = .calling) (succeeds : call.outcome ≠ none) :
    Step call state { state with caller := .cloning, child := some (call.newChild state.data) }
  | failed {state : State} (calling : state.caller = .calling) (fails : call.outcome = none) :
    Step call state { state with caller := call.back }
  /-- With `CLONE_VFORK` the caller goes on when the child has ended. -/
  | back {state : State} (cloning : state.caller = .cloning)
    (released : call.suspends → ∀ child ∈ state.child, child.control = .ended) :
    Step call state { state with caller := call.back }
  | poll {state : State} : Step call state (poll state)
  | allocate {state : State} {child : Child} (here : state.child = some child) (control : child.control = .thunk) :
    Step call state { state with child := some { child with
      control := .allocated, clonePid := (child.copy.getD state.data).pid } }
  | shared {state : State} {child : Child} (here : state.child = some child) (control : child.control = .allocated)
    (common : child.copy = none) :
    Step call state { state with
      data := { state.data with started := true }
      child := some { child with control := .running state.data.fn state.data.arg } }
  | copied {state : State} {child : Child} {data : CloneData} (here : state.child = some child)
    (control : child.control = .allocated) (own : child.copy = some data) :
    Step call state { state with child := some { child with
      control := .running data.fn data.arg, copy := some { data with started := true } } }
  | ended {state : State} {child : Child} {fn arg : Addr} (here : state.child = some child)
    (control : child.control = .running fn arg) :
    Step call state { state with child := some { child with control := .ended } }

inductive Reachable (call : Call) : State → Prop
  | start : Reachable call (start call)
  | step {state later : State} (reachable : Reachable call state) (stepped : Step call state later) :
    Reachable call later

/-- The underlying `clone` has returned. -/
def Returned (state : State) : Prop := ∃ pid, state.caller = .waiting pid ∨ state.caller = .returned pid

/-- The child has done what it does before it calls `fn`. -/
def Child.RanThunk (child : Child) : Prop := child.control ≠ .thunk ∧ child.control ≠ .allocated

end Memprof.CloneCall
