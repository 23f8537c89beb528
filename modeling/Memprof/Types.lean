import Memprof.Library.HashTable
import Memprof.Library.Store

/-! # Data of the profiler

The records of `memprof.h`, `process.h`, `memintercept.h` and the part of `server.c`
that the other modules work on.  `guint` is `UInt32`, `gpointer` and `size_t` are
`UInt64`; a C object is named by its position in the store it was allocated in, and
the main loop's event sources are the `watches` of the `World`.
-/

namespace Memprof

open Library

abbrev Addr := UInt64
abbrev Pid := UInt32
abbrev BlockId := ℕ
abbrev StashId := ℕ
abbrev ProcId := ℕ

/-- One end of a connected socket; every connection gets a new one. -/
abbrev Channel := ℕ

/-- The ways in which the C program stops being defined or stops. -/
inductive Fault where
  /-- `g_assert` or `g_assert_not_reached`. -/
  | assertion
  /-- `g_error`. -/
  | gError
  | nullDereference
  | useAfterFree
  | outOfBounds
  /-- A chain of links that dangles or never ends. -/
  | brokenChain
  /-- A variable that was never written is read. -/
  | uninitialized
  /-- An `int` that is incremented past its largest value. -/
  | signedOverflow
  | divisionByZero
  /-- A string that belongs to another is freed. -/
  | sharedFree
  /-- The model ran out of fuel; no execution of the program ends this way. -/
  | outOfFuel
deriving DecidableEq, Repr

/-- What the compiler takes a pointer, and with it a `size_t`, for. -/
inductive DataModel where
  | ilp32 | lp64
deriving DecidableEq, Repr

/-- `sizeof (void *)` -/
def DataModel.pointerSize : DataModel → ℕ
  | .ilp32 => 4
  | .lp64 => 8

def DataModel.bits (model : DataModel) : ℕ := 8 * model.pointerSize

/-! ## Messages -/

inductive MIOperation where
  | malloc | realloc | free | time | exec | new | fork | clone | exit
  /-- An `int` that no enumerator names. -/
  | other (value : UInt32) (unnamed : 9 ≤ value)
deriving DecidableEq

/-- A `MIInfo` read through its `any` and `alloc` members. -/
structure MIInfo where
  operation : MIOperation
  pid : Pid := 0
  seqno : UInt32 := 0
  oldPtr : Addr := 0
  newPtr : Addr := 0
  size : UInt64 := 0
  stackSize : UInt32 := 0
deriving DecidableEq

/-- A `MIInfo` read through its `fork` member. -/
structure MIInfoFork where
  operation : MIOperation
  pid : Pid := 0
  seqno : UInt32 := 0
  newPid : Pid := 0
deriving DecidableEq

/-! ## Stack traces -/

/-- A node of a `StackStash`; a link is the position of another node. -/
structure StackNode where
  address : Addr := 0
  total : UInt32 := 0
  size : BitVec 31 := 0
  toplevel : Bool := false
  parent : Option ℕ := none
  siblings : Option ℕ := none
  children : Option ℕ := none
  next : Option ℕ := none
deriving DecidableEq, Repr

structure StackStash where
  refCount : ℤ := 1
  nodes : List StackNode := []
  root : Option ℕ := none
  nodesByData : HashTable Addr ℕ := ∅

instance : RefCounted StackStash where
  refs := StackStash.refCount
  setRefs n stash := { stash with refCount := n }
  refs_setRefs _ _ := rfl
  setRefs_setRefs _ _ _ := rfl
  setRefs_refs _ := rfl

/-- A `StackNode *`: the stash that owns the node, and the node. -/
structure StackNodeRef where
  stash : StashId
  node : ℕ
deriving DecidableEq, Repr

abbrev StackPtr := Option StackNodeRef

/-! ## Blocks and processes -/

structure BlockFlags where
  marked : Bool := false
  isRoot : Bool := false
deriving DecidableEq, Repr

/-- `refcount` counts without a limit where the source has a `gint`, which wraps. -/
structure Block where
  flags : BlockFlags := {}
  addr : Addr
  size : UInt32
  stack : StackPtr
  refcount : ℤ := 1
deriving DecidableEq, Repr

/-- What a `gint` holds after that many `++` and `--`. -/
def Block.gint (block : Block) : ℤ := block.refcount.bmod (2 ^ 32)

instance : RefCounted Block where
  refs := Block.refcount
  setRefs n block := { block with refcount := n }
  refs_setRefs _ _ := rfl
  setRefs_setRefs _ _ _ := rfl
  setRefs_refs _ := rfl

@[simp] theorem refs_block (block : Block) : RefCounted.refs block = block.refcount := rfl

@[simp] theorem setRefs_block (n : ℤ) (block : Block) :
    RefCounted.setRefs n block = { block with refcount := n } := rfl

structure Command where
  info : MIInfo
  stack : StackPtr
deriving DecidableEq

/-- A block that `process_command` did not find, and the stack that it then wrote. -/
structure Dump where
  block : Addr
  stack : StackPtr
deriving DecidableEq

inductive MPProcessStatus where
  | init | starting | running | exiting | defunct | detached
deriving DecidableEq, Repr

abbrev BlockTable := HashTable Addr BlockId

/-- An `inputTag` of `0` is no watch. -/
structure MPProcess where
  status : MPProcessStatus := .init
  pid : Pid := 0
  cloneOf : Option ProcId := none
  parent : Option ProcId := none
  seqno : UInt32 := 0
  bytesUsed : UInt32 := 0
  nAllocations : UInt32 := 0
  inputTag : ℕ := 0
  inputChannel : Option Channel := none
  blockTable : Option BlockTable := none
  stackStash : Option StashId := none
  commandQueue : List Command := []
  /-- What `process_dump_stack` has been called for, in its order. -/
  dumps : List Dump := []
  followFork : Bool := false
  followExec : Bool := false

/-- An event source that runs `input_func` for a process. -/
structure Watch where
  tag : ℕ
  channel : Channel
  process : ProcId
deriving DecidableEq, Repr

/-- The profiler: the objects it has allocated, the server's `pid_table`, the main
loop's sources and the defaults that `init_process` gives every new window. -/
structure World where
  blocks : Store Block := {}
  stashes : Store StackStash := {}
  processes : List MPProcess := []
  pidTable : Option (HashTable Pid ProcId) := none
  watches : List Watch := []
  lastTag : ℕ := 0
  defaultFollowFork : Bool := false
  defaultFollowExec : Bool := false

namespace MPProcess

/-- The table as the lookups see it: a table not made yet is empty. -/
def table (process : MPProcess) : BlockTable := process.blockTable.getD ∅

/-- The blocks the table holds a reference to. -/
def held (process : MPProcess) : List BlockId := process.table.values

end MPProcess

namespace World

def process (world : World) (p : ProcId) : Except Fault MPProcess :=
  match world.processes[p]? with
  | some process => .ok process
  | none => .error .nullDereference

def setProcess (world : World) (p : ProcId) (process : MPProcess) : World :=
  { world with processes := world.processes.set p process }

theorem process_eq_ok {world : World} {p : ProcId} {process : MPProcess} :
    world.process p = .ok process ↔ world.processes[p]? = some process := by
  unfold World.process
  cases world.processes[p]? <;> simp

theorem mem_of_process {world : World} {p : ProcId} {process : MPProcess} (found : world.process p = .ok process) :
    process ∈ world.processes := List.mem_of_getElem? (process_eq_ok.mp found)

theorem process_setProcess_self {world : World} {p : ProcId} {process : MPProcess}
    (found : world.process p = .ok process) (process' : MPProcess) :
    (world.setProcess p process').process p = .ok process' := by
  rw [process_eq_ok] at found ⊢
  have inside := (List.getElem?_eq_some_iff.mp found).1
  simp [setProcess, inside]

@[simp] theorem process_setProcess_of_ne {world : World} {p q : ProcId} (other : q ≠ p) (process' : MPProcess) :
    (world.setProcess p process').process q = world.process q := by
  simp [World.process, setProcess, List.getElem?_set_ne (Ne.symm other)]

theorem process_of_set {world later : World} {p : ProcId} {process process' : MPProcess}
    (found : world.process p = .ok process) (processes : later.processes = world.processes.set p process') :
    later.process p = .ok process' := by
  rw [← process_setProcess_self found process', World.process, World.process, processes]
  rfl

theorem process_of_set_ne {world later : World} {p q : ProcId} {process' : MPProcess}
    (processes : later.processes = world.processes.set p process') (other : q ≠ p) :
    later.process q = world.process q := by
  have same : (world.setProcess p process').process q = world.process q := process_setProcess_of_ne other process'
  rw [← same, World.process, World.process, processes]
  rfl

theorem setProcess_self {world : World} {p : ProcId} {process : MPProcess} (found : world.process p = .ok process) :
    world.setProcess p process = world := by
  rw [process_eq_ok] at found
  obtain ⟨inside, rfl⟩ := List.getElem?_eq_some_iff.mp found
  simp [setProcess]

@[simp] theorem setProcess_setProcess (world : World) (p : ProcId) (process process' : MPProcess) :
    (world.setProcess p process).setProcess p process' = world.setProcess p process' := by
  simp [setProcess]

end World

end Memprof
