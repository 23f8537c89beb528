import Mathlib.Logic.Relation
import Memprof.Library.Outcome
import Memprof.Process
import Memprof.StackStash

/-! # `server.c` and the input of a process

`control_func` for one connection, and `input_func` for one message or for the end of
the channel; how the messages are cut out of the bytes read is the subject of `Wire`.
Of the user interface only `process_created_cb` is here, which gives a new process the
default flags.
-/

namespace Memprof

open Library

namespace World

/-! ## The table of current processes -/

def mpServerFindProcess (world : World) (pid : Pid) : Option ProcId :=
  match world.pidTable with
  | some table => table.lookup pid
  | none => none

def mpServerAddProcess (world : World) (p : ProcId) : Except Fault World := do
  let process ← world.process p
  .ok { world with pidTable := some ((world.pidTable.getD ∅).insert process.pid p) }

/-- With `--follow-exec` another process may have taken the place of `p`. -/
def mpServerRemoveProcess (world : World) (p : ProcId) : Except Fault World := do
  let process ← world.process p
  match world.pidTable with
  | none => .ok world
  | some table =>
    if table.lookup process.pid = some p then .ok { world with pidTable := some (table.erase process.pid) }
    else .ok world

/-- The signal `process_created`: `init_process` sets the flags. -/
def mpServerProcessCreated (world : World) (p : ProcId) : Except Fault World := do
  let process ← world.process p
  .ok (world.setProcess p { process with
    followFork := world.defaultFollowFork
    followExec := world.defaultFollowExec })

def processRun (world : World) (pid : Pid) : Except Fault World := do
  let (world, p) := world.processNew
  let process ← world.process p
  let world := world.setProcess p { process with pid := pid }
  let world ← world.mpServerAddProcess p
  let world ← world.setStatus p .starting
  let world ← world.processStartInput p
  world.mpServerProcessCreated p

/-! ## `input_func` -/

def rootOf (world : World) (p : ProcId) : Except Fault ProcId :=
  match search world.processes MPProcess.cloneOf (·.cloneOf.isNone) world.processes.length (some p) with
  | some (some root) => .ok root
  | _ => .error .brokenChain

/-- The answer to a process that waits for it changes nothing here. -/
def processDetach (world : World) (p : ProcId) : Except Fault World := do
  let process ← world.process p
  if process.status = .defunct then .ok world
  else
    match process.inputChannel with
    | none => .error .nullDereference
    | some _ => if process.status = .exiting then .ok world else world.setStatus p .detached

def addStack (world : World) (p : ProcId) (frames : List Addr) : Except Fault (World × StackPtr) := do
  let (world, stash) ← world.getStackStash p
  match world.stashes.get stash with
  | none => .error .useAfterFree
  | some object => do
    let (object, node) ← stackStashAddTrace object frames (-1)
    .ok ({ world with stashes := world.stashes.put stash object }, node.map (StackNodeRef.mk stash))

/-- What `input_func` does before it looks for the process a message is for. -/
def prepareInput (world : World) (input : ProcId) (info : MIInfo) (frames : List Addr) :
    Except Fault (World × StackPtr) :=
  match info.operation with
  | .malloc | .realloc | .free | .time => world.addStack input frames
  | .exit => do
    let world ← world.setStatus input .exiting
    let process ← world.process input
    -- A clone that exits is let go at once.
    let world ← if process.cloneOf.isSome then world.processDetach input else .ok world
    .ok (world, none)
  | .exec | .new | .fork | .clone | .other _ _ => .ok (world, none)

def inputMessage (world : World) (input : ProcId) (info : MIInfo) (frames : List Addr) : Except Fault World := do
  let (world, stack) ← world.prepareInput input info frames
  let root ← world.rootOf input
  world.command root info stack

/-- The round in which nothing is left to read.  It returns `FALSE`, so that the source
which called it is removed; the `input_tag` stays. -/
def inputEof (world : World) (watch : Watch) : Except Fault World := do
  let process ← world.process watch.process
  let world := world.setProcess watch.process { process with inputChannel := none }
  let world ← world.mpServerRemoveProcess watch.process
  let world ← world.setStatus watch.process .defunct
  .ok { world with watches := world.watches.filter (·.tag ≠ watch.tag) }

/-! ## `mp_server_get_process_clones` -/

def addClone (world : World) (parent : ProcId) (result : List ProcId) (process : ProcId) :
    Except Fault (List ProcId) := do
  let root ← world.rootOf process
  .ok (if root = parent then process :: result else result)

def mpServerGetProcessClones (world : World) (p : ProcId) : Except Fault (List ProcId) :=
  (world.pidTable.getD ∅).values.foldlM (world.addClone p) []

/-! ## `control_func` -/

def acceptInput (world : World) (p : ProcId) (channel : Channel) : Except Fault (World × Bool) := do
  let process ← world.process p
  let world ← (world.setProcess p { process with inputChannel := some channel }).processStartInput p
  .ok (world, true)

def reuseProcess (world : World) (p : ProcId) : Except Fault (World × ProcId) := do
  let old ← world.process p
  if old.followExec then
    -- The old process stays in its window; the new one takes its entry.
    let (world, q) := world.processNew
    let process ← world.process q
    let world := world.setProcess q { process with pid := old.pid, parent := old.parent }
    let world ← world.mpServerAddProcess q
    let world ← world.mpServerProcessCreated q
    .ok (world, q)
  else
    -- The image is new and the process is not: it starts again with seqno 0.
    let world ← world.processExecReset p
    .ok (world, p)

def forkProcess (world : World) (parent : ProcId) (newPid : Pid) : Except Fault (World × ProcId) := do
  let (world, q) ← world.processDuplicate parent
  let process ← world.process q
  let world := world.setProcess q { process with pid := newPid }
  let world ← world.mpServerAddProcess q
  let world ← world.mpServerProcessCreated q
  .ok (world, q)

def controlNew (world : World) (channel : Channel) (info : MIInfoFork) : Except Fault (World × Bool) := do
  match world.mpServerFindProcess info.newPid, world.mpServerFindProcess info.pid with
  | some p, _ =>
    let (world, q) ← world.reuseProcess p
    let world ← world.setStatus q .running
    world.acceptInput q channel
  -- A child of a forked child that is not traced.
  | none, none => .ok (world, false)
  | none, some parent =>
    let (world, q) ← world.forkProcess parent info.newPid
    let world ← world.setStatus q .running
    world.acceptInput q channel

/-- The `case MI_CLONE`; its walk to the root of the parent has no effect. -/
def controlClone (world : World) (channel : Channel) (info : MIInfoFork) : Except Fault (World × Bool) := do
  match world.mpServerFindProcess info.pid with
  -- `g_error ("Clone of nonexistant parent process\n")`
  | none => .error .gError
  | some parent =>
    let (world, q) := world.processNew
    let world ← world.setStatus q .running
    let process ← world.process q
    let world := world.setProcess q { process with cloneOf := some parent, pid := info.newPid }
    let world ← world.mpServerAddProcess q
    world.acceptInput q channel

def controlFunc (world : World) (channel : Channel) (info : MIInfoFork) : Except Fault (World × Bool) :=
  match info.operation with
  | .fork =>
    match world.mpServerFindProcess info.pid with
    | some p => do
      let parent ← world.process p
      -- The child is told not to trace.
      if parent.followFork then world.controlNew channel info else .ok (world, false)
    | none => world.controlNew channel info
  | .new => world.controlNew channel info
  | .clone => world.controlClone channel info
  | .time | .malloc | .realloc | .free | .exec | .exit => .error .assertion
  | .other _ _ => .ok (world, false)

def Fresh (world : World) (channel : Channel) : Prop :=
  ∀ q other, world.process q = .ok other → other.inputChannel ≠ some channel

theorem fresh_of_single {world : World} {process : MPProcess} {channel : Channel}
    (single : world.processes = [process]) (other : process.inputChannel ≠ some channel) : world.Fresh channel := by
  intro q held found
  rw [process_eq_ok, single] at found
  rwa [List.mem_singleton.mp (List.mem_of_getElem? found)]

instance (world : World) (channel : Channel) : Decidable (world.Fresh channel) :=
  decidable_of_iff (∀ process ∈ world.processes, process.inputChannel ≠ some channel) <| by
    constructor
    · exact fun fresh q other found => fresh other (mem_of_process found)
    · intro fresh process member
      obtain ⟨q, found⟩ := List.mem_iff_getElem?.mp member
      exact fresh q process (process_eq_ok.mpr found)

/-- What can happen next: the user starts a program, starts or stops to record or resets
the numbers, a connection arrives, a message or the end of a channel is read.  A pid of
`0` is no process, and a new connection has a channel of its own. -/
inductive Step : World → World → Prop
  | run {world later : World} {pid : Pid} (named : pid ≠ 0) (ran : world.processRun pid = .ok later) : Step world later
  | startInput {world later : World} {p : ProcId} (ran : world.processStartInput p = .ok later) : Step world later
  | stopInput {world later : World} {p : ProcId} (ran : world.processStopInput p = .ok later) : Step world later
  | clearInput {world later : World} {p : ProcId} (ran : world.processClearInput p = .ok later) : Step world later
  | connect {world later : World} {channel : Channel} {info : MIInfoFork} {response : Bool}
      (fresh : world.Fresh channel) (named : info.newPid ≠ 0)
      (ran : world.controlFunc channel info = .ok (later, response)) : Step world later
  | message {world later : World} {watch : Watch} {info : MIInfo} {frames : List Addr}
      (watched : watch ∈ world.watches) (ran : world.inputMessage watch.process info frames = .ok later) :
      Step world later
  | eof {world later : World} {watch : Watch} (watched : watch ∈ world.watches)
      (ran : world.inputEof watch = .ok later) : Step world later

inductive Event where
  | run (pid : Pid)
  | startInput (p : ProcId)
  | stopInput (p : ProcId)
  | clearInput (p : ProcId)
  | connect (channel : Channel) (info : MIInfoFork)
  | message (watch : Watch) (info : MIInfo) (frames : List Addr)
  | eof (watch : Watch)

def handle (world : World) : Event → Except Fault World
  | .run pid => world.processRun pid
  | .startInput p => world.processStartInput p
  | .stopInput p => world.processStopInput p
  | .clearInput p => world.processClearInput p
  | .connect channel info => (world.controlFunc channel info).map (·.1)
  | .message watch info frames => world.inputMessage watch.process info frames
  | .eof watch => world.inputEof watch

/-- What the kernel and the main loop guarantee of an input. -/
def Admissible (world : World) : Event → Prop
  | .run pid => pid ≠ 0
  | .connect channel info => world.Fresh channel ∧ info.newPid ≠ 0
  | .message watch _ _ | .eof watch => watch ∈ world.watches
  | .startInput _ | .stopInput _ | .clearInput _ => True

instance (world : World) (event : Event) : Decidable (world.Admissible event) := by
  cases event <;> unfold Admissible <;> infer_instance

theorem step_iff {world later : World} :
    Step world later ↔ ∃ event, world.Admissible event ∧ world.handle event = .ok later := by
  constructor
  · intro taken
    cases taken with
    | run named ran => exact ⟨.run _, named, ran⟩
    | startInput ran => exact ⟨.startInput _, trivial, ran⟩
    | stopInput ran => exact ⟨.stopInput _, trivial, ran⟩
    | clearInput ran => exact ⟨.clearInput _, trivial, ran⟩
    | connect fresh named ran => exact ⟨.connect _ _, ⟨fresh, named⟩, by rw [handle, ran]; rfl⟩
    | message watched ran => exact ⟨.message _ _ _, watched, ran⟩
    | eof watched ran => exact ⟨.eof _, watched, ran⟩
  · rintro ⟨event, admissible, handled⟩
    cases event with
    | run pid => exact .run admissible handled
    | startInput p => exact .startInput handled
    | stopInput p => exact .stopInput handled
    | clearInput p => exact .clearInput handled
    | connect channel info =>
      obtain ⟨⟨later, response⟩, ran, rfl⟩ := ok_of_map handled
      exact .connect admissible.1 admissible.2 ran
    | message watch info frames => exact .message admissible handled
    | eof watch => exact .eof admissible handled

def Reachable (world : World) : Prop :=
  ∃ followFork followExec, Relation.ReflTransGen Step
    { defaultFollowFork := followFork, defaultFollowExec := followExec } world

end World

end Memprof
