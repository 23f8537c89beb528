import Memprof.Control
import Memprof.Verified.Lifetimes

/-! # `control_func` acts on full messages only

What a call may do to the server is summed up by `Answered`: with a negative answer
nothing has happened, with a positive one the new channel belongs to the process listed
under the pid of the message.  That needs one fact about the `pid_table`, `Listed`, which
everything the server does keeps.  Whether the message was read at all is another matter:
the count of a failed `read` passes for a large one.
-/

namespace Memprof.Control

open Library Blocks Accounting Serving Delivery Lifetimes

/-! ## The `pid_table` -/

/-- A process is listed under its own pid. -/
def Listed (world : World) : Prop :=
  ∀ pid p, world.mpServerFindProcess pid = some p → ∃ process : MPProcess, world.process p = .ok process ∧
    process.pid = pid

/-- The table stays, and so do the processes and their pids. -/
structure KeepsPids (world later : World) : Prop where
  pidTable : later.pidTable = world.pidTable
  pids : ∀ p (process : MPProcess), world.process p = .ok process →
    ∃ process' : MPProcess, later.process p = .ok process' ∧ process'.pid = process.pid

namespace KeepsPids

theorem refl (world : World) : KeepsPids world world := ⟨rfl, fun _ process found => ⟨process, found, rfl⟩⟩

theorem trans {first second third : World} (left : KeepsPids first second) (right : KeepsPids second third) :
    KeepsPids first third := by
  refine ⟨right.pidTable.trans left.pidTable, fun p process found => ?_⟩
  obtain ⟨process', found', same⟩ := left.pids p process found
  obtain ⟨process'', found'', same'⟩ := right.pids p process' found'
  exact ⟨process'', found'', same'.trans same⟩

theorem find {world later : World} (keeps : KeepsPids world later) (pid : Pid) :
    later.mpServerFindProcess pid = world.mpServerFindProcess pid := by
  rw [World.mpServerFindProcess, World.mpServerFindProcess, keeps.pidTable]

theorem listed {world later : World} (keeps : KeepsPids world later) (listed : Listed world) : Listed later := by
  intro pid p found
  rw [keeps.find] at found
  obtain ⟨process, held, same⟩ := listed pid p found
  obtain ⟨process', held', same'⟩ := keeps.pids p process held
  exact ⟨process', held', same'.trans same⟩

/-- One process changes, but not its pid. -/
theorem set {world later : World} {p : ProcId} {process process' : MPProcess} (found : world.process p = .ok process)
    (processes : later.processes = world.processes.set p process') (pid : process'.pid = process.pid)
    (pidTable : later.pidTable = world.pidTable) : KeepsPids world later := by
  refine ⟨pidTable, fun q other held => ?_⟩
  by_cases same : q = p
  · subst same
    rw [found] at held
    cases held
    exact ⟨process', World.process_of_set found processes, pid⟩
  · exact ⟨other, (World.process_of_set_ne processes same).trans held, rfl⟩

/-- Processes are added at the end. -/
theorem append {world later : World} {process : MPProcess} (processes : later.processes = world.processes ++ [process])
    (pidTable : later.pidTable = world.pidTable) : KeepsPids world later := by
  refine ⟨pidTable, fun q other held => ⟨other, ?_, rfl⟩⟩
  rw [World.process_eq_ok] at held ⊢
  rw [processes, List.getElem?_append_left (List.getElem?_eq_some_iff.mp held).1, held]

end KeepsPids

/-- What the main loop and the table have to do with a process. -/
def face (process : MPProcess) : Pid × ℕ × Option Channel := (process.pid, process.inputTag, process.inputChannel)

/-- Nothing changes that the main loop or the table have to do with. -/
structure Quiet (world later : World) : Prop where
  pidTable : later.pidTable = world.pidTable
  watches : later.watches = world.watches
  lastTag : later.lastTag = world.lastTag
  faces : later.processes.map face = world.processes.map face

namespace Quiet

theorem refl (world : World) : Quiet world world := ⟨rfl, rfl, rfl, rfl⟩

theorem trans {first second third : World} (left : Quiet first second) (right : Quiet second third) :
    Quiet first third :=
  ⟨right.pidTable.trans left.pidTable, right.watches.trans left.watches, right.lastTag.trans left.lastTag,
    right.faces.trans left.faces⟩

theorem set {world later : World} {p : ProcId} {process process' : MPProcess} (found : world.process p = .ok process)
    (processes : later.processes = world.processes.set p process') (same : face process' = face process)
    (pidTable : later.pidTable = world.pidTable) (watches : later.watches = world.watches)
    (lastTag : later.lastTag = world.lastTag) : Quiet world later := by
  refine ⟨pidTable, watches, lastTag, ?_⟩
  obtain ⟨inside, here⟩ := List.getElem?_eq_some_iff.mp (World.process_eq_ok.mp found)
  rw [processes, List.map_set, same, ← here, ← List.map_set, List.set_getElem_self]

theorem keeps {world later : World} (quiet : Quiet world later) : KeepsPids world later := by
  refine ⟨quiet.pidTable, fun p process found => ?_⟩
  have same : (later.processes.map face)[p]? = (world.processes.map face)[p]? := by rw [quiet.faces]
  rw [List.getElem?_map, List.getElem?_map, World.process_eq_ok.mp found] at same
  obtain ⟨process', held, faces⟩ := Option.map_eq_some_iff.mp same
  exact ⟨process', World.process_eq_ok.mpr held, congrArg Prod.fst faces⟩

end Quiet

theorem setStatus_quiet {world later : World} {p : ProcId} {status : MPProcessStatus}
    (performed : world.setStatus p status = .ok later) : Quiet world later := by
  obtain ⟨process, found, performed⟩ := ok_of_bind performed
  cases performed
  exact .set found rfl rfl rfl rfl rfl

theorem dropBlocks_quiet {world later : World} {p : ProcId} (performed : world.dropBlocks p = .ok later) :
    Quiet world later := by
  obtain ⟨process, found, performed⟩ := ok_of_bind performed
  obtain ⟨blocks, _, performed⟩ := ok_of_bind performed
  obtain ⟨stashes, _, performed⟩ := ok_of_bind performed
  cases performed
  exact .set found rfl rfl rfl rfl rfl

theorem mpServerProcessCreated_quiet {world later : World} {p : ProcId}
    (performed : world.mpServerProcessCreated p = .ok later) : Quiet world later := by
  obtain ⟨process, found, performed⟩ := ok_of_bind performed
  cases performed
  exact .set found rfl rfl rfl rfl rfl

theorem processDetach_quiet {world later : World} {p : ProcId} (performed : world.processDetach p = .ok later) :
    Quiet world later := by
  obtain ⟨process, _, performed⟩ := ok_of_bind performed
  split at performed
  · cases performed
    exact .refl world
  · split at performed
    · cases performed
    · split at performed
      · cases performed
        exact .refl world
      · exact setStatus_quiet performed

theorem addStack_quiet {world later : World} {p : ProcId} {frames : List Addr} {stack : StackPtr}
    (performed : world.addStack p frames = .ok (later, stack)) : Quiet world later := by
  obtain ⟨⟨ready, stash⟩, got, performed⟩ := ok_of_bind performed
  have kept : Quiet world ready := by
    obtain ⟨process, found, got⟩ := ok_of_bind got
    split at got
    · cases got
      exact .refl world
    · cases got
      exact .set found rfl rfl rfl rfl rfl
  apply kept.trans
  dsimp only at performed
  split at performed
  · cases performed
  · obtain ⟨⟨object, node⟩, _, performed⟩ := ok_of_bind performed
    cases performed
    exact ⟨rfl, rfl, rfl, rfl⟩

theorem prepareInput_quiet {world later : World} {input : ProcId} {info : MIInfo} {frames : List Addr}
    {stack : StackPtr} (performed : world.prepareInput input info frames = .ok (later, stack)) : Quiet world later := by
  unfold World.prepareInput at performed
  split at performed
  · exact addStack_quiet performed
  · exact addStack_quiet performed
  · exact addStack_quiet performed
  · exact addStack_quiet performed
  · obtain ⟨exiting, status, performed⟩ := ok_of_bind performed
    obtain ⟨process, _, performed⟩ := ok_of_bind performed
    dsimp only at performed
    split at performed
    · obtain ⟨detached, left, performed⟩ := ok_of_bind performed
      cases performed
      exact (setStatus_quiet status).trans (processDetach_quiet left)
    · cases performed
      exact setStatus_quiet status
  all_goals cases performed; exact .refl _

theorem insertNew_sameElse (blocks : Store Block) (process : MPProcess) (info : MIInfo) (stack : StackPtr) :
    SameElse process (insertNew blocks process info stack).2 := by
  unfold insertNew
  split <;> rfl

theorem removeOld_sameElse {blocks blocks' : Store Block} {process process' : MPProcess} {oldPtr : Addr} {stack : StackPtr}
    (removed : removeOld blocks process oldPtr stack = .ok (blocks', process')) : SameElse process process' := by
  unfold removeOld at removed
  split at removed
  · split at removed
    · cases removed
      rfl
    · split at removed
      · cases removed
      · obtain ⟨_, _, removed⟩ := ok_of_bind removed
        cases removed
        rfl
  · cases removed
    rfl

theorem reportBlock_sameElse {blocks blocks' : Store Block} {process process' : MPProcess} {info info' : MIInfo}
    {stack : StackPtr} (reported : reportBlock blocks process info stack = .ok (blocks', process', info')) :
    SameElse process process' := by
  obtain ⟨⟨after, removed⟩, ran, reported⟩ := ok_of_bind reported
  cases reported
  have table : SameElse process (getBlockTable process) := rfl
  exact (table.trans (removeOld_sameElse ran)).trans (insertNew_sameElse after removed info stack)

theorem consume_sameElse {state later : Store Block × MPProcess} {command : Command}
    (consumed : consume state command = .ok later) : SameElse state.2 later.2 := by
  obtain ⟨⟨blocks, process, info⟩, applied, rfl⟩ := ok_of_map consumed
  have numbered : SameElse state.2 { state.2 with seqno := state.2.seqno + 1 } := rfl
  unfold applyCommand at applied
  cases operation : command.info.operation with
  | new | fork | clone | exec => rw [operation] at applied; cases applied
  | exit => rw [operation] at applied; cases applied; rfl
  | time | malloc | realloc | free | other _ _ =>
    rw [operation] at applied
    have reported := reportBlock_sameElse applied
    exact numbered.trans reported

/-- A command changes the counters, the table and the queue of its process. -/
theorem command_sameElse {world later : World} {p : ProcId} {info : MIInfo} {stack : StackPtr}
    (performed : world.command p info stack = .ok later) :
    ∃ process process', world.process p = .ok process ∧ Replaces world p process' later ∧
      later.watches = world.watches ∧ later.lastTag = world.lastTag ∧ SameElse process process' := by
  obtain ⟨process, found, performed⟩ := ok_of_bind performed
  obtain ⟨⟨blocks, process', _⟩, ran, performed⟩ := ok_of_bind performed
  cases performed
  have delivered := @deliver_ensures _ _ _ expected number consume (fun _ => True)
    (fun state => SameElse process state.2) process.commandQueue ⟨info, stack⟩
    (fun state command _ same => by
      cases consumed : consume state command with
      | error fault => exact ensures_error trivial
      | ok next => exact ensures_ok (same.trans (consume_sameElse consumed)))
    (world.blocks, withQueue [] process) rfl
  have called : Ensures (fun _ => True) (call (world.blocks, withQueue process.commandQueue process) ⟨info, stack⟩)
      fun result => SameElse process result.2 := by
    rw [call_eq_deliver]
    refine Ensures.map (delivered.imp fun pending held => held.1.trans ?_)
    rfl
  exact ⟨process, process', found, ⟨rfl, rfl, rfl, rfl⟩, rfl, rfl, (Ensures.of_map called).of_ok ran⟩

theorem command_quiet {world later : World} {p : ProcId} {info : MIInfo} {stack : StackPtr}
    (performed : world.command p info stack = .ok later) : Quiet world later := by
  obtain ⟨process, process', found, replaces, watches, lastTag, same⟩ := command_sameElse performed
  have faces : face process' = face process := by rw [same]; rfl
  exact .set found replaces.processes faces replaces.pidTable watches lastTag

theorem inputMessage_quiet {world later : World} {input : ProcId} {info : MIInfo} {frames : List Addr}
    (performed : world.inputMessage input info frames = .ok later) : Quiet world later := by
  obtain ⟨⟨ready, stack⟩, prepared, performed⟩ := ok_of_bind performed
  obtain ⟨root, _, performed⟩ := ok_of_bind performed
  exact (prepareInput_quiet prepared).trans (command_quiet performed)

theorem processStopInput_pids {world later : World} {p : ProcId} (performed : world.processStopInput p = .ok later) :
    KeepsPids world later := by
  obtain ⟨process, found, performed⟩ := ok_of_bind performed
  split at performed
  · cases performed
    exact .set found rfl rfl rfl
  · cases performed
    exact .refl world

theorem processStartInput_pids {world later : World} {p : ProcId} (performed : world.processStartInput p = .ok later) :
    KeepsPids world later := by
  obtain ⟨process, found, performed⟩ := ok_of_bind performed
  split at performed
  · cases performed
    exact .set found rfl rfl rfl
  · cases performed
    exact .refl world

theorem processReinit_pids {world later : World} {p : ProcId} (performed : world.processReinit p = .ok later) :
    KeepsPids world later := by
  obtain ⟨quiet, stopped, performed⟩ := ok_of_bind performed
  obtain ⟨empty, dropped, performed⟩ := ok_of_bind performed
  obtain ⟨process, found, performed⟩ := ok_of_bind performed
  cases performed
  exact ((processStopInput_pids stopped).trans (dropBlocks_quiet dropped).keeps).trans (.set found rfl rfl rfl)

/-! ## Listing a process -/

/-- The process is listed under the pid. -/
structure Registered (world : World) (pid : Pid) (p : ProcId) : Prop where
  listed : Listed world
  found : world.mpServerFindProcess pid = some p

theorem Registered.keeps {world later : World} {pid : Pid} {p : ProcId} (registered : Registered world pid p)
    (keeps : KeepsPids world later) : Registered later pid p :=
  ⟨keeps.listed registered.listed, (keeps.find pid).trans registered.found⟩

theorem mpServerAddProcess_registered {world later : World} {q : ProcId} {process : MPProcess} (listed : ∀ pid p,
      world.mpServerFindProcess pid = some p → ∃ other : MPProcess, world.process p = .ok other ∧ other.pid = pid)
    (found : world.process q = .ok process) (performed : world.mpServerAddProcess q = .ok later) :
    Registered later process.pid q := by
  rw [mpServerAddProcess_eq found] at performed
  cases performed
  refine ⟨fun pid p held => ?_, AList.lookup_insert _⟩
  rcases find_insert held with old | ⟨rfl, rfl⟩
  · exact listed pid p old
  · exact ⟨process, found, rfl⟩

/-- A process that was just made gets a pid, and is listed under it. -/
theorem made_registered {world made later : World} {blank process : MPProcess} (listed : Listed world)
    (performed : (made.setProcess world.processes.length process).mpServerAddProcess world.processes.length = .ok later)
    (processes : made.processes = world.processes ++ [blank]) (pidTable : made.pidTable = world.pidTable) :
    Registered later process.pid world.processes.length := by
  have set := set_of_append processes process
  refine mpServerAddProcess_registered (fun pid p found => ?_) (process_of_append set) performed
  -- no older entry leads to the process whose pid changes
  have appended : KeepsPids world (made.setProcess world.processes.length process) := .append set pidTable
  exact appended.listed listed pid p found

theorem reuseProcess_registered {world : World} {p : ProcId} {pid : Pid} {result : World × ProcId}
    (registered : Registered world pid p) (performed : world.reuseProcess p = .ok result) :
    Registered result.1 pid result.2 := by
  obtain ⟨old, found, performed⟩ := ok_of_bind performed
  have own : old.pid = pid := by
    obtain ⟨process, held, same⟩ := registered.listed pid p registered.found
    rw [found] at held
    cases held
    exact same
  split at performed
  · obtain ⟨process, held, performed⟩ := ok_of_bind performed
    obtain ⟨added, ranAdd, performed⟩ := ok_of_bind performed
    obtain ⟨created, ranCreated, performed⟩ := ok_of_bind performed
    cases performed
    have listedNow := made_registered registered.listed ranAdd rfl rfl
    rw [own] at listedNow
    exact listedNow.keeps (mpServerProcessCreated_quiet ranCreated).keeps
  · obtain ⟨reset, ranReset, performed⟩ := ok_of_bind performed
    cases performed
    exact registered.keeps (processReinit_pids ranReset)

theorem forkProcess_registered {world : World} {parent : ProcId} {newPid : Pid} {result : World × ProcId}
    (listed : Listed world) (performed : world.forkProcess parent newPid = .ok result) :
    Registered result.1 newPid result.2 := by
  obtain ⟨⟨copied, q⟩, ranDuplicate, performed⟩ := ok_of_bind performed
  obtain ⟨process, found, performed⟩ := ok_of_bind performed
  obtain ⟨added, ranAdd, performed⟩ := ok_of_bind performed
  obtain ⟨created, ranCreated, performed⟩ := ok_of_bind performed
  cases performed
  obtain ⟨_, _, ranDuplicate⟩ := ok_of_bind ranDuplicate
  obtain ⟨⟨blocks, table⟩, _, ranDuplicate⟩ := ok_of_bind ranDuplicate
  cases ranDuplicate
  exact (made_registered listed ranAdd (set_of_append rfl _) rfl).keeps (mpServerProcessCreated_quiet ranCreated).keeps

/-! ## `control_func` -/

/-- What a call does to the world: nothing, or the channel goes to the process that is
listed under the pid of the message. -/
inductive Answered (world : World) (channel : Channel) (newPid : Pid) : World × Bool → Prop
  | negative : Answered world channel newPid (world, false)
  | positive {later : World} {p : ProcId} {process : MPProcess} (registered : Registered later newPid p)
      (found : later.process p = .ok process) (connected : process.inputChannel = some channel) :
      Answered world channel newPid (later, true)

theorem processStartInput_channel {world later : World} {p : ProcId} {process : MPProcess}
    (found : world.process p = .ok process) (performed : world.processStartInput p = .ok later) :
    ∃ process' : MPProcess, later.process p = .ok process' ∧ process'.inputChannel = process.inputChannel := by
  unfold World.processStartInput at performed
  rw [found, ok_bind] at performed
  split at performed
  · cases performed
    exact ⟨_, World.process_setProcess_self found _, rfl⟩
  · cases performed
    exact ⟨process, found, rfl⟩

theorem acceptInput_answered {world ready : World} {p : ProcId} {channel : Channel} {newPid : Pid}
    {result : World × Bool} (registered : Registered ready newPid p)
    (performed : ready.acceptInput p channel = .ok result) : Answered world channel newPid result := by
  obtain ⟨process, found, performed⟩ := ok_of_bind performed
  obtain ⟨later, started, performed⟩ := ok_of_bind performed
  cases performed
  obtain ⟨process', held, connected⟩ := processStartInput_channel (World.process_setProcess_self found _) started
  have kept : KeepsPids ready (ready.setProcess p { process with inputChannel := some channel }) :=
    .set found rfl rfl rfl
  exact .positive (registered.keeps (kept.trans (processStartInput_pids started))) held connected

/-- `MI_NEW` and `MI_FORK`: the process is reused, or the parent is unknown, or it is forked. -/
theorem controlNew_cases {world : World} {channel : Channel} {info : MIInfoFork} {result : World × Bool}
    (performed : world.controlNew channel info = .ok result) :
    (∃ p reused q running, world.mpServerFindProcess info.newPid = some p ∧ world.reuseProcess p = .ok (reused, q) ∧
      reused.setStatus q .running = .ok running ∧ running.acceptInput q channel = .ok result) ∨
    (world.mpServerFindProcess info.newPid = none ∧ world.mpServerFindProcess info.pid = none ∧ result = (world, false)) ∨
    ∃ parent forked q running, world.mpServerFindProcess info.newPid = none ∧
      world.mpServerFindProcess info.pid = some parent ∧ world.forkProcess parent info.newPid = .ok (forked, q) ∧
      forked.setStatus q .running = .ok running ∧ running.acceptInput q channel = .ok result := by
  unfold World.controlNew at performed
  split at performed
  next p known =>
    obtain ⟨⟨reused, q⟩, ranReuse, performed⟩ := ok_of_bind performed
    obtain ⟨running, ranStatus, performed⟩ := ok_of_bind performed
    exact .inl ⟨p, reused, q, running, known, ranReuse, ranStatus, performed⟩
  next unknown orphan => exact .inr (.inl ⟨unknown, orphan, (Except.ok.inj performed).symm⟩)
  next parent unknown known =>
    obtain ⟨⟨forked, q⟩, ranFork, performed⟩ := ok_of_bind performed
    obtain ⟨running, ranStatus, performed⟩ := ok_of_bind performed
    exact .inr (.inr ⟨parent, forked, q, running, unknown, known, ranFork, ranStatus, performed⟩)

theorem controlNew_answered {world : World} (listed : Listed world) {channel : Channel} {info : MIInfoFork}
    {result : World × Bool} (performed : world.controlNew channel info = .ok result) :
    Answered world channel info.newPid result := by
  obtain ⟨p, reused, q, running, known, ranReuse, ranStatus, accepted⟩ | ⟨-, -, rfl⟩ |
    ⟨parent, forked, q, running, -, -, ranFork, ranStatus, accepted⟩ := controlNew_cases performed
  · have registered := reuseProcess_registered ⟨listed, known⟩ ranReuse
    exact acceptInput_answered (registered.keeps (setStatus_quiet ranStatus).keeps) accepted
  · exact .negative
  · have registered := forkProcess_registered listed ranFork
    exact acceptInput_answered (registered.keeps (setStatus_quiet ranStatus).keeps) accepted

theorem controlClone_answered {world : World} (listed : Listed world) {channel : Channel} {info : MIInfoFork}
    {result : World × Bool} (performed : world.controlClone channel info = .ok result) :
    Answered world channel info.newPid result := by
  unfold World.controlClone at performed
  split at performed
  · cases performed
  · obtain ⟨running, ranStatus, performed⟩ := ok_of_bind performed
    obtain ⟨blank, _, ranStatus⟩ := ok_of_bind ranStatus
    cases ranStatus
    obtain ⟨process, found, performed⟩ := ok_of_bind performed
    obtain ⟨added, ranAdd, performed⟩ := ok_of_bind performed
    exact acceptInput_answered (made_registered listed ranAdd (set_of_append rfl _) rfl) performed

theorem controlFunc_answered {world : World} (listed : Listed world) {channel : Channel} {info : MIInfoFork}
    {result : World × Bool} (performed : world.controlFunc channel info = .ok result) :
    Answered world channel info.newPid result := by
  unfold World.controlFunc at performed
  split at performed
  · split at performed
    · obtain ⟨parent, _, performed⟩ := ok_of_bind performed
      split at performed
      · exact controlNew_answered listed performed
      -- the parent is not followed into its children
      · cases performed
        exact .negative
    · exact controlNew_answered listed performed
  · exact controlNew_answered listed performed
  · exact controlClone_answered listed performed
  all_goals cases performed
  exact .negative

theorem controlInput_answered {layout : ForkLayout} {world : World} (listed : Listed world) {newfd : Option Channel}
    {result : ReadResult layout.sizeofInfo} {info : Object layout.sizeofInfo} {later : World} {answer : Option Bool}
    (performed : world.controlInput layout newfd result info = .ok (later, answer)) :
    (answer ≠ some true ∧ later = world) ∨ ∃ channel, newfd = some channel ∧ answer = some true ∧
      Answered world channel (layout.loadFork (result.into info)).newPid (later, true) := by
  unfold World.controlInput at performed
  split at performed
  · cases performed
    exact .inl ⟨nofun, rfl⟩
  next channel =>
    dsimp only at performed
    split at performed
    · cases performed
      exact .inl ⟨by simp, rfl⟩
    · obtain ⟨⟨reached, response⟩, ran, performed⟩ := ok_of_map performed
      cases performed
      cases controlFunc_answered listed ran with
      | negative => exact .inl ⟨by simp, rfl⟩
      | positive registered found connected => exact .inr ⟨channel, rfl, rfl, .positive registered found connected⟩

/-! ## The states of the server -/

/-- What changes the server's state: the main loop's events, connections however their
messages are read, and what the windows do to the status of a process. -/
inductive Change (layout : ForkLayout) : World → World → Prop
  | handle {world later : World} {event : World.Event} (ran : world.handle event = .ok later) :
      Change layout world later
  | control {world later : World} {newfd : Option Channel} {result : ReadResult layout.sizeofInfo}
      {info : Object layout.sizeofInfo} {answer : Option Bool}
      (ran : world.controlInput layout newfd result info = .ok (later, answer)) : Change layout world later
  | status {world later : World} {p : ProcId} {status : MPProcessStatus} (ran : world.setStatus p status = .ok later) :
      Change layout world later

def Reached (layout : ForkLayout) (world : World) : Prop :=
  ∃ followFork followExec, Relation.ReflTransGen (Change layout)
    { defaultFollowFork := followFork, defaultFollowExec := followExec } world

theorem processRun_listed {world later : World} (listed : Listed world) {pid : Pid}
    (performed : world.processRun pid = .ok later) : Listed later := by
  obtain ⟨process, _, performed⟩ := ok_of_bind performed
  obtain ⟨added, ranAdd, performed⟩ := ok_of_bind performed
  obtain ⟨starting, ranStatus, performed⟩ := ok_of_bind performed
  obtain ⟨started, ranStart, performed⟩ := ok_of_bind performed
  have kept : KeepsPids added later := ((setStatus_quiet ranStatus).keeps.trans (processStartInput_pids ranStart)).trans
    (mpServerProcessCreated_quiet performed).keeps
  exact kept.listed (made_registered listed ranAdd rfl rfl).listed

theorem inputEof_listed {world later : World} (listed : Listed world) {watch : Watch}
    (performed : world.inputEof watch = .ok later) : Listed later := by
  obtain ⟨process, found, performed⟩ := ok_of_bind performed
  obtain ⟨removed, ranRemove, performed⟩ := ok_of_bind performed
  obtain ⟨defunct, ranStatus, performed⟩ := ok_of_bind performed
  cases performed
  have kept : KeepsPids world (world.setProcess watch.process { process with inputChannel := none }) :=
    .set found rfl rfl rfl
  rw [mpServerRemoveProcess_eq (World.process_setProcess_self found _)] at ranRemove
  cases ranRemove
  have without : Listed { world.setProcess watch.process { process with inputChannel := none } with
      pidTable := unlisted (world.setProcess watch.process { process with inputChannel := none }) process.pid watch.process } :=
    fun pid p held => kept.listed listed pid p (lookup_unlisted held)
  exact (setStatus_quiet ranStatus).keeps.listed without

theorem change_listed {layout : ForkLayout} {world later : World} (listed : Listed world)
    (change : Change layout world later) : Listed later := by
  cases change with
  | @handle event ran =>
    cases event with
    | run pid => exact processRun_listed listed ran
    | startInput p => exact (processStartInput_pids ran).listed listed
    | stopInput p => exact (processStopInput_pids ran).listed listed
    | clearInput p => exact (dropBlocks_quiet ran).keeps.listed listed
    | connect channel info =>
      obtain ⟨⟨reached, response⟩, connected, rfl⟩ := ok_of_map ran
      cases controlFunc_answered listed connected with
      | negative => exact listed
      | positive registered _ _ => exact registered.listed
    | message watch info frames => exact (inputMessage_quiet ran).keeps.listed listed
    | eof watch => exact inputEof_listed listed ran
  | control ran =>
    rcases controlInput_answered listed ran with ⟨_, rfl⟩ | ⟨_, _, _, positive⟩
    · exact listed
    · cases positive with
      | positive registered _ _ => exact registered.listed
  | status ran => exact (setStatus_quiet ran).keeps.listed listed

theorem reached_listed {layout : ForkLayout} {world : World} (reached : Reached layout world) : Listed world := by
  obtain ⟨_, _, steps⟩ := reached
  induction steps with
  | refl => exact fun _ _ found => nomatch found
  | tail _ change inductionHypothesis => exact change_listed inductionHypothesis change

/-! ## All or nothing -/

/-- A full message was read. -/
def Full (layout : ForkLayout) (result : ReadResult layout.sizeofInfo) : Prop := result.count = layout.sizeofInfo

/-- What a call owes its caller.  A result that is not full leaves it nothing to tell one
`info` from another, neither by the bytes that were read nor by the others. -/
structure AllOrNothing (layout : ForkLayout) (world : World) (newfd : Option Channel)
    (result : ReadResult layout.sizeofInfo) : Prop where
  unread : ¬ Full layout result → ∀ (result' : ReadResult layout.sizeofInfo) (info info' : Object layout.sizeofInfo),
    result'.count = result.count →
    world.controlInput layout newfd result' info' = world.controlInput layout newfd result info
  negative : ∀ info later answer, world.controlInput layout newfd result info = .ok (later, answer) →
    answer ≠ some true → later.pidTable = world.pidTable ∧ later.processes = world.processes
  positive : ∀ info later, world.controlInput layout newfd result info = .ok (later, some true) →
    ∃ p, ∃ process : MPProcess, later.mpServerFindProcess (layout.loadFork (result.into info)).newPid = some p ∧
      later.process p = .ok process ∧ process.inputChannel.isSome ∧ process.inputChannel = newfd

/-- The test for a short read. -/
theorem short_iff (layout : ForkLayout) (result : ReadResult layout.sizeofInfo) :
    UInt64.ofInt result.count < UInt64.ofNat layout.sizeofInfo ↔ result ≠ .failed ∧ ¬ Full layout result := by
  have small := layout.sizeofInfo_lt
  have size : (UInt64.ofNat layout.sizeofInfo).toNat = layout.sizeofInfo :=
    UInt64.toNat_ofNat_of_lt' (by rw [UInt64.size]; omega)
  rw [UInt64.lt_iff_toNat_lt, size]
  cases result with
  | failed =>
    have large : (UInt64.ofInt (-1)).toNat = 2 ^ 64 - 1 := by decide
    rw [ReadResult.count, large]
    constructor
    · intro less
      omega
    · exact fun other => (other.1 rfl).elim
  | bytes read fits =>
    have count : (UInt64.ofInt (ReadResult.bytes read fits).count).toNat = read.length := by
      simp only [ReadResult.count, UInt64.ofInt, UInt64.toNat_ofNat']
      omega
    rw [count, Full, ReadResult.count]
    constructor
    · exact fun less => ⟨nofun, by omega⟩
    · exact fun other => by omega

theorem controlInput_failed (layout : ForkLayout) (world : World) (channel : Channel)
    (info : Object layout.sizeofInfo) :
    world.controlInput layout (some channel) .failed info =
      (world.controlFunc channel (layout.loadFork info)).map fun (world, response) => (world, some response) := by
  have large : ¬ UInt64.ofInt (ReadResult.failed : ReadResult layout.sizeofInfo).count <
      UInt64.ofNat layout.sizeofInfo :=
    fun less => ((short_iff layout .failed).mp less).1 rfl
  rw [World.controlInput, if_neg large]
  rfl

/-- A failed `read` leaves whatever the stack held to be acted on. -/
theorem failed_unread (layout : ForkLayout) (world : World) (channel : Channel) :
    ¬ AllOrNothing layout world (some channel) .failed := by
  intro holds
  have notFull : ¬ Full layout .failed := by
    have size := layout.sizeofInfo_pos
    rw [Full, ReadResult.count]
    omega
  -- one operation is answered, the other ends the profiler
  have same := holds.unread notFull .failed (layout.storeFork (Object.zero _) { operation := .time })
    (layout.storeFork (Object.zero _) { operation := .other 9 (by decide) }) rfl
  rw [controlInput_failed, controlInput_failed, layout.loadFork_storeFork, layout.loadFork_storeFork] at same
  cases same

theorem controlInput_short {layout : ForkLayout} (world : World) (channel : Channel)
    {result : ReadResult layout.sizeofInfo} (short : result ≠ .failed ∧ ¬ Full layout result)
    (info : Object layout.sizeofInfo) :
    world.controlInput layout (some channel) result info = .ok (world, some false) := by
  rw [World.controlInput, if_pos ((short_iff layout result).mpr short)]

/-- In every state of the server a call is all or nothing except when a connection is
accepted and `read` fails. -/
theorem allOrNothing_iff {layout : ForkLayout} {world : World} (reached : Reached layout world)
    (newfd : Option Channel) (result : ReadResult layout.sizeofInfo) :
    AllOrNothing layout world newfd result ↔ ¬ (newfd.isSome ∧ result = .failed) := by
  have listed := reached_listed reached
  constructor
  · rintro holds ⟨accepted, rfl⟩
    obtain ⟨channel, rfl⟩ := Option.isSome_iff_exists.mp accepted
    exact failed_unread layout world channel holds
  · intro readable
    refine ⟨fun notFull result' info info' count => ?_, fun info later answer performed refused => ?_,
      fun info later performed => ?_⟩
    · cases newfd with
      | none => rfl
      | some channel =>
        have answered : result ≠ .failed := fun failed => readable ⟨rfl, failed⟩
        have short := (short_iff layout result).mpr ⟨answered, notFull⟩
        have short' : UInt64.ofInt result'.count < UInt64.ofNat layout.sizeofInfo := by rwa [count]
        rw [controlInput_short world channel ((short_iff layout result').mp short') info',
          controlInput_short world channel ⟨answered, notFull⟩ info]
    · rcases controlInput_answered listed performed with ⟨_, rfl⟩ | ⟨_, _, positive, _⟩
      · exact ⟨rfl, rfl⟩
      · exact (refused positive).elim
    · rcases controlInput_answered listed performed with ⟨negative, _⟩ | ⟨channel, rfl, _, positive⟩
      · exact (negative rfl).elim
      · cases positive with
        | @positive _ p process registered found connected =>
          exact ⟨p, process, registered.found, found, by rw [connected]; rfl, connected⟩

/-- All of a message. -/
def fullMessage (info : MIInfoFork) : ReadResult 48 :=
  .bytes (storeForkLp64 (Object.zero _) info).1 (storeForkLp64 (Object.zero _) info).2.le

/-- The program that was started connects and is registered; its child, which is not followed, is
refused. -/
theorem allOrNothing_iff_started : ∃ world connected refused p, ∃ process : MPProcess,
    World.handle {} (.run 7) = .ok world ∧
      world.controlInput forkLp64 (some 3) (fullMessage { operation := .new, newPid := 7 }) (Object.zero _) =
        .ok (connected, some true) ∧
      connected.mpServerFindProcess 7 = some p ∧ connected.process p = .ok process ∧
      process.inputChannel = some 3 ∧
      world.controlInput forkLp64 (some 3) (fullMessage { operation := .fork, pid := 7, newPid := 8 })
        (Object.zero _) = .ok (refused, some false) ∧
      refused.pidTable = world.pidTable ∧ refused.processes = world.processes := by
  obtain ⟨world, ran, accepts, refuses⟩ : ∃ world, World.handle {} (.run 7) = .ok world ∧
      ((world.controlInput forkLp64 (some 3) (fullMessage { operation := .new, newPid := 7 })
        (Object.zero _)).toOption.any fun result => decide (result.2 = some true)) = true ∧
      ((world.controlInput forkLp64 (some 3) (fullMessage { operation := .fork, pid := 7, newPid := 8 })
        (Object.zero _)).toOption.any fun result => decide (result.2 = some false)) = true :=
    exists_ok_of_any (by decide +kernel)
  obtain ⟨⟨connected, _⟩, accepted, rfl⟩ := exists_ok_of_any accepts
  obtain ⟨⟨refused, _⟩, performed, rfl⟩ := exists_ok_of_any refuses
  have reached : Reached forkLp64 world := ⟨false, false, .tail .refl (.handle ran)⟩
  obtain ⟨p, process, found, held, _, channel⟩ :=
    ((allOrNothing_iff reached (some 3) (fullMessage { operation := .new, newPid := 7 })).mpr (by rintro ⟨_, ⟨⟩⟩)).positive
      _ _ accepted
  obtain ⟨table, processes⟩ :=
    ((allOrNothing_iff reached (some 3) (fullMessage { operation := .fork, pid := 7, newPid := 8 })).mpr
      (by rintro ⟨_, ⟨⟩⟩)).negative _ _ _ performed (by decide)
  exact ⟨world, connected, refused, p, process, ran, accepted, found, held, channel, performed, table, processes⟩

/-- The stack holds the message of an earlier connection, and a process that no program
has connected is made from it. -/
theorem failed_registers :
    ∃ world, Reached forkLp64 world ∧ world.mpServerFindProcess 8 = none ∧
      (∃ later, world.controlInput forkLp64 (some 3) .failed
          (forkLp64.storeFork (Object.zero _) { operation := .fork, pid := 7, newPid := 8 }) = .ok (later, some true) ∧
        later.mpServerFindProcess 8 = some 1) ∧
      ¬ AllOrNothing forkLp64 world (some 3) .failed := by
  obtain ⟨world, ran, absent, forked⟩ : ∃ world, World.handle { defaultFollowFork := true } (.run 7) = .ok world ∧
      world.mpServerFindProcess 8 = none ∧
      ((world.controlFunc 3 { operation := .fork, pid := 7, newPid := 8 }).toOption.any fun result =>
        decide (result.2 = true ∧ result.1.mpServerFindProcess 8 = some 1)) = true :=
    exists_ok_of_any (by decide)
  obtain ⟨⟨later, response⟩, controlled, positive, present⟩ := exists_ok_of_any forked
  cases positive
  refine ⟨world, ⟨true, false, .tail .refl (.handle ran)⟩, absent, ⟨later, ?_, present⟩, failed_unread forkLp64 world 3⟩
  rw [controlInput_failed, forkLp64.loadFork_storeFork, controlled]
  rfl

end Memprof.Control
