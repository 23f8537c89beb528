import Memprof.Verified.CloneChains
import Memprof.Verified.Concurrent

/-! # The profile of a forked child

A child whose connection is accepted when its parent is told of all that came before the fork, and
of nothing after it, begins with the table and the number of its parent.  From there on it is as if
it had made the calls of its parent itself, and its parent goes on beside it.
-/

namespace Memprof.Concurrent

open Library Blocks Accounting Serving CloneGroups Memprof.Sequential Threads Nested CallTree FlatProfile Pipeline
  RoundTrip Delivery

variable {layout : Layout}

/-! ## The connection of a child -/

/-- What `control_func` does with the connection of a child, apart from its process and its entry. -/
theorem controlFunc_forks {world : World} {p : ProcId} {process : MPProcess} (found : world.process p = .ok process)
    {pid childPid : Pid} (listed : world.mpServerFindProcess pid = some p)
    (new : world.mpServerFindProcess childPid = none) (follow : process.followFork = true) {blocks : Store Block}
    {table : Option BlockTable} (copied : duplicateBlocks world.blocks process.blockTable = .ok (blocks, table))
    (channel : Channel) :
    ∃ later, world.controlFunc channel (newProcessInfo childPid pid .fork) = .ok (later, true) ∧
      later.blocks = blocks ∧ later.stashes = world.stashes ∧
      later.watches = ⟨world.lastTag + 1, channel, world.processes.length⟩ :: world.watches := by
  let child : MPProcess :=
    { status := .running, pid := childPid, parent := some p, seqno := process.seqno, bytesUsed := process.bytesUsed,
      nAllocations := process.nAllocations, inputTag := world.lastTag + 1, inputChannel := some channel,
      blockTable := table, followFork := world.defaultFollowFork, followExec := world.defaultFollowExec }
  refine ⟨{ world with
    blocks := blocks
    processes := world.processes ++ [child]
    pidTable := some ((world.pidTable.getD ∅).insert childPid world.processes.length)
    watches := ⟨world.lastTag + 1, channel, world.processes.length⟩ :: world.watches
    lastTag := world.lastTag + 1 }, ?_, rfl, rfl, rfl⟩
  simp only [World.controlFunc, newProcessInfo, listed, found, ok_bind, follow, if_true]
  simp only [World.controlNew, new, listed, World.forkProcess, World.processDuplicate, found, ok_bind, copied,
    World.processNew]
  simp [World.process, World.setProcess, World.mpServerAddProcess, World.mpServerProcessCreated, World.setStatus,
    World.acceptInput, World.processStartInput, ok_bind, child]

theorem process_kept {world later : World} {child : MPProcess}
    (processes : later.processes = world.processes ++ [child]) {p : ProcId} {process : MPProcess}
    (found : world.process p = .ok process) : later.process p = .ok process := by
  rw [World.process_eq_ok] at found ⊢
  rw [processes, List.getElem?_append_left (List.getElem?_eq_some_iff.mp found).1]
  exact found

/-- One process more leaves the others with the roots that they have. -/
theorem Feeds.append {root : ProcId} {world later : World} {watch : Watch} (feeds : Feeds root world watch)
    (served : Served world) (servedLater : Served later) {child : MPProcess}
    (processes : later.processes = world.processes ++ [child]) (watched : watch ∈ later.watches) :
    Feeds root later watch := by
  obtain ⟨process, found, _⟩ := served.watched watch feeds.1
  exact ⟨watched, rootOf_kept servedLater.older (keepsLinks_append processes) found feeds.2⟩

/-- The process `root` and its sources are as before. -/
def Spared (layout : Layout) (root : ProcId) (world later : World) : Prop :=
  (∀ told : List (Message layout), Gathers root told world → Gathers root told later) ∧
    ∀ watch, Feeds root world watch → Feeds root later watch

/-- The child begins with what the table of its parent tells, and with nothing in its queue. -/
theorem controlFunc_gathers {root : ProcId} {told taken : List (Message layout)} {world : World}
    (gathers : Gathers root told world) {process : MPProcess} (found : world.process root = .ok process)
    {arrived : List Command} (brings : List.Forall₂ (Brings world.stashes) arrived taken)
    (sequence : sequenced arrived = .ok ((contents world.blocks process.table, process.seqno), []))
    (follow : process.followFork = true) {pid childPid : Pid} (named : childPid ≠ 0)
    (listed : world.mpServerFindProcess pid = some root) (new : world.mpServerFindProcess childPid = none)
    {channel : Channel} (fresh : world.Fresh channel) :
    ∃ later, world.controlFunc channel (newProcessInfo childPid pid .fork) = .ok (later, true) ∧
      later.mpServerFindProcess childPid = some world.processes.length ∧
      Gathers world.processes.length taken later ∧
      Feeds world.processes.length later ⟨world.lastTag + 1, channel, world.processes.length⟩ ∧
      Spared layout root world later := by
  have sound := gathers.served.sound
  obtain ⟨blocks, table, copied, _, exchange⟩ := duplicateBlocks_ok (sound.coherent (World.mem_of_process found))
  obtain ⟨later, ran, blocksLater, stashes, watches⟩ := controlFunc_forks found listed new follow copied channel
  obtain ⟨later', child, ranNew, served, processes, _, seqno, childAlone, queue, _, tableLater, same⟩ :=
    @controlNew_fork _ gathers.served root process found channel fresh (newProcessInfo childPid pid .fork) named new
      listed
  have both : world.controlFunc channel (newProcessInfo childPid pid .fork) = .ok (later', true) := by
    simp only [World.controlFunc, newProcessInfo, listed, found, ok_bind, follow, if_true]
    exact ranNew
  rw [ran] at both
  cases both
  have made := process_of_append processes
  have reports : ∀ p other, later.process p = .ok other → ∀ command ∈ other.commandQueue,
      IsReport command.info.operation := by
    intro p other held command waiting
    rw [World.process_eq_ok, processes, getElem?_concat_iff] at held
    cases held with
    | inl old => exact gathers.reports p other (World.process_eq_ok.mpr old) command waiting
    | inr made =>
      rw [← made.2, queue] at waiting
      cases waiting
  refine ⟨later, ran, ?_, ⟨served, reports, child, arrived, made, childAlone, ?_, ?_⟩, ?_, ?_, ?_⟩
  · rw [World.mpServerFindProcess, tableLater]
    exact AList.lookup_insert _
  · rwa [stashes]
  · rw [queue, same, seqno]
    exact sequence
  · obtain ⟨own, _, rooted, _, _, isRoot⟩ := rootOf_ok served.older made
    exact ⟨by rw [watches]; exact List.mem_cons_self, by rw [rooted, isRoot childAlone]⟩
  · intro told' gathers'
    obtain ⟨_, arrived, found', alone', brings, sequence⟩ := gathers'.process
    rw [found] at found'
    cases found'
    have kept := process_kept processes found
    rw [← blocksLater] at exchange
    refine ⟨served, reports, process, arrived, kept, alone', by rwa [stashes], ?_⟩
    rw [contents_other sound served.sound exchange (World.mem_of_process found) (World.mem_of_process kept)]
    exact sequence
  · intro other feeds
    refine feeds.append gathers.served served processes ?_
    rw [watches]
    exact List.mem_cons_of_mem _ feeds.1

theorem origins_append {τ : Type} (events more : List (Event layout τ)) :
    origins (events ++ more) = origins events ++ origins more := by
  rw [origins, List.filterMap_append]
  rfl

section Writing

variable {τ : Type} [DecidableEq τ]

/-! ## A program and its child -/

/-- Threads that have not written yet. -/
theorem Consistent.joined {threads : List τ} {program : Program layout τ} {sent : List (τ × Message layout)}
    {lost : Finset Addr} (consistent : Consistent threads program sent lost) (childThreads : List τ) :
    Consistent (threads ++ childThreads) program sent lost :=
  { consistent with senders := fun entry member => List.mem_append_left _ (consistent.senders entry member) }

/-- A program that goes on. -/
theorem Consistent.continued {threads : List τ} {program later : Program layout τ} {sent : List (τ × Message layout)}
    {events more : List (Event layout τ)}
    (consistent : Consistent threads program sent (((origins events).map Origin.call).foldl strand ∅))
    (heap : program.heap = heapOf (origins events)) (known : ∀ event ∈ more, event.thread ∈ threads)
    (ordered : OrderedRun program more) (ran : program.run more = some later) :
    ∃ sentMore, Consistent threads later (sent ++ sentMore)
        (((origins (events ++ more)).map Origin.call).foldl strand ∅) ∧
      later.heap = heapOf (origins (events ++ more)) ∧ sentMore.length ≤ more.length := by
  obtain ⟨sentMore, consistentLater, heapLater, few⟩ := consistent.run known ordered ran
  rw [origins_append]
  refine ⟨sentMore, ?_, ?_, few⟩
  · rwa [List.map_append, List.foldl_append]
  · rw [heapLater, heap, heapOf, heapOf, effects, effects, effects, List.foldl_append]

/-- What a thread has written is changed by its own events only. -/
theorem step_other {program later : Program layout τ} {event : Event layout τ}
    (taken : program.step event = some later) {thread : τ} (other : event.thread ≠ thread) :
    later.calls thread = program.calls thread ∧ later.exit thread = program.exit thread := by
  have apart : thread ≠ event.thread := Ne.symm other
  cases event with
  | call thread' origin =>
    simp only [Program.step] at taken
    split at taken
    next => cases taken; exact ⟨rfl, rfl⟩
    next => cases taken
  | report thread' =>
    obtain ⟨origin, waiting, taken⟩ := Option.bind_eq_some_iff.mp taken
    split at taken
    next => cases taken; exact ⟨Function.update_of_ne apart _ _, rfl⟩
    next => cases taken
  | exit thread' pid =>
    simp only [Program.step] at taken
    split at taken
    next => cases taken; exact ⟨rfl, Function.update_of_ne apart _ _⟩
    next => cases taken

theorem run_other {program later : Program layout τ} {events : List (Event layout τ)}
    (ran : program.run events = some later) {thread : τ} (others : ∀ event ∈ events, event.thread ≠ thread) :
    later.calls thread = program.calls thread ∧ later.exit thread = program.exit thread := by
  induction events generalizing program with
  | nil =>
    cases ran
    exact ⟨rfl, rfl⟩
  | cons event events inductionHypothesis =>
    obtain ⟨next, taken, ran⟩ := Option.bind_eq_some_iff.mp ran
    obtain ⟨calls, exit⟩ := step_other taken (others event (by simp))
    obtain ⟨callsLater, exitLater⟩ := inductionHypothesis ran fun event member => others event (by simp [member])
    exact ⟨callsLater.trans calls, exitLater.trans exit⟩

/-- The messages of the parent and those of the child are those of a program that does both. -/
theorem Consistent.divided {threads childThreads : List τ} (distinct : (threads ++ childThreads).Nodup)
    {program child : Program layout τ} {sent sentAll : List (τ × Message layout)} {lost lostAll : Finset Addr}
    (parent : Consistent threads program sent lost) (all : Consistent (threads ++ childThreads) child sentAll lostAll)
    (same : ∀ thread ∈ threads, child.calls thread = program.calls thread ∧ child.exit thread = program.exit thread)
    {told : List (Message layout)} (whole : told.Perm (sent.map Prod.snd)) :
    (told ++ (childThreads.map fun thread => messages (child.calls thread) (child.exit thread)).flatten).Perm
      (sentAll.map Prod.snd) := by
  have before := parent.written.perm (List.nodup_append.mp distinct).1
  have both := all.written.perm distinct
  have unchanged : threads.map (fun thread => messages (child.calls thread) (child.exit thread)) =
      threads.map fun thread => messages (program.calls thread) (program.exit thread) :=
    List.map_congr_left fun thread member => by rw [(same thread member).1, (same thread member).2]
  rw [List.map_append, List.flatten_append, unchanged] at both
  exact ((whole.trans before.symm).append_right _).trans both

/-! ## From end to end -/

variable {σ μ : Type} [DecidableEq σ] {locate : μ → Addr → Option σ × μ}

/-- The profile of the process `root` is that of the blocks that the program has left, except those
whose last `realloc` failed. -/
def Profiles (locate : μ → Addr → Option σ × μ) (name : σ → String) (skipFuncs : List String)
    (symbolOf : Addr → σ) (maps : μ) (events : List (Event layout τ)) (program : Program layout τ) (root : ProcId)
    (world : World) : Prop :=
  ∃ addresses : List Addr, ∃ profiled maps' profile, addresses.Nodup ∧
    (∀ address, address ∈ addresses ↔
      program.heap.live address ≠ none ∧ address ∉ stranded ((origins events).map Origin.site)) ∧
    profileCreate locate name maps world root skipFuncs = .ok (profiled, maps', profile) ∧
    Denotes profile (keptSamples name skipFuncs symbolOf (addresses.map program.heap.sample)) ∧
    Flat profile (keptSamples name skipFuncs symbolOf (addresses.map program.heap.sample))

omit [DecidableEq τ] in
/-- The profile of a program that has left one block. -/
theorem Profiles.single {name : σ → String} {skipFuncs : List String} {symbolOf : Addr → σ} {maps : μ}
    {events : List (Event layout τ)} {program : Program layout τ} {root : ProcId} {world : World}
    (profiles : Profiles locate name skipFuncs symbolOf maps events program root world) {only : Addr}
    (left : ∀ address, program.heap.live address ≠ none ∧ address ∉ stranded ((origins events).map Origin.site) ↔
      address = only) :
    ∃ profiled maps' profile,
      profileCreate locate name maps world root skipFuncs = .ok (profiled, maps', profile) ∧
      Denotes profile (keptSamples name skipFuncs symbolOf [program.heap.sample only]) ∧
      Flat profile (keptSamples name skipFuncs symbolOf [program.heap.sample only]) := by
  obtain ⟨addresses, profiled, maps', profile, distinct, listed, made⟩ := profiles
  have single : addresses = [only] := by
    rw [← List.perm_singleton, List.perm_ext_iff_of_nodup distinct (List.nodup_singleton _)]
    intro address
    rw [listed, left, List.mem_singleton]
  rw [single] at made
  exact ⟨profiled, maps', profile, made⟩

end Writing

/-! ## A program that forks -/

def branching : List (Event lp64 Bool) :=
  [.call true ⟨.malloc 24 4096, 100, [16, 32], Object.zero _⟩, .report true]

/-- The parent frees the block that the child has inherited. -/
def branchingMore : List (Event lp64 Bool) :=
  [.call true ⟨.free 4096, 100, [16], Object.zero _⟩, .report true,
    .call true ⟨.malloc 8 12288, 100, [24, 32], Object.zero _⟩, .report true]

/-- The child moves the block of its parent. -/
def branchingChild : List (Event lp64 Bool) :=
  [.call false ⟨.realloc 4096 48 8192, 101, [20, 32], Object.zero _⟩, .report false, .exit false 101]

def branched : Program lp64 Bool := (Program.run {} branching).getD {}

def branchedParent : Program lp64 Bool := (branched.run branchingMore).getD {}

def branchedChild : Program lp64 Bool := (branched.run branchingChild).getD {}

/-- The server when it has read the first report of the parent. -/
def branchedProfiler : Profiler :=
  ((dispatchAll lp64 ⟨tracing true, branchedParent.inlets [true] (fun _ => ⟨1, 1, 0⟩) fun _ => [.sent 5, .eintr]⟩
    [{ inlet := 0, conditions := [] }]).toOption).getD ⟨{}, []⟩

theorem tracing_gathers : Gathers 0 ([] : List (Message lp64)) (tracing true) := by
  refine gathers_fresh (reachable_served (tracing_reachable true)) ?_
    (rfl : (tracing true).process 0 = .ok (traced true)) rfl rfl rfl
  intro process member
  rw [List.mem_singleton.mp member]
  rfl

end Memprof.Concurrent
