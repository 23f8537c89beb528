import Memprof.Intercept
import Memprof.Server
import Memprof.Verified.Accounting

/-! # What the server keeps straight

`Served` is the invariant of the server's control data: the sources belong to processes
with a channel, a channel to one process, the `pid_table` lists processes under their
pid, and `clone_of` leads to older processes.  Everything the main loop can do keeps it.
-/

namespace Memprof.Serving

open Library Blocks Accounting

/-- A trace as the caller of `stack_stash_add_trace` sees it. -/
def StackTrace (stashes : Store StackStash) : StackPtr → List Addr → Prop
  | none, frames => frames = []
  | some ref, frames => ∃ object, stashes.get ref.stash = some object ∧
      Stash.Trace object.nodes (some ref.node) frames

structure Served (world : World) : Prop where
  sound : Sound world
  watched : ∀ watch ∈ world.watches, ∃ process : MPProcess, world.process watch.process = .ok process ∧
    process.inputTag = watch.tag ∧ process.inputChannel = some watch.channel
  tagged : ∀ watch ∈ world.watches, 0 < watch.tag
  channels : ∀ (p q : ProcId) (process process' : MPProcess) (channel : Channel), world.process p = .ok process →
    world.process q = .ok process' → process.inputChannel = some channel →
    process'.inputChannel = some channel → p = q
  listed : ∀ pid p, world.mpServerFindProcess pid = some p →
    pid ≠ 0 ∧ ∃ process : MPProcess, world.process p = .ok process ∧ process.pid = pid
  older : Older world.processes MPProcess.cloneOf

theorem served_start (followFork followExec : Bool) :
    Served { defaultFollowFork := followFork, defaultFollowExec := followExec } where
  sound := sound_start
  watched _ member := by cases member
  tagged _ member := by cases member
  channels _ _ _ _ _ found := by cases found
  listed _ _ found := by cases found
  older _ _ _ held := by cases held

/-- One process changes, that keeps its pid and what it is a clone of: its own sources
fit it, and a channel it gets is nobody else's. -/
theorem Served.update {world later : World} (served : Served world) {p : ProcId} {process process' : MPProcess}
    (found : world.process p = .ok process) (processes : later.processes = world.processes.set p process')
    (watches : ∀ watch ∈ later.watches, (watch ∈ world.watches ∧ watch.process ≠ p) ∨
      (watch.process = p ∧ process'.inputTag = watch.tag ∧ process'.inputChannel = some watch.channel ∧ 0 < watch.tag))
    (channel : ∀ c, process'.inputChannel = some c → process.inputChannel = some c ∨
      ∀ q other, world.process q = .ok other → other.inputChannel ≠ some c)
    (listed : ∀ pid q, later.mpServerFindProcess pid = some q → world.mpServerFindProcess pid = some q)
    (pid : process'.pid = process.pid) (cloneOf : process'.cloneOf = process.cloneOf) (sound : Sound later) :
    Served later := by
  have here : later.process p = .ok process' := World.process_of_set found processes
  have elsewhere : ∀ q, q ≠ p → later.process q = world.process q := fun _ => World.process_of_set_ne processes
  refine ⟨sound, ?_, ?_, ?_, ?_, ?_⟩
  · intro watch member
    rcases watches watch member with ⟨old, other⟩ | ⟨own, tag, connected, _⟩
    · obtain ⟨owner, held, rest⟩ := served.watched watch old
      exact ⟨owner, by rw [elsewhere _ other, held], rest⟩
    · exact ⟨process', by rw [own, here], tag, connected⟩
  · intro watch member
    rcases watches watch member with ⟨old, _⟩ | ⟨_, _, _, positive⟩
    · exact served.tagged watch old
    · exact positive
  -- the one process that changed is the one whose channel could clash with another's
  · have apart : ∀ q other c, q ≠ p → later.process q = .ok other → other.inputChannel = some c →
        process'.inputChannel = some c → False := by
      intro q other c different held otherChannel ownChannel
      rw [elsewhere q different] at held
      rcases channel c ownChannel with kept | fresh
      · exact different (served.channels q p other process c held found otherChannel kept)
      · exact fresh q other held otherChannel
    intro q r left right c heldLeft heldRight leftChannel rightChannel
    by_cases leftHere : q = p <;> by_cases rightHere : r = p
    · rw [leftHere, rightHere]
    · rw [leftHere, here] at heldLeft
      cases heldLeft
      exact (apart r right c rightHere heldRight rightChannel leftChannel).elim
    · rw [rightHere, here] at heldRight
      cases heldRight
      exact (apart q left c leftHere heldLeft leftChannel rightChannel).elim
    · rw [elsewhere _ leftHere] at heldLeft
      rw [elsewhere _ rightHere] at heldRight
      exact served.channels q r left right c heldLeft heldRight leftChannel rightChannel
  · intro other q found'
    obtain ⟨named, original, held, samePid⟩ := served.listed other q (listed other q found')
    by_cases same : q = p
    · rw [same, found] at held
      cases held
      exact ⟨named, process', by rw [same, here], pid.trans samePid⟩
    · exact ⟨named, original, by rw [elsewhere q same, held], samePid⟩
  · rw [processes]
    exact served.older.set (World.process_eq_ok.mp found) cloneOf

/-- A process may change that keeps its pid, its input and what it is a clone of. -/
theorem Served.replace {world later : World} (served : Served world) {p : ProcId} {process process' : MPProcess}
    (found : world.process p = .ok process) (replaces : Replaces world p process' later)
    (watches : later.watches = world.watches) (pid : process'.pid = process.pid)
    (inputTag : process'.inputTag = process.inputTag) (inputChannel : process'.inputChannel = process.inputChannel)
    (cloneOf : process'.cloneOf = process.cloneOf) (sound : Sound later) : Served later := by
  refine served.update found replaces.processes ?_ (fun c connected => .inl (inputChannel ▸ connected)) ?_ pid cloneOf
    sound
  · intro watch member
    rw [watches] at member
    by_cases own : watch.process = p
    · obtain ⟨owner, held, tag, connected⟩ := served.watched watch member
      rw [own, found] at held
      cases held
      exact .inr ⟨own, inputTag.trans tag, inputChannel.trans connected, served.tagged watch member⟩
    · exact .inl ⟨member, own⟩
  · intro other q
    rw [World.mpServerFindProcess, World.mpServerFindProcess, replaces.pidTable]
    exact id

/-! ## `input_func` -/

theorem addStack_ok {world : World} (sound : Sound world) {p : ProcId} {process : MPProcess}
    (found : world.process p = .ok process) (frames : List Addr) :
    ∃ later stack stash, world.addStack p frames = .ok (later, stack) ∧
      Replaces world p { process with stackStash := some stash } later ∧ later.watches = world.watches ∧
      later.blocks = world.blocks ∧ Sound later ∧ StackTrace later.stashes stack frames := by
  obtain ⟨ready, stash, ranGet, replaces, watches, blocks, soundReady⟩ := getStackStash_ok sound found
  have member : { process with stackStash := some stash } ∈ ready.processes :=
    World.mem_of_process (replaces.found found)
  have holder : [stash] ∈ ready.processes.map fun process => process.stackStash.toList :=
    List.mem_map.mpr ⟨_, member, rfl⟩
  -- the process holds a reference to its stash, so the stash is still allocated
  obtain ⟨object, live⟩ := Store.exists_get_of_refs_pos
    (soundReady.sharedStashes.refs_pos holder (List.mem_singleton.mpr rfl))
  obtain ⟨object', start, ranAdd, linked, grows, traced⟩ :=
    Stash.addTrace_spec (soundReady.linked stash object live) frames (-1)
  have inside := Store.lt_size_of_get live
  have heldNow : (ready.stashes.put stash object').get stash = some object' := by
    rw [Store.get_put inside, if_pos rfl]
  refine ⟨{ ready with stashes := ready.stashes.put stash object' }, start.map (StackNodeRef.mk stash), stash, ?_,
    ⟨replaces.processes, replaces.pidTable, replaces.defaultFollowFork, replaces.defaultFollowExec⟩, watches, blocks,
    ⟨soundReady.sharedBlocks, soundReady.sharedStashes.put live grows.refCount, ?_, soundReady.keyed,
      soundReady.nonNull, soundReady.accounts⟩, ?_⟩
  · simp only [World.addStack, ranGet, live, ranAdd, Bind.bind, Except.bind]
  · intro other object'' held
    rw [Store.get_put inside] at held
    split at held
    · cases held; exact linked
    · exact soundReady.linked other object'' held
  · cases start with
    | none => cases traced; rfl
    | some n => exact ⟨object', heldNow, traced⟩

theorem isReport_of_carries {operation : MIOperation} (carries : CarriesStack operation) : IsReport operation := by
  rcases carries with is | is | is | is <;> rw [is] <;> trivial

theorem prepareInput_of_carries {info : MIInfo} (carries : CarriesStack info.operation) (world : World) (input : ProcId)
    (frames : List Addr) : world.prepareInput input info frames = world.addStack input frames := by
  unfold World.prepareInput
  rcases carries with is | is | is | is <;> rw [is]

/-- What `prepareInput` may change of a process. -/
def Prepared (process process' : MPProcess) : Prop :=
  process' = { process with status := process'.status, stackStash := process'.stackStash }

theorem prepareInput_ok {world : World} (sound : Sound world) {input : ProcId} {process : MPProcess}
    (found : world.process input = .ok process) {channel : Channel} (open_ : process.inputChannel = some channel)
    (info : MIInfo) (frames : List Addr) :
    ∃ later stack process', world.prepareInput input info frames = .ok (later, stack) ∧
      Replaces world input process' later ∧ Prepared process process' ∧ later.watches = world.watches ∧
      later.blocks = world.blocks ∧ Sound later := by
  have added : ∃ later stack process', world.addStack input frames = .ok (later, stack) ∧
      Replaces world input process' later ∧ Prepared process process' ∧ later.watches = world.watches ∧
      later.blocks = world.blocks ∧ Sound later := by
    obtain ⟨later, stack, stash, ran, replaces, watches, blocks, kept, _⟩ := addStack_ok sound found frames
    exact ⟨later, stack, _, ran, replaces, rfl, watches, blocks, kept⟩
  have unchanged : Replaces world input process world := by
    have same := replaces_setProcess world input process
    rwa [World.setProcess_self found] at same
  unfold World.prepareInput
  cases info.operation with
  | malloc | realloc | free | time => exact added
  -- only the reports of blocks and times carry a stack
  | exec | new | fork | clone | other _ _ => exact ⟨world, none, process, rfl, unchanged, rfl, rfl, rfl, sound⟩
  | exit =>
    obtain ⟨process', spelled⟩ : ∃ process' : MPProcess, process' = { process with status := .exiting } := ⟨_, rfl⟩
    have exiting := World.process_setProcess_self found process'
    have status : process'.status = .exiting := by rw [spelled]
    have connected : process'.inputChannel = some channel := by rw [spelled]; exact open_
    -- an exit is read from an open channel, so the process is not detached by it
    have detached : (world.setProcess input process').processDetach input = .ok (world.setProcess input process') := by
      simp [World.processDetach, exiting, status, connected, Bind.bind, Except.bind]
    refine ⟨world.setProcess input process', none, process', ?_, replaces_setProcess _ _ _, by rw [spelled]; rfl, rfl,
      rfl, sound.setProcess found (by rw [spelled]; rfl) (by rw [spelled]) (by rw [spelled]) (by rw [spelled])⟩
    simp only [World.setStatus, found, ← spelled, exiting, detached, Bind.bind, Except.bind]
    cases process'.cloneOf <;> rfl

theorem rootOf_ok {world : World} (older : Older world.processes MPProcess.cloneOf) {p : ProcId} {process : MPProcess}
    (found : world.process p = .ok process) :
    ∃ root rootProcess, world.rootOf p = .ok root ∧ world.process root = .ok rootProcess ∧
      rootProcess.cloneOf = none ∧ (process.cloneOf = none → root = p) := by
  rw [World.process_eq_ok] at found
  have inside : ∀ i ∈ some p, i < world.processes.length := by
    intro i same
    cases same
    exact (List.getElem?_eq_some_iff.mp found).1
  obtain ⟨list, chain, _, short⟩ := exists_chain older inside
  obtain ⟨last, member, node, held, ended⟩ := chain.exists_end
  cases first : list.find? fun i => world.processes[i]?.any fun process => process.cloneOf.isNone with
  | none =>
    have absent := List.find?_eq_none.mp first last member
    simp [held, ended] at absent
  | some root =>
    have tested := List.find?_some first
    obtain ⟨rootProcess, heldRoot⟩ : ∃ rootProcess, world.processes[root]? = some rootProcess := by
      cases held' : world.processes[root]? with
      | none => rw [held'] at tested; cases tested
      | some rootProcess => exact ⟨rootProcess, rfl⟩
    rw [heldRoot] at tested
    refine ⟨root, rootProcess, ?_, World.process_eq_ok.mpr heldRoot, by simpa using tested, fun alone => ?_⟩
    · rw [World.rootOf, search_eq chain _ short, first]
    · cases chain with
      | cons held' _ =>
        rw [found] at held'
        cases held'
        rw [List.find?_cons_of_pos (by simp [found, alone])] at first
        exact (Option.some.inj first).symm

/-- The root of a process depends on the links between the processes only. -/
theorem rootOf_congr {world later : World}
    (same : later.processes.map MPProcess.cloneOf = world.processes.map MPProcess.cloneOf) (p : ProcId) :
    later.rootOf p = world.rootOf p := by
  have view : ∀ processes : List MPProcess,
      search processes MPProcess.cloneOf (·.cloneOf.isNone) processes.length (some p) =
        search (processes.map MPProcess.cloneOf) id Option.isNone (processes.map MPProcess.cloneOf).length (some p) := by
    intro processes
    rw [search_map, List.length_map]
    rfl
  rw [World.rootOf, World.rootOf, view, view, same]

theorem links_set {world later : World} {p : ProcId} {process process' : MPProcess}
    (found : world.process p = .ok process) (processes : later.processes = world.processes.set p process')
    (cloneOf : process'.cloneOf = process.cloneOf) :
    later.processes.map MPProcess.cloneOf = world.processes.map MPProcess.cloneOf := by
  obtain ⟨inside, here⟩ := List.getElem?_eq_some_iff.mp (World.process_eq_ok.mp found)
  rw [processes, List.map_set, cloneOf, ← here]
  apply List.ext_getElem
  · simp
  · intro i _ _
    by_cases same : p = i
    · subst same; simp
    · simp [List.getElem_set_ne same]

theorem inputMessage_ensures {world : World} (served : Served world) {watch : Watch}
    (member : watch ∈ world.watches) (info : MIInfo) (frames : List Addr) :
    Ensures (· = .assertion) (world.inputMessage watch.process info frames) Served := by
  obtain ⟨process, found, _, open_⟩ := served.watched watch member
  obtain ⟨ready, stack, process', ranPrepare, replaces, prepared, watches, _, soundReady⟩ :=
    prepareInput_ok served.sound found open_ info frames
  have servedReady : Served ready := served.replace found replaces watches (by rw [prepared]) (by rw [prepared])
    (by rw [prepared]) (by rw [prepared]) soundReady
  obtain ⟨root, rootProcess, ranRoot, foundRoot, _⟩ := rootOf_ok servedReady.older (replaces.found found)
  have commanded : Ensures (· = .assertion) (ready.command root info stack) _ :=
    command_ensures soundReady foundRoot info stack fun _ _ => .inr rfl
  have applied : Ensures (· = .assertion) (ready.command root info stack) Served :=
    commanded.imp fun later ⟨rootProcess', replacesRoot, watchesRoot, same, _, soundLater⟩ =>
      servedReady.replace foundRoot replacesRoot watchesRoot (by rw [same]) (by rw [same]) (by rw [same])
        (by rw [same]) soundLater
  unfold World.inputMessage
  simp only [ranPrepare, ranRoot, Bind.bind, Except.bind]
  exact applied

/-- The sources that stay when those of a tag go belong to other processes. -/
theorem Served.filter_watches {world : World} (served : Served world) {p : ProcId} {process : MPProcess}
    (found : world.process p = .ok process) {watch : Watch}
    (member : watch ∈ world.watches.filter (·.tag ≠ process.inputTag)) :
    watch ∈ world.watches ∧ watch.process ≠ p := by
  obtain ⟨old, other⟩ := List.mem_filter.mp member
  refine ⟨old, fun own => ?_⟩
  obtain ⟨owner, held, tag, _⟩ := served.watched watch old
  rw [own, found] at held
  cases held
  exact (of_decide_eq_true other) tag.symm

/-- The `pid_table` without process `p`, if it is there under this pid. -/
def unlisted (world : World) (pid : Pid) (p : ProcId) : Option (HashTable Pid ProcId) :=
  world.pidTable.map fun table => if table.lookup pid = some p then table.erase pid else table

theorem lookup_unlisted {world : World} {pid other : Pid} {p q : ProcId}
    (listed : { world with pidTable := unlisted world pid p }.mpServerFindProcess other = some q) :
    world.mpServerFindProcess other = some q := by
  unfold World.mpServerFindProcess unlisted at *
  cases table : world.pidTable with
  | none => rw [table] at listed; cases listed
  | some entries =>
    simp only [table, Option.map_some] at listed ⊢
    split at listed
    · by_cases same : other = pid
      · rw [same, AList.lookup_erase] at listed; cases listed
      · rwa [AList.lookup_erase_ne same] at listed
    · exact listed

theorem mpServerRemoveProcess_eq {world : World} {p : ProcId} {process : MPProcess}
    (found : world.process p = .ok process) :
    world.mpServerRemoveProcess p = .ok { world with pidTable := unlisted world process.pid p } := by
  unfold World.mpServerRemoveProcess unlisted
  simp only [found, Bind.bind, Except.bind]
  cases table : world.pidTable with
  | none =>
    show Except.ok world = Except.ok { world with pidTable := none }
    rw [← table]
  | some entries =>
    simp only [Option.map_some]
    split
    · rfl
    · rw [← table]

/-- A process after the end of its channel. -/
def ended (process : MPProcess) : MPProcess := { process with inputChannel := none, status := .defunct }

theorem inputEof_eq {world : World} {watch : Watch} {process : MPProcess}
    (found : world.process watch.process = .ok process) :
    world.inputEof watch = .ok { world with
      processes := world.processes.set watch.process (ended process)
      pidTable := unlisted world process.pid watch.process
      watches := world.watches.filter (·.tag ≠ watch.tag) } := by
  obtain ⟨closed, spelled⟩ : ∃ closed, closed = world.setProcess watch.process { process with inputChannel := none } :=
    ⟨_, rfl⟩
  have foundClosed : closed.process watch.process = .ok { process with inputChannel := none } := by
    rw [spelled]; exact World.process_setProcess_self found _
  have removed := mpServerRemoveProcess_eq foundClosed
  obtain ⟨listed, spelledListed⟩ : ∃ listed, listed = { closed with
      pidTable := unlisted closed process.pid watch.process } := ⟨_, rfl⟩
  have foundListed : listed.process watch.process = .ok { process with inputChannel := none } := by
    rw [spelledListed]; exact foundClosed
  simp only [World.inputEof, found, ← spelled, removed, ← spelledListed, World.setStatus, foundListed, Bind.bind,
    Except.bind]
  rw [spelledListed, spelled, World.setProcess, World.setProcess, List.set_set]
  rfl

theorem inputEof_ok {world : World} (served : Served world) {watch : Watch} (member : watch ∈ world.watches)
    {process : MPProcess} (found : world.process watch.process = .ok process) :
    ∃ later, world.inputEof watch = .ok later ∧ Served later ∧
      later.processes = world.processes.set watch.process (ended process) ∧
      later.pidTable = unlisted world process.pid watch.process ∧
      later.watches = world.watches.filter (·.tag ≠ watch.tag) := by
  obtain ⟨owner, held, tag, connected⟩ := served.watched watch member
  rw [found] at held
  cases held
  have soundEnded : Sound (world.setProcess watch.process (ended process)) :=
    served.sound.setProcess found rfl rfl rfl rfl
  have soundLater : Sound { world with
      processes := world.processes.set watch.process (ended process)
      pidTable := unlisted world process.pid watch.process
      watches := world.watches.filter (·.tag ≠ watch.tag) } := soundEnded
  refine ⟨_, inputEof_eq found, ?_, rfl, rfl, rfl⟩
  refine served.update found rfl (fun other member' => ?_) (fun c connected => by cases connected)
    (fun other q listed => lookup_unlisted listed) rfl rfl soundLater
  rw [← tag] at member'
  exact .inl (served.filter_watches found member')

/-! ## Sources -/

theorem Served.unwatched {world : World} (served : Served world) {p : ProcId} {process : MPProcess}
    (found : world.process p = .ok process) (idle : process.inputTag = 0) {watch : Watch}
    (member : watch ∈ world.watches) : watch.process ≠ p := by
  intro own
  obtain ⟨owner, held, tag, _⟩ := served.watched watch member
  rw [own, found] at held
  cases held
  exact absurd (served.tagged watch member) (by omega)

theorem Served.stopped {world : World} (served : Served world) {p : ProcId} {process : MPProcess}
    (found : world.process p = .ok process) {watch : Watch} (member : watch ∈ stopped world process) :
    watch ∈ world.watches ∧ watch.process ≠ p := by
  unfold Accounting.stopped at member
  split at member
  next idle => exact ⟨member, served.unwatched found idle member⟩
  next => exact served.filter_watches found member

/-- A process loses its source. -/
theorem Served.stop {world later : World} (served : Served world) {p : ProcId} {process process' : MPProcess}
    (found : world.process p = .ok process) (replaces : Replaces world p process' later)
    (watches : later.watches = Accounting.stopped world process)
    (channel : ∀ c, process'.inputChannel = some c → process.inputChannel = some c) (pid : process'.pid = process.pid)
    (cloneOf : process'.cloneOf = process.cloneOf) (sound : Sound later) : Served later := by
  refine served.update found replaces.processes ?_ (fun c connected => .inl (channel c connected)) ?_ pid cloneOf sound
  · intro watch member
    rw [watches] at member
    exact .inl (served.stopped found member)
  · intro pid q
    rw [World.mpServerFindProcess, World.mpServerFindProcess, replaces.pidTable]
    exact id

theorem processStopInput_served {world : World} (served : Served world) {p : ProcId} {process : MPProcess}
    (found : world.process p = .ok process) : ∃ later, world.processStopInput p = .ok later ∧ Served later := by
  obtain ⟨later, ran, replaces, watches, sound⟩ := processStopInput_ok served.sound found
  exact ⟨later, ran, served.stop found replaces watches (fun _ => id) rfl rfl sound⟩

theorem processReinit_served {world : World} (served : Served world) {p : ProcId} {process : MPProcess}
    (found : world.process p = .ok process) :
    ∃ later, world.processReinit p = .ok later ∧ Replaces world p (reinitialized process) later ∧
      later.watches = stopped world process ∧ Served later := by
  obtain ⟨later, ran, replaces, watches, sound⟩ := processReinit_ok served.sound found
  exact ⟨later, ran, replaces, watches, served.stop found replaces watches nofun rfl rfl sound⟩

theorem processClearInput_served {world : World} (served : Served world) {p : ProcId} {process : MPProcess}
    (found : world.process p = .ok process) :
    ∃ later, world.processClearInput p = .ok later ∧ Served later := by
  obtain ⟨later, ran, replaces, watches, sound⟩ := dropBlocks_ok served.sound found
  exact ⟨later, ran, served.replace found replaces watches rfl rfl rfl rfl sound⟩

/-- A process with its source. -/
def attached (process : MPProcess) (channel : Channel) (tag : ℕ) : MPProcess :=
  { process with inputChannel := some channel, inputTag := tag }

theorem processStartInput_served {world : World} (served : Served world) {p : ProcId} {process : MPProcess}
    (found : world.process p = .ok process) :
    ∃ later, world.processStartInput p = .ok later ∧ Served later := by
  unfold World.processStartInput
  rw [found, ok_bind]
  split
  next channel idle connected =>
    refine ⟨_, rfl, served.update found rfl ?_ (fun c same => .inl same) (fun _ _ => id) rfl rfl
      (served.sound.setProcess found rfl rfl rfl rfl)⟩
    intro watch member
    rcases List.mem_cons.mp member with rfl | old
    · exact .inr ⟨rfl, rfl, connected, Nat.succ_pos _⟩
    · exact .inl ⟨old, served.unwatched found idle old⟩
  next => exact ⟨world, rfl, served⟩

theorem acceptInput_ok {world : World} (served : Served world) {p : ProcId} {process : MPProcess}
    (found : world.process p = .ok process) (idle : process.inputTag = 0) {channel : Channel}
    (fresh : World.Fresh world channel) :
    ∃ later, world.acceptInput p channel = .ok (later, true) ∧ Served later ∧
      later.processes = world.processes.set p (attached process channel (world.lastTag + 1)) ∧
      later.watches = ⟨world.lastTag + 1, channel, p⟩ :: world.watches ∧ later.blocks = world.blocks ∧
      later.pidTable = world.pidTable := by
  obtain ⟨connected, spelled⟩ :
      ∃ connected, connected = world.setProcess p { process with inputChannel := some channel } :=
    ⟨_, rfl⟩
  have foundConnected : connected.process p = .ok { process with inputChannel := some channel } := by
    rw [spelled]; exact World.process_setProcess_self found _
  have processes : (connected.setProcess p (attached process channel (world.lastTag + 1))).processes =
      world.processes.set p (attached process channel (world.lastTag + 1)) := by
    simp [spelled, World.setProcess]
  have soundConnected : Sound connected := by
    rw [spelled]; exact served.sound.setProcess found rfl rfl rfl rfl
  refine ⟨{ connected with
      watches := ⟨world.lastTag + 1, channel, p⟩ :: world.watches
      lastTag := world.lastTag + 1 }.setProcess p (attached process channel (world.lastTag + 1)), ?_, ?_, processes,
    rfl, by rw [spelled]; rfl, by rw [spelled]; rfl⟩
  · have watches : connected.watches = world.watches := by rw [spelled]; rfl
    have lastTag : connected.lastTag = world.lastTag := by rw [spelled]; rfl
    have started : connected.processStartInput p = .ok ({ connected with
        watches := ⟨world.lastTag + 1, channel, p⟩ :: world.watches
        lastTag := world.lastTag + 1 }.setProcess p (attached process channel (world.lastTag + 1))) := by
      unfold World.processStartInput
      rw [foundConnected, ok_bind, watches, lastTag]
      split
      next _ same => cases same; rfl
      next other => exact (other channel idle rfl).elim
    unfold World.acceptInput
    rw [found, ok_bind, ← spelled, started, ok_bind]
  · refine served.update found processes ?_ ?_ ?_ rfl rfl (soundConnected.setProcess foundConnected rfl rfl rfl rfl)
    · intro watch member
      rcases List.mem_cons.mp member with rfl | old
      · exact .inr ⟨rfl, rfl, rfl, Nat.succ_pos _⟩
      · exact .inl ⟨old, served.unwatched found idle old⟩
    · intro c same
      cases same
      exact .inr fresh
    · intro pid q listed
      rwa [spelled] at listed

/-! ## `control_func` -/

theorem process_of_append {world : World} {processes : List MPProcess} {process : MPProcess}
    (appended : world.processes = processes ++ [process]) : world.process processes.length = .ok process := by
  rw [World.process_eq_ok, appended]
  simp

theorem set_of_append {world : World} {processes : List MPProcess} {process : MPProcess}
    (appended : world.processes = processes ++ [process]) (process' : MPProcess) :
    (world.setProcess processes.length process').processes = processes ++ [process'] := by
  simp [World.setProcess, appended]

/-- A process is added, without input yet, and may be listed under its pid. -/
theorem Served.append {world later : World} (served : Served world) {process : MPProcess}
    (appended : later.processes = world.processes ++ [process]) (watches : later.watches = world.watches)
    (closed : process.inputChannel = none) (cloneOf : ∀ q ∈ process.cloneOf, q < world.processes.length)
    (listed : ∀ pid q, later.mpServerFindProcess pid = some q → world.mpServerFindProcess pid = some q ∨
      (q = world.processes.length ∧ process.pid = pid ∧ pid ≠ 0))
    (sound : Sound later) : Served later := by
  have old : ∀ q other, world.process q = .ok other → later.process q = .ok other := by
    intro q other held
    rw [World.process_eq_ok] at held ⊢
    rw [appended, List.getElem?_append_left (List.getElem?_eq_some_iff.mp held).1, held]
  have back : ∀ q other, later.process q = .ok other → world.process q = .ok other ∨ other = process := by
    intro q other held
    rw [World.process_eq_ok] at held ⊢
    rw [appended] at held
    rcases Nat.lt_or_ge q world.processes.length with inside | outside
    · rw [List.getElem?_append_left inside] at held; exact .inl held
    · rw [List.getElem?_append_right outside] at held
      exact .inr (by simpa using List.mem_of_getElem? held)
  refine ⟨sound, ?_, ?_, ?_, ?_, by rw [appended]; exact served.older.append cloneOf⟩
  · intro watch member
    rw [watches] at member
    obtain ⟨owner, held, rest⟩ := served.watched watch member
    exact ⟨owner, old _ owner held, rest⟩
  · intro watch member
    rw [watches] at member
    exact served.tagged watch member
  · intro q r left right c heldLeft heldRight leftChannel rightChannel
    rcases back q left heldLeft with oldLeft | rfl
    · rcases back r right heldRight with oldRight | rfl
      · exact served.channels q r left right c oldLeft oldRight leftChannel rightChannel
      · rw [closed] at rightChannel; cases rightChannel
    · rw [closed] at leftChannel; cases leftChannel
  · intro pid q found
    rcases listed pid q found with known | ⟨rfl, same, named⟩
    · obtain ⟨named, original, held, samePid⟩ := served.listed pid q known
      exact ⟨named, original, old q original held, samePid⟩
    · exact ⟨named, process, process_of_append appended, same⟩

/-- A channel that no process has is none of an added process without input. -/
theorem fresh_append {world later : World} {channel : Channel} (fresh : World.Fresh world channel) {process : MPProcess}
    (appended : later.processes = world.processes ++ [process]) (closed : process.inputChannel = none) :
    World.Fresh later channel := by
  intro q other held same
  rw [World.process_eq_ok, appended] at held
  rcases Nat.lt_or_ge q world.processes.length with inside | outside
  · rw [List.getElem?_append_left inside] at held
    exact fresh q other (World.process_eq_ok.mpr held) same
  · rw [List.getElem?_append_right outside] at held
    have new : other = process := by simpa using List.mem_of_getElem? held
    rw [new, closed] at same
    cases same

theorem setStatus_eq {world : World} {p : ProcId} {process : MPProcess} (found : world.process p = .ok process)
    (status : MPProcessStatus) :
    world.setStatus p status = .ok (world.setProcess p { process with status := status }) := by
  unfold World.setStatus
  rw [found, ok_bind]

theorem mpServerAddProcess_eq {world : World} {p : ProcId} {process : MPProcess}
    (found : world.process p = .ok process) :
    world.mpServerAddProcess p =
      .ok { world with pidTable := some ((world.pidTable.getD ∅).insert process.pid p) } := by
  unfold World.mpServerAddProcess
  rw [found, ok_bind]

theorem mpServerProcessCreated_eq {world : World} {p : ProcId} {process : MPProcess}
    (found : world.process p = .ok process) :
    world.mpServerProcessCreated p = .ok (world.setProcess p { process with
      followFork := world.defaultFollowFork
      followExec := world.defaultFollowExec }) := by
  unfold World.mpServerProcessCreated
  rw [found, ok_bind]

theorem find_insert {world : World} {pid other : Pid} {p q : ProcId}
    (listed : { world with pidTable := some ((world.pidTable.getD ∅).insert pid p) }.mpServerFindProcess other =
      some q) : world.mpServerFindProcess other = some q ∨ (q = p ∧ pid = other) := by
  change ((world.pidTable.getD ∅).insert pid p).lookup other = some q at listed
  unfold World.mpServerFindProcess
  by_cases same : other = pid
  · rw [same, AList.lookup_insert] at listed
    exact .inr ⟨(Option.some.inj listed).symm, same.symm⟩
  · rw [AList.lookup_insert_ne same] at listed
    cases table : world.pidTable with
    | none => rw [table] at listed; cases listed
    | some entries => rw [table] at listed; exact .inl listed

/-- A process made at the end is given its pid and is listed under it. -/
theorem register_ok {world made : World} (served : Served world) {process : MPProcess} (process' : MPProcess)
    (appended : made.processes = world.processes ++ [process]) (watches : made.watches = world.watches)
    (table : made.pidTable = world.pidTable) (sound : Sound made)
    (same : process'.table = process.table ∧ process'.nAllocations = process.nAllocations ∧
      process'.bytesUsed = process.bytesUsed ∧ process'.stackStash = process.stackStash)
    (closed : process'.inputChannel = none) (cloneOf : ∀ q ∈ process'.cloneOf, q < world.processes.length)
    (named : process'.pid ≠ 0) :
    ∃ later, (made.setProcess world.processes.length process').mpServerAddProcess world.processes.length = .ok later ∧
      Served later ∧ later.processes = world.processes ++ [process'] ∧ later.watches = world.watches ∧
      later.blocks = made.blocks ∧
        later.pidTable = some ((world.pidTable.getD ∅).insert process'.pid world.processes.length) := by
  have found := process_of_append appended
  have processes := set_of_append appended process'
  refine ⟨_, mpServerAddProcess_eq (process_of_append processes), ?_, processes, watches, rfl, ?_⟩
  · refine served.append processes watches closed cloneOf (fun pid q listed => ?_)
      (sound.setProcess found same.1 same.2.1 same.2.2.1 same.2.2.2)
    rcases find_insert listed with known | ⟨rfl, samePid⟩
    · rw [World.mpServerFindProcess] at known ⊢
      rw [← table]
      exact .inl known
    · exact .inr ⟨rfl, samePid, samePid ▸ named⟩
  · show some ((made.pidTable.getD ∅).insert process'.pid world.processes.length) = _
    rw [table]

/-- `process_created_cb` gives a process its flags. -/
theorem created_ok {world : World} (served : Served world) {p : ProcId} {process : MPProcess}
    (found : world.process p = .ok process) :
    ∃ later process', world.mpServerProcessCreated p = .ok later ∧ Served later ∧ Replaces world p process' later ∧
      later.watches = world.watches ∧ later.blocks = world.blocks ∧
      process' = { process with followFork := process'.followFork, followExec := process'.followExec } := by
  refine ⟨_, _, mpServerProcessCreated_eq found, ?_, replaces_setProcess _ _ _, rfl, rfl, rfl⟩
  exact served.replace found (replaces_setProcess _ _ _) rfl rfl rfl rfl rfl (served.sound.setProcess found rfl rfl rfl rfl)

/-- With `--follow-exec` the new image gets a process of its own. -/
theorem reuseProcess_follow {world : World} (served : Served world) {p : ProcId} {old : MPProcess}
    (found : world.process p = .ok old) (follow : old.followExec = true) (named : old.pid ≠ 0) :
    ∃ later process, world.reuseProcess p = .ok (later, world.processes.length) ∧ Served later ∧
      later.processes = world.processes ++ [process] ∧ process.inputTag = 0 ∧ process.inputChannel = none ∧
      process.pid = old.pid ∧ process.cloneOf = none ∧
      later.pidTable = some ((world.pidTable.getD ∅).insert old.pid world.processes.length) := by
  have made : world.processNew.1.processes = world.processes ++ [({} : MPProcess)] := rfl
  obtain ⟨registered, ranAdd, servedAdd, processes, _, _, table⟩ := register_ok served
    { pid := old.pid, parent := old.parent }
    made rfl rfl served.sound.processNew ⟨rfl, rfl, rfl, rfl⟩ rfl (fun q same => nomatch same) named
  have fresh : world.processNew.1.process world.processes.length = .ok {} := process_of_append rfl
  have foundAdd := process_of_append processes
  obtain ⟨later, process, ranCreated, servedLater, replaces, _, _, same⟩ := created_ok servedAdd foundAdd
  refine ⟨later, process, ?_, servedLater, ?_, by rw [same], by rw [same], by rw [same], by rw [same],
    replaces.pidTable.trans table⟩
  · unfold World.reuseProcess
    rw [found, ok_bind, if_pos follow]
    show (world.processNew.1.process world.processes.length >>= _) = _
    rw [fresh, ok_bind]
    show ((world.processNew.1.setProcess world.processes.length
      { pid := old.pid, parent := old.parent }).mpServerAddProcess world.processes.length >>= _) = _
    rw [ranAdd, ok_bind, ranCreated, ok_bind]
  · rw [replaces.processes, processes]
    simp

/-- Without it the process starts again. -/
theorem reuseProcess_reset {world : World} (served : Served world) {p : ProcId} {old : MPProcess}
    (found : world.process p = .ok old) (follow : old.followExec = false) :
    ∃ later, world.reuseProcess p = .ok (later, p) ∧ Served later ∧
      Replaces world p (reinitialized old) later ∧ later.watches = stopped world old := by
  obtain ⟨later, ran, replaces, watches, servedLater⟩ := processReinit_served served found
  refine ⟨later, ?_, servedLater, replaces, watches⟩
  unfold World.reuseProcess World.processExecReset
  rw [found, ok_bind, if_neg (by simp [follow]), ran, ok_bind]

/-- The process of a forked child, as a duplicate of its parent. -/
theorem forkProcess_ok {world : World} (served : Served world) {p : ProcId} {process : MPProcess}
    (found : world.process p = .ok process) {newPid : Pid} (named : newPid ≠ 0) :
    ∃ later child, world.forkProcess p newPid = .ok (later, world.processes.length) ∧ Served later ∧
      later.processes = world.processes ++ [child] ∧ later.watches = world.watches ∧
      child.inputTag = 0 ∧ child.inputChannel = none ∧ child.seqno = process.seqno ∧ child.cloneOf = none ∧
      child.commandQueue = [] ∧ child.pid = newPid ∧
      later.pidTable = some ((world.pidTable.getD ∅).insert newPid world.processes.length) ∧
      contents later.blocks child.table = contents world.blocks process.table := by
  obtain ⟨copied, copy, ranCopy, processesCopy, watchesCopy, tableCopy, _, same, soundCopy⟩ :=
    processDuplicate_ok served.sound found
  obtain ⟨registered, ranAdd, servedAdd, processes, watches, blocks, table⟩ :=
    register_ok served { duplicated p process copy with pid := newPid } processesCopy watchesCopy tableCopy soundCopy
      ⟨rfl, rfl, rfl, rfl⟩ rfl (fun q same => nomatch same) named
  have foundAdd := process_of_append processes
  obtain ⟨later, child, ranCreated, servedLater, replaces, watchesLater, blocksLater, sameChild⟩ :=
    created_ok servedAdd foundAdd
  refine ⟨later, child, ?_, servedLater, ?_, watchesLater.trans watches, by rw [sameChild]; rfl, by rw [sameChild]; rfl,
    by rw [sameChild]; rfl, by rw [sameChild]; rfl, by rw [sameChild]; rfl, by rw [sameChild], ?_, ?_⟩
  · unfold World.forkProcess
    rw [ranCopy, ok_bind]
    show (copied.process world.processes.length >>= _) = _
    rw [process_of_append processesCopy, ok_bind]
    show ((copied.setProcess world.processes.length
      { duplicated p process copy with pid := newPid }).mpServerAddProcess world.processes.length >>= _) = _
    rw [ranAdd, ok_bind, ranCreated, ok_bind]
  · rw [replaces.processes, processes]
    simp
  · rw [replaces.pidTable, table]
  · rw [sameChild, blocksLater, blocks]; exact same

/-- The end of `control_func`: a process without input gets the connection. -/
theorem attach_ok {world : World} (served : Served world) {p : ProcId} {process : MPProcess}
    (found : world.process p = .ok process) (idle : process.inputTag = 0) {channel : Channel}
    (fresh : World.Fresh world channel) :
    ∃ later tag, (world.setStatus p .running >>= fun world => world.acceptInput p channel) = .ok (later, true) ∧
      Served later ∧
      later.processes = world.processes.set p (attached { process with status := .running } channel tag) ∧
      later.watches = ⟨tag, channel, p⟩ :: world.watches ∧ later.blocks = world.blocks ∧
      later.pidTable = world.pidTable := by
  obtain ⟨running, spelled⟩ : ∃ running, running = world.setProcess p { process with status := .running } := ⟨_, rfl⟩
  have foundRunning : running.process p = .ok { process with status := .running } := by
    rw [spelled]; exact World.process_setProcess_self found _
  have servedRunning : Served running := by
    rw [spelled]
    exact served.replace found (replaces_setProcess _ _ _) rfl rfl rfl rfl rfl
      (served.sound.setProcess found rfl rfl rfl rfl)
  have freshRunning : World.Fresh running channel := by
    intro q other held
    by_cases same : q = p
    · subst same
      rw [foundRunning] at held
      cases held
      exact fresh q process found
    · rw [spelled, World.process_setProcess_of_ne same] at held
      exact fresh q other held
  obtain ⟨later, ran, servedLater, processes, watches, blocks, table⟩ :=
    acceptInput_ok servedRunning foundRunning idle freshRunning
  refine ⟨later, running.lastTag + 1, ?_, servedLater, ?_, by rw [watches, spelled]; rfl, by rw [blocks, spelled]; rfl,
    by rw [table, spelled]; rfl⟩
  · rw [setStatus_eq found, ok_bind, ← spelled, ran]
  · rw [processes, spelled]
    simp [World.setProcess]

/-- A process that is listed is reset, unless it follows its images. -/
theorem controlNew_reset {world : World} (served : Served world) {p : ProcId} {old : MPProcess}
    (found : world.process p = .ok old) (follow : old.followExec = false) {channel : Channel}
    (fresh : World.Fresh world channel) {info : MIInfoFork} (listed : world.mpServerFindProcess info.newPid = some p) :
    ∃ later tag, world.controlNew channel info = .ok (later, true) ∧ Served later ∧
      later.processes = world.processes.set p (attached { reinitialized old with status := .running } channel tag) ∧
      later.watches = ⟨tag, channel, p⟩ :: stopped world old ∧ later.pidTable = world.pidTable := by
  obtain ⟨reset, ranReset, servedReset, replaces, watchesReset⟩ := reuseProcess_reset served found follow
  have freshReset : World.Fresh reset channel := by
    intro q other held
    by_cases same : q = p
    · subst same
      rw [replaces.found found] at held
      cases held
      exact nofun
    · rw [replaces.other same] at held
      exact fresh q other held
  obtain ⟨later, tag, ran, servedLater, processes, watches, _, table⟩ :=
    attach_ok servedReset (replaces.found found) rfl freshReset
  refine ⟨later, tag, ?_, servedLater, ?_, by rw [watches, watchesReset], table.trans replaces.pidTable⟩
  · unfold World.controlNew
    rw [listed]
    simp only
    rw [ranReset, ok_bind]
    exact ran
  · rw [processes, replaces.processes, List.set_set]

/-- A child of a listed parent that is not listed itself is a duplicate of it. -/
theorem controlNew_fork {world : World} (served : Served world) {p : ProcId} {process : MPProcess}
    (found : world.process p = .ok process) {channel : Channel} (fresh : World.Fresh world channel) {info : MIInfoFork}
    (named : info.newPid ≠ 0) (unlisted : world.mpServerFindProcess info.newPid = none)
    (listed : world.mpServerFindProcess info.pid = some p) :
    ∃ later child, world.controlNew channel info = .ok (later, true) ∧ Served later ∧
      later.processes = world.processes ++ [child] ∧ child.inputChannel = some channel ∧
      child.seqno = process.seqno ∧ child.cloneOf = none ∧ child.commandQueue = [] ∧ child.pid = info.newPid ∧
      later.pidTable = some ((world.pidTable.getD ∅).insert info.newPid world.processes.length) ∧
      contents later.blocks child.table = contents world.blocks process.table := by
  obtain ⟨forked, child, ranFork, servedFork, processesFork, watchesFork, idle, closed, seqno, cloneOf, queue, pid,
    table, same⟩ := forkProcess_ok served found named
  obtain ⟨later, tag, ran, servedLater, processes, _, blocks, tableLater⟩ :=
    attach_ok servedFork (process_of_append processesFork) idle (fresh_append fresh processesFork closed)
  refine ⟨later, attached { child with status := .running } channel tag, ?_, servedLater, ?_, rfl, seqno, cloneOf,
    queue, pid, tableLater.trans table, ?_⟩
  · unfold World.controlNew
    rw [unlisted, listed]
    simp only
    rw [ranFork, ok_bind]
    exact ran
  · rw [processes, processesFork]; simp
  · rw [blocks]; exact same

/-- The new image of a listed process that follows its images. -/
theorem controlNew_follow {world : World} (served : Served world) {p : ProcId} {old : MPProcess}
    (found : world.process p = .ok old) (follow : old.followExec = true) {channel : Channel}
    (fresh : World.Fresh world channel) {info : MIInfoFork} (named : info.newPid ≠ 0)
    (listed : world.mpServerFindProcess info.newPid = some p) :
    ∃ later process, world.controlNew channel info = .ok (later, true) ∧ Served later ∧
      later.processes = world.processes ++ [process] ∧ process.inputChannel = some channel ∧
      process.pid = info.newPid ∧ process.cloneOf = none ∧
      later.pidTable = some ((world.pidTable.getD ∅).insert info.newPid world.processes.length) := by
  obtain ⟨_, owner, held, samePid⟩ := served.listed _ p listed
  rw [found] at held
  cases held
  obtain ⟨made, process, ranReuse, servedMade, processesMade, idle, closed, pid, cloneOf, tableMade⟩ :=
    reuseProcess_follow served found follow (samePid ▸ named)
  obtain ⟨later, tag, ran, servedLater, processes, _, _, table⟩ :=
    attach_ok servedMade (process_of_append processesMade) idle (fresh_append fresh processesMade closed)
  refine ⟨later, attached { process with status := .running } channel tag, ?_, servedLater, ?_, rfl, pid.trans samePid,
    cloneOf, ?_⟩
  · unfold World.controlNew
    rw [listed]
    simp only
    rw [ranReuse, ok_bind]
    exact ran
  · rw [processes, processesMade]
    simp
  · rw [table, tableMade, samePid]

theorem controlNew_served {world : World} (served : Served world) {channel : Channel}
    (fresh : World.Fresh world channel) {info : MIInfoFork} (named : info.newPid ≠ 0) :
    ∃ later response, world.controlNew channel info = .ok (later, response) ∧ Served later := by
  cases listed : world.mpServerFindProcess info.newPid with
  | some p =>
    obtain ⟨_, old, found, samePid⟩ := served.listed _ p listed
    cases follow : old.followExec with
    | false =>
      obtain ⟨later, tag, ran, servedLater, _⟩ := controlNew_reset served found follow fresh listed
      exact ⟨later, true, ran, servedLater⟩
    | true =>
      obtain ⟨later, process, ran, servedLater, _⟩ := controlNew_follow served found follow fresh named listed
      exact ⟨later, true, ran, servedLater⟩
  | none =>
    cases parent : world.mpServerFindProcess info.pid with
    | none => exact ⟨world, false, by unfold World.controlNew; rw [listed, parent], served⟩
    | some p =>
      obtain ⟨_, process, found, _⟩ := served.listed _ p parent
      obtain ⟨later, child, ran, servedLater, _⟩ := controlNew_fork served found fresh named listed parent
      exact ⟨later, true, ran, servedLater⟩

/-- A thread of a listed process. -/
theorem controlClone_ok {world : World} (served : Served world) {channel : Channel} (fresh : World.Fresh world channel)
    {info : MIInfoFork} (named : info.newPid ≠ 0) {parent : ProcId}
    (listed : world.mpServerFindProcess info.pid = some parent) :
    ∃ later tag, world.controlClone channel info = .ok (later, true) ∧ Served later ∧
      later.processes = world.processes ++
        [attached { status := .running, cloneOf := some parent, pid := info.newPid } channel tag] ∧
      later.pidTable = some ((world.pidTable.getD ∅).insert info.newPid world.processes.length) := by
  obtain ⟨_, process, found, _⟩ := served.listed _ parent listed
  have inside := (List.getElem?_eq_some_iff.mp (World.process_eq_ok.mp found)).1
  have made : world.processNew.1.processes = world.processes ++ [({} : MPProcess)] := rfl
  obtain ⟨running, spelled⟩ : ∃ running, running =
      world.processNew.1.setProcess world.processes.length { status := .running } := ⟨_, rfl⟩
  have processesRunning : running.processes = world.processes ++ [({ status := .running } : MPProcess)] := by
    rw [spelled]; exact set_of_append made _
  have soundRunning : Sound running := by
    rw [spelled]
    exact served.sound.processNew.setProcess (process_of_append made) rfl rfl rfl rfl
  obtain ⟨registered, ranAdd, servedAdd, processesAdd, _, _, tableAdd⟩ := register_ok served
    { status := .running, cloneOf := some parent, pid := info.newPid } processesRunning (by rw [spelled]; rfl)
    (by rw [spelled]; rfl) soundRunning ⟨rfl, rfl, rfl, rfl⟩ rfl (fun q same => by cases same; exact inside) named
  obtain ⟨later, ran, servedLater, processes, _, _, table⟩ :=
    acceptInput_ok servedAdd (process_of_append processesAdd) rfl (fresh_append fresh processesAdd rfl)
  refine ⟨later, registered.lastTag + 1, ?_, servedLater, by rw [processes, processesAdd]; simp, table.trans tableAdd⟩
  unfold World.controlClone
  rw [listed]
  simp only
  show (world.processNew.1.setStatus world.processes.length .running >>= _) = _
  rw [setStatus_eq (process_of_append made), ok_bind]
  show (World.process (world.processNew.1.setProcess world.processes.length { status := .running })
    world.processes.length >>= _) = _
  rw [← spelled, process_of_append processesRunning, ok_bind]
  show ((running.setProcess world.processes.length
    { status := .running, cloneOf := some parent, pid := info.newPid }).mpServerAddProcess
      world.processes.length >>= _) = _
  rw [ranAdd, ok_bind]
  exact ran

theorem controlClone_served {world : World} (served : Served world) {channel : Channel}
    (fresh : World.Fresh world channel) {info : MIInfoFork} (named : info.newPid ≠ 0) :
    Ensures (· = .gError) (world.controlClone channel info) fun result => Served result.1 := by
  cases listed : world.mpServerFindProcess info.pid with
  | none =>
    rw [World.controlClone, listed]
    exact ensures_error rfl
  | some parent =>
    obtain ⟨later, tag, ran, servedLater, _⟩ := controlClone_ok served fresh named listed
    exact ensures_of_exists ⟨(later, true), ran, servedLater⟩

/-- A connection keeps the server straight, or stops it. -/
theorem controlFunc_served {world : World} (served : Served world) {channel : Channel}
    (fresh : World.Fresh world channel) {info : MIInfoFork} (named : info.newPid ≠ 0) :
    Ensures (fun fault => fault = .gError ∨ fault = .assertion) (world.controlFunc channel info)
      fun result => Served result.1 := by
  have new : Ensures (fun fault => fault = .gError ∨ fault = .assertion) (world.controlNew channel info)
      fun result => Served result.1 := by
    obtain ⟨later, response, ran, servedLater⟩ := controlNew_served served fresh named
    exact ensures_of_exists ⟨(later, response), ran, servedLater⟩
  unfold World.controlFunc
  cases info.operation with
  | new => exact new
  | clone =>
    have cloned := controlClone_served served fresh named
    cases ran : world.controlClone channel info with
    | ok result => rw [ran] at cloned; exact cloned
    | error fault => rw [ran] at cloned; exact .inl cloned
  | fork =>
    simp only
    cases listed : world.mpServerFindProcess info.pid with
    | none => exact new
    | some p =>
      obtain ⟨_, process, found, _⟩ := served.listed _ p listed
      simp only [found, ok_bind]
      split
      · exact new
      · exact served
  | time | malloc | realloc | free | exec | exit => exact .inr rfl
  | other _ _ => exact served

/-- A program that was started is listed before it connects. -/
theorem processRun_ok {world : World} (served : Served world) {pid : Pid} (named : pid ≠ 0) :
    ∃ later process, world.processRun pid = .ok later ∧ Served later ∧ later.processes = world.processes ++ [process] ∧
      process.pid = pid ∧ process.status = .starting ∧ process.cloneOf = none ∧
      later.pidTable = some ((world.pidTable.getD ∅).insert pid world.processes.length) := by
  have made : world.processNew.1.processes = world.processes ++ [({} : MPProcess)] := rfl
  obtain ⟨registered, ranAdd, servedAdd, processes, _, _, table⟩ := register_ok served { pid := pid } made rfl rfl
    served.sound.processNew ⟨rfl, rfl, rfl, rfl⟩ rfl (fun q same => nomatch same) named
  have found := process_of_append processes
  have foundStarting := World.process_setProcess_self found { pid := pid, status := .starting }
  have servedStarting : Served (registered.setProcess world.processes.length { pid := pid, status := .starting }) :=
    servedAdd.replace found (replaces_setProcess _ _ _) rfl rfl rfl rfl rfl
      (servedAdd.sound.setProcess found rfl rfl rfl rfl)
  obtain ⟨later, process, ranCreated, servedLater, replaces, _, _, same⟩ := created_ok servedStarting foundStarting
  refine ⟨later, process, ?_, servedLater, ?_, by rw [same], by rw [same], by rw [same], replaces.pidTable.trans table⟩
  · show (world.processNew.1.process world.processes.length >>= _) = _
    rw [process_of_append made, ok_bind]
    show ((world.processNew.1.setProcess world.processes.length { pid := pid }).mpServerAddProcess
      world.processes.length >>= _) = _
    rw [ranAdd, ok_bind, setStatus_eq found, ok_bind]
    show ((registered.setProcess world.processes.length { pid := pid, status := .starting }).processStartInput
      world.processes.length >>= _) = _
    unfold World.processStartInput
    rw [foundStarting, ok_bind]
    exact ranCreated
  · rw [replaces.processes, set_of_append processes]
    simp

/-! ## Runs -/

theorem exists_process_of_ok {α : Type} {world : World} {p : ProcId} {next : MPProcess → Except Fault α} {result : α}
    (ran : (world.process p >>= next) = .ok result) : ∃ process, world.process p = .ok process := by
  cases found : world.process p with
  | ok process => exact ⟨process, rfl⟩
  | error _ => rw [found] at ran; cases ran

theorem Served.step {world later : World} (served : Served world) (taken : World.Step world later) : Served later := by
  cases taken with
  | run named ran =>
    obtain ⟨_, _, ran', kept, _⟩ := processRun_ok served named
    rw [ran] at ran'
    cases ran'
    exact kept
  | startInput ran =>
    obtain ⟨process, found⟩ := exists_process_of_ok ran
    obtain ⟨_, ran', kept⟩ := processStartInput_served served found
    rw [ran] at ran'
    cases ran'
    exact kept
  | stopInput ran =>
    obtain ⟨process, found⟩ := exists_process_of_ok ran
    obtain ⟨_, ran', kept⟩ := processStopInput_served served found
    rw [ran] at ran'
    cases ran'
    exact kept
  | clearInput ran =>
    obtain ⟨process, found⟩ := exists_process_of_ok ran
    obtain ⟨_, ran', kept⟩ := processClearInput_served served found
    rw [ran] at ran'
    cases ran'
    exact kept
  | connect fresh named ran => exact (controlFunc_served served fresh named).of_ok ran
  | message watched ran => exact (inputMessage_ensures served watched _ _).of_ok ran
  | eof watched ran =>
    obtain ⟨process, found, _⟩ := served.watched _ watched
    obtain ⟨_, ran', kept, _⟩ := inputEof_ok served watched found
    rw [ran] at ran'
    cases ran'
    exact kept

theorem reachable_served {world : World} (reachable : world.Reachable) : Served world := by
  obtain ⟨followFork, followExec, run⟩ := reachable
  induction run with
  | refl => exact served_start followFork followExec
  | tail _ taken inductionHypothesis => exact inductionHypothesis.step taken

/-! ## A program that was started and has connected -/

def starting (followFork : Bool) : World where
  processes := [{ status := .starting, pid := 100, followFork := followFork }]
  pidTable := some ((∅ : HashTable Pid ProcId).insert 100 0)
  defaultFollowFork := followFork

def traced (followFork : Bool) : MPProcess :=
  { status := .running, pid := 100, inputTag := 1, inputChannel := some 1, followFork := followFork }

def tracing (followFork : Bool) : World where
  processes := [traced followFork]
  pidTable := some ((∅ : HashTable Pid ProcId).insert 100 0)
  watches := [⟨1, 1, 0⟩]
  lastTag := 1
  defaultFollowFork := followFork

theorem tracing_reachable (followFork : Bool) : (tracing followFork).Reachable := by
  have first : World.Step { defaultFollowFork := followFork } (starting followFork) :=
    @World.Step.run _ (starting followFork) 100 (by decide) rfl
  have second : World.Step (starting followFork) (tracing followFork) :=
    @World.Step.connect (starting followFork) (tracing followFork) 1 (newProcessInfo 100 0 .new) true
      (World.fresh_of_single rfl nofun) (by decide) rfl
  exact ⟨followFork, false, (Relation.ReflTransGen.single first).tail second⟩

end Memprof.Serving
