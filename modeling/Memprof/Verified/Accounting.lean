import Memprof.Verified.Delivery
import Memprof.Verified.Stash

/-! # Block accounting over whole runs

A profiler is `Sound` when the reference counts of blocks and stashes are exactly the
references its processes hold and the counters of every process describe its table.
Every operation of `process.c` keeps it, so no run of them loses count, and none of
them touches a block or a stash that is gone.
-/

namespace Memprof.Accounting

open Library Blocks Delivery

structure Owned (blocks : Store Block) (stashes : Store StackStash) (processes : List MPProcess) : Prop where
  sharedBlocks : blocks.Shared (processes.map MPProcess.held)
  sharedStashes : stashes.Shared (processes.map fun process => process.stackStash.toList)
  linked : ∀ s object, stashes.get s = some object → Stash.Linked object
  keyed : ∀ process ∈ processes, Keyed blocks process.table
  nonNull : ∀ process ∈ processes, process.table.lookup 0 = none
  accounts : ∀ process ∈ processes, Accounts blocks process

def Sound (world : World) : Prop := Owned world.blocks world.stashes world.processes

theorem sound_start : Sound {} where
  sharedBlocks := ⟨fun _ _ live => (nomatch live), fun _ => rfl⟩
  sharedStashes := ⟨fun _ _ live => (nomatch live), fun _ => rfl⟩
  linked _ _ live := (nomatch live)
  keyed _ member := by cases member
  nonNull _ member := by cases member
  accounts _ member := by cases member

theorem Sound.coherent {world : World} (sound : Sound world) {process : MPProcess}
    (member : process ∈ world.processes) : Coherent world.blocks process.table where
  positive := sound.sharedBlocks.positive
  keyed := sound.keyed process member
  nonNull := sound.nonNull process member
  held := sound.sharedBlocks.held (List.mem_map_of_mem member)

/-- `later` is `world` with another record for process `p`; the stores and the sources
may differ, the rest is the same. -/
structure Replaces (world : World) (p : ProcId) (process : MPProcess) (later : World) : Prop where
  processes : later.processes = world.processes.set p process
  pidTable : later.pidTable = world.pidTable
  defaultFollowFork : later.defaultFollowFork = world.defaultFollowFork
  defaultFollowExec : later.defaultFollowExec = world.defaultFollowExec

theorem Replaces.trans {first second third : World} {p : ProcId} {process process' : MPProcess}
    (left : Replaces first p process second) (right : Replaces second p process' third) :
    Replaces first p process' third where
  processes := by rw [right.processes, left.processes, List.set_set]
  pidTable := right.pidTable.trans left.pidTable
  defaultFollowFork := right.defaultFollowFork.trans left.defaultFollowFork
  defaultFollowExec := right.defaultFollowExec.trans left.defaultFollowExec

theorem Replaces.found {world later : World} {p : ProcId} {process process' : MPProcess}
    (replaces : Replaces world p process' later) (found : world.process p = .ok process) :
    later.process p = .ok process' := World.process_of_set found replaces.processes

theorem Replaces.other {world later : World} {p q : ProcId} {process' : MPProcess}
    (replaces : Replaces world p process' later) (other : q ≠ p) : later.process q = world.process q :=
  World.process_of_set_ne replaces.processes other

theorem replaces_setProcess (world : World) (p : ProcId) (process : MPProcess) :
    Replaces world p process (world.setProcess p process) := ⟨rfl, rfl, rfl, rfl⟩

/-- One process takes a step of its own, and takes or drops a stash. -/
theorem Sound.replace {world later : World} (sound : Sound world) {p : ProcId} {process process' : MPProcess}
    (found : world.process p = .ok process) (replaces : Replaces world p process' later)
    (step : Step world.blocks process later.blocks process')
    (stashed : world.stashes.Exchanges process.stackStash.toList process'.stackStash.toList later.stashes)
    (linked : ∀ s object, later.stashes.get s = some object → Stash.Linked object) : Sound later := by
  have own := World.mem_of_process found
  rw [World.process_eq_ok] at found
  have shared : later.blocks.Shared (later.processes.map MPProcess.held) := by
    rw [replaces.processes, List.map_set]
    exact sound.sharedBlocks.exchange (by rw [List.getElem?_map, found]; rfl) step.exchange
  refine ⟨shared, ?_, linked, ?_, ?_, ?_⟩
  · rw [replaces.processes, List.map_set]
    exact sound.sharedStashes.exchange (by rw [List.getElem?_map, found]; rfl) stashed
  all_goals
    intro other member
    have referenced : ∀ b ∈ other.held, 0 < later.blocks.refs b :=
      fun b => shared.refs_pos (List.mem_map_of_mem member)
    rw [replaces.processes] at member
    rcases List.mem_or_eq_of_mem_set member with kept | rfl
  · exact (sound.keyed other kept).exchange step.exchange referenced
  · exact step.coherent.keyed
  · exact sound.nonNull other kept
  · exact step.coherent.nonNull
  · exact (sound.accounts other kept).exchange (sound.keyed other kept) step.exchange referenced
  · exact step.accounts (sound.accounts process own)

/-- What a process has besides its blocks and its stash may change freely. -/
theorem Sound.setProcess {world : World} (sound : Sound world) {p : ProcId} {process process' : MPProcess}
    (found : world.process p = .ok process) (table : process'.table = process.table)
    (number : process'.nAllocations = process.nAllocations) (bytes : process'.bytesUsed = process.bytesUsed)
    (stash : process'.stackStash = process.stackStash) : Sound (world.setProcess p process') := by
  refine sound.replace found (replaces_setProcess world p process')
    (Step.of_same (sound.coherent (World.mem_of_process found)) table number bytes) ?_ sound.linked
  rw [stash]
  exact Store.Exchanges.refl _ _

theorem Sound.processNew {world : World} (sound : Sound world) : Sound world.processNew.1 where
  sharedBlocks := by
    have joined := sound.sharedBlocks.join
    rwa [← show MPProcess.held {} = [] from rfl, ← List.map_singleton, ← List.map_append] at joined
  sharedStashes := by
    simp only [World.processNew, List.map_append, List.map_singleton]
    exact sound.sharedStashes.join
  linked := sound.linked
  keyed process member := by
    rcases List.mem_append.mp member with old | fresh
    · exact sound.keyed process old
    · rw [List.mem_singleton.mp fresh]; intro _ _ found; cases found
  nonNull process member := by
    rcases List.mem_append.mp member with old | fresh
    · exact sound.nonNull process old
    · rw [List.mem_singleton.mp fresh]; rfl
  accounts process member := by
    rcases List.mem_append.mp member with old | fresh
    · exact sound.accounts process old
    · rw [List.mem_singleton.mp fresh]; exact ⟨rfl, rfl⟩

/-! ## The operations -/

theorem freeBlocks_ok {blocks : Store Block} {process : MPProcess} (coherent : Coherent blocks process.table) :
    ∃ later, freeBlocks blocks process.blockTable = .ok later ∧ blocks.Exchanges process.held [] later := by
  obtain ⟨later, released, exchange⟩ := Store.releaseAll_exchanges coherent.held coherent.positive
  refine ⟨later, ?_, exchange⟩
  unfold MPProcess.table at released
  cases table : process.blockTable with
  | none => rw [table] at released; exact congrArg Except.ok (Option.some.inj released)
  | some table' =>
    rw [table, Option.getD_some] at released
    simp only [freeBlocks, released]

/-- A process holds a reference to its stash. -/
theorem stackStashUnref_ok {stashes : Store StackStash} {processes : List MPProcess}
    (shared : stashes.Shared (processes.map fun process => process.stackStash.toList)) {process : MPProcess}
    (member : process ∈ processes) :
    ∃ later, stackStashUnref stashes process.stackStash = .ok later ∧
      stashes.Exchanges process.stackStash.toList [] later := by
  cases stash : process.stackStash with
  | none => exact ⟨stashes, rfl, Store.Exchanges.refl _ _⟩
  | some s =>
    have holder : [s] ∈ processes.map fun process => process.stackStash.toList :=
      List.mem_map.mpr ⟨process, member, by rw [stash]; rfl⟩
    obtain ⟨later, released, exchange⟩ := Store.release_exchanges
      (shared.refs_pos holder (List.mem_singleton.mpr rfl)) shared.positive []
    exact ⟨later, by simp only [stackStashUnref, released], exchange⟩

/-- Counting does not touch the nodes of a stash. -/
theorem linked_stackStashUnref {stashes later : Store StackStash} {owned : Option StashId}
    (released : stackStashUnref stashes owned = .ok later) (exchange : stashes.Exchanges owned.toList [] later)
    (linked : ∀ s object, stashes.get s = some object → Stash.Linked object) (s : StashId) (object : StackStash)
    (live : later.get s = some object) : Stash.Linked object := by
  have inside : s < stashes.size := by
    have old := Store.lt_size_of_get live
    unfold stackStashUnref at released
    split at released
    · cases released
      exact old
    · split at released
      next dropped =>
        cases released
        rwa [Store.size_release dropped] at old
      next => cases released
  obtain ⟨before, n, held, rfl⟩ := exchange.same s object live inside
  have kept := linked s before held
  exact ⟨kept.parents, kept.siblings, kept.root, kept.children, kept.alike⟩

/-- What is left of a process without its blocks and stash. -/
def dropped (process : MPProcess) : MPProcess :=
  { process with bytesUsed := 0, nAllocations := 0, blockTable := none, stackStash := none }

theorem dropBlocks_ok {world : World} (sound : Sound world) {p : ProcId} {process : MPProcess}
    (found : world.process p = .ok process) :
    ∃ later, world.dropBlocks p = .ok later ∧ Replaces world p (dropped process) later ∧
      later.watches = world.watches ∧ Sound later := by
  have own := World.mem_of_process found
  obtain ⟨blocks, freed, exchange⟩ := freeBlocks_ok (sound.coherent own)
  obtain ⟨stashes, unreferenced, stashed⟩ := stackStashUnref_ok sound.sharedStashes own
  have linked := linked_stackStashUnref unreferenced stashed sound.linked
  have replaces : Replaces world p (dropped process)
      ({ world with blocks := blocks, stashes := stashes }.setProcess p (dropped process)) := ⟨rfl, rfl, rfl, rfl⟩
  refine ⟨_, ?_, replaces, rfl, sound.replace found replaces ⟨exchange, ?_, fun _ => ⟨rfl, rfl⟩⟩ stashed linked⟩
  · simp only [World.dropBlocks, found, Bind.bind, Except.bind, freed, unreferenced]
    rfl
  · exact coherent_empty (exchange.positive sound.sharedBlocks.positive)

/-- The sources that are left when the one of a process is removed. -/
def stopped (world : World) (process : MPProcess) : List Watch :=
  if process.inputTag = 0 then world.watches else world.watches.filter (·.tag ≠ process.inputTag)

theorem processStopInput_ok {world : World} (sound : Sound world) {p : ProcId} {process : MPProcess}
    (found : world.process p = .ok process) :
    ∃ later, world.processStopInput p = .ok later ∧ Replaces world p { process with inputTag := 0 } later ∧
      later.watches = stopped world process ∧ Sound later := by
  unfold World.processStopInput stopped
  simp only [found, Bind.bind, Except.bind]
  by_cases idle : process.inputTag = 0
  · have same : { process with inputTag := 0 } = process := by rw [← idle]
    refine ⟨world, by rw [if_neg (not_not.mpr idle)], ?_, (if_pos idle).symm, sound⟩
    rw [same]
    have unchanged := replaces_setProcess world p process
    rwa [World.setProcess_self found] at unchanged
  · have moved : Sound { world with watches := world.watches.filter (·.tag ≠ process.inputTag) } := sound
    exact ⟨_, if_pos idle, ⟨rfl, rfl, rfl, rfl⟩, (if_neg idle).symm, moved.setProcess found rfl rfl rfl rfl⟩

theorem processStartInput_sound {world later : World} (sound : Sound world) {p : ProcId}
    (started : world.processStartInput p = .ok later) : Sound later := by
  unfold World.processStartInput at started
  cases found : world.process p with
  | error _ => rw [found] at started; cases started
  | ok process =>
    rw [found] at started
    simp only [Bind.bind, Except.bind] at started
    split at started <;> cases started
    · exact sound.setProcess found rfl rfl rfl rfl
    · exact sound

/-- A process as `process_reinit` leaves it. -/
def reinitialized (process : MPProcess) : MPProcess :=
  { dropped process with inputTag := 0, inputChannel := none, seqno := 0, commandQueue := [] }

theorem processReinit_ok {world : World} (sound : Sound world) {p : ProcId} {process : MPProcess}
    (found : world.process p = .ok process) :
    ∃ later, world.processReinit p = .ok later ∧ Replaces world p (reinitialized process) later ∧
      later.watches = stopped world process ∧ Sound later := by
  obtain ⟨quiet, stopRan, stopReplaces, stopWatches, stopSound⟩ := processStopInput_ok sound found
  obtain ⟨empty, dropRan, dropReplaces, dropWatches, dropSound⟩ := dropBlocks_ok stopSound (stopReplaces.found found)
  have foundEmpty := dropReplaces.found (stopReplaces.found found)
  refine ⟨empty.setProcess p (reinitialized process), ?_, ?_, dropWatches.trans stopWatches,
    dropSound.setProcess foundEmpty rfl rfl rfl rfl⟩
  · simp only [World.processReinit, stopRan, dropRan, foundEmpty, Bind.bind, Except.bind]
    rfl
  · exact (stopReplaces.trans dropReplaces).trans (replaces_setProcess _ _ _)

/-- Of the blocks and the stashes a drop releases those of the process. -/
theorem dropBlocks_drops {world later : World} (sound : Sound world) {p : ProcId} {process : MPProcess}
    (found : world.process p = .ok process) (performed : world.dropBlocks p = .ok later) :
    world.blocks.Exchanges process.held [] later.blocks ∧
      stackStashUnref world.stashes process.stackStash = .ok later.stashes := by
  obtain ⟨process', found', performed⟩ := ok_of_bind performed
  rw [found] at found'
  cases found'
  obtain ⟨blocks, freed, performed⟩ := ok_of_bind performed
  obtain ⟨stashes, dropped, performed⟩ := ok_of_bind performed
  cases performed
  obtain ⟨blocks', freed', exchange⟩ := freeBlocks_ok (sound.coherent (World.mem_of_process found))
  rw [freed] at freed'
  cases freed'
  exact ⟨exchange, dropped⟩

theorem processStopInput_keeps {world quiet : World} {p : ProcId} (stopped : world.processStopInput p = .ok quiet) :
    quiet.blocks = world.blocks ∧ quiet.stashes = world.stashes := by
  obtain ⟨process, _, stopped⟩ := ok_of_bind stopped
  split at stopped
  · cases stopped
    exact ⟨rfl, rfl⟩
  · cases stopped
    exact ⟨rfl, rfl⟩

theorem processReinit_drops {world later : World} (sound : Sound world) {p : ProcId} {process : MPProcess}
    (found : world.process p = .ok process) (performed : world.processReinit p = .ok later) :
    world.blocks.Exchanges process.held [] later.blocks ∧
      stackStashUnref world.stashes process.stackStash = .ok later.stashes := by
  obtain ⟨quiet, stopped, performed⟩ := ok_of_bind performed
  obtain ⟨empty, dropped, performed⟩ := ok_of_bind performed
  obtain ⟨left, _, performed⟩ := ok_of_bind performed
  cases performed
  obtain ⟨quiet', stopped', replaces, _, soundQuiet⟩ := processStopInput_ok sound found
  rw [stopped] at stopped'
  cases stopped'
  obtain ⟨blocks, stashes⟩ := processStopInput_keeps stopped
  have drops := dropBlocks_drops soundQuiet (replaces.found found) dropped
  rwa [blocks, stashes] at drops

theorem duplicateBlocks_ok {blocks : Store Block} {process : MPProcess} (coherent : Coherent blocks process.table) :
    ∃ later copy, duplicateBlocks blocks process.blockTable = .ok (later, copy) ∧
      (∀ address, (copy.getD ∅).lookup address = process.table.lookup address) ∧
      blocks.Exchanges [] (HashTable.values (copy.getD ∅)) later := by
  cases table : process.blockTable with
  | none =>
    refine ⟨blocks, none, rfl, fun address => ?_, Store.Exchanges.refl _ _⟩
    simp [MPProcess.table, table]
  | some table' =>
    have same : process.table = table' := by simp [MPProcess.table, table]
    rw [same] at coherent ⊢
    have live : ∀ b ∈ table'.values, 0 < blocks.refs b := fun b => Store.refs_pos_of_held coherent.held
    obtain ⟨later, retained, exchange⟩ := Store.retainAll_exchanges live coherent.positive
    refine ⟨later, some table'.copy, by simp only [duplicateBlocks, retained],
      fun address => HashTable.lookup_copy table' address, ?_⟩
    exact exchange.of_perm (List.Perm.refl _) ((HashTable.copy_entries_perm table').map _).symm

/-- The record that `process_duplicate` makes, with its copy of the table. -/
def duplicated (p : ProcId) (process : MPProcess) (copy : Option BlockTable) : MPProcess where
  blockTable := copy
  bytesUsed := process.bytesUsed
  nAllocations := process.nAllocations
  seqno := process.seqno
  parent := some p

theorem duplicated_step {blocks later : Store Block} {p : ProcId} {process : MPProcess} {copy : Option BlockTable}
    (coherent : Coherent blocks process.table) (accounts : Accounts blocks process)
    (copied : ∀ address, (copy.getD ∅).lookup address = process.table.lookup address)
    (exchange : blocks.Exchanges [] (HashTable.values (copy.getD ∅)) later) :
    Step blocks {} later (duplicated p process copy) ∧
      contents later (copy.getD ∅) = contents blocks process.table := by
  have referenced : ∀ b ∈ process.table.values, 0 < later.refs b := by
    intro b member
    have := exchange.refs b
    have := Store.refs_pos_of_held coherent.held member
    simp only [List.count_nil] at *
    omega
  have keyed := coherent.keyed.exchange exchange referenced
  have permuted := HashTable.entries_perm_of_lookup_eq copied
  refine ⟨⟨exchange, ?_, fun _ => ⟨?_, ?_⟩⟩, ?_⟩
  · refine (coherent_empty coherent.positive).exchange exchange ?_ ((copied 0).trans coherent.nonNull)
    intro address b found
    exact keyed address b ((copied address).symm.trans found)
  · show process.nAllocations = UInt32.ofNat (AList.entries (copy.getD ∅)).length
    rw [permuted.length_eq, accounts.number]
  · show process.bytesUsed = ((HashTable.values (copy.getD ∅)).map (sizeOf later)).sum
    have values : (HashTable.values (copy.getD ∅)).Perm process.table.values := permuted.map _
    rw [(values.map _).sum_eq, sizeOf_exchange coherent.keyed exchange referenced, accounts.bytes, MPProcess.held]
  · rw [← contents_exchange coherent.keyed exchange referenced]
    funext address
    rw [contents, contents, copied]

theorem processDuplicate_ok {world : World} (sound : Sound world) {p : ProcId} {process : MPProcess}
    (found : world.process p = .ok process) :
    ∃ later copy, world.processDuplicate p = .ok (later, world.processes.length) ∧
      later.processes = world.processes ++ [duplicated p process copy] ∧ later.watches = world.watches ∧
      later.pidTable = world.pidTable ∧
      (∀ address, (copy.getD ∅).lookup address = process.table.lookup address) ∧
      contents later.blocks (copy.getD ∅) = contents world.blocks process.table ∧ Sound later := by
  have coherent := sound.coherent (World.mem_of_process found)
  obtain ⟨blocks, copy, ran, copied, exchange⟩ := duplicateBlocks_ok coherent
  obtain ⟨step, same⟩ := duplicated_step (p := p) coherent (sound.accounts _ (World.mem_of_process found))
    copied exchange
  have fresh : world.processNew.1.process world.processes.length = .ok {} := by
    simp [World.process_eq_ok, World.processNew]
  have replaces : Replaces world.processNew.1 world.processes.length (duplicated p process copy)
      ({ world with blocks := blocks }.processNew.1.setProcess world.processes.length
        (duplicated p process copy)) := ⟨rfl, rfl, rfl, rfl⟩
  refine ⟨{ world with blocks := blocks }.processNew.1.setProcess world.processes.length (duplicated p process copy),
    copy, ?_, ?_, rfl, rfl, copied, same, ?_⟩
  · simp only [World.processDuplicate, found, Bind.bind, Except.bind, ran]
    rfl
  · simp [World.setProcess, World.processNew]
  · refine sound.processNew.replace fresh replaces ?_ ?_ sound.linked
    · exact step
    · exact Store.Exchanges.refl _ _

theorem command_ensures {world : World} (sound : Sound world) {p : ProcId} {process : MPProcess}
    (found : world.process p = .ok process) {allowed : Fault → Prop} (info : MIInfo) (stack : StackPtr)
    (admitted : ∀ other ∈ (⟨info, stack⟩ : Command) :: process.commandQueue,
      IsReport other.info.operation ∨ allowed .assertion) :
    Ensures allowed (world.command p info stack) fun later => ∃ process', Replaces world p process' later ∧
      later.watches = world.watches ∧ SameElse process process' ∧
      (∀ other ∈ process'.commandQueue, other ∈ (⟨info, stack⟩ : Command) :: process.commandQueue) ∧
      Sound later := by
  have called := processCommand_ensures (sound.coherent (World.mem_of_process found)) info stack admitted
  unfold World.command
  rw [found, ok_bind]
  refine Ensures.bind called ?_
  rintro ⟨blocks, process', info'⟩ ⟨step, same, listed⟩
  refine ⟨process', ⟨rfl, rfl, rfl, rfl⟩, rfl, same, listed, ?_⟩
  refine sound.replace found ⟨rfl, rfl, rfl, rfl⟩ step ?_ sound.linked
  rw [same.stackStash]
  exact Store.Exchanges.refl _ _

/-- A report that is due, while nothing waits. -/
theorem command_due_ok {world : World} (sound : Sound world) {p : ProcId} {process : MPProcess}
    (found : world.process p = .ok process) (idle : process.commandQueue = []) {info : MIInfo}
    (reported : IsReport info.operation) (due : info.seqno = process.seqno) (stack : StackPtr) :
    ∃ later process', world.command p info stack = .ok later ∧ Replaces world p process' later ∧
      later.watches = world.watches ∧ later.stashes = world.stashes ∧ SameElse process process' ∧
      process'.commandQueue = [] ∧ process'.seqno = process.seqno + 1 ∧
      world.blocks.Exchanges process.held process'.held later.blocks ∧
      contents later.blocks process'.table =
        (contents world.blocks process.table).apply (process.seqno + 1) info stack ∧ Sound later := by
  have coherent := sound.coherent (World.mem_of_process found)
  have numbered : Successive process.seqno [⟨info, stack⟩] := ⟨due, trivial⟩
  obtain ⟨blocks, process', fed, empty, seqno, step, same, table, _⟩ := feed_successive coherent idle numbered
    fun command member => by rw [List.mem_singleton.mp member]; exact reported
  obtain ⟨info', ran⟩ : ∃ info', processCommand world.blocks process info stack = .ok (blocks, process', info') := by
    simp only [feed, List.foldlM_cons, List.foldlM_nil, call] at fed
    cases ran : processCommand world.blocks process info stack with
    | error _ => rw [ran] at fed; cases fed
    | ok result => rw [ran] at fed; cases fed; exact ⟨_, rfl⟩
  refine ⟨{ world with blocks := blocks }.setProcess p process', process', ?_, ⟨rfl, rfl, rfl, rfl⟩, rfl, rfl, same,
    empty, by rw [seqno]; rfl, step.exchange, table, ?_⟩
  · unfold World.command
    rw [found, ok_bind, ran, ok_bind]
  · refine sound.replace found ⟨rfl, rfl, rfl, rfl⟩ step ?_ sound.linked
    rw [same.stackStash]
    exact Store.Exchanges.refl _ _

/-- Another process's table says the same after an exchange that is not its own. -/
theorem contents_other {world later : World} (sound : Sound world) (soundLater : Sound later)
    {before after : List BlockId} (exchange : world.blocks.Exchanges before after later.blocks) {process : MPProcess}
    (member : process ∈ world.processes) (member' : process ∈ later.processes) :
    contents later.blocks process.table = contents world.blocks process.table :=
  contents_exchange (sound.keyed process member) exchange
    fun _ => soundLater.sharedBlocks.refs_pos (List.mem_map_of_mem member')

theorem getStackStash_ok {world : World} (sound : Sound world) {p : ProcId} {process : MPProcess}
    (found : world.process p = .ok process) :
    ∃ later stash, world.getStackStash p = .ok (later, stash) ∧
      Replaces world p { process with stackStash := some stash } later ∧ later.watches = world.watches ∧
      later.blocks = world.blocks ∧ Sound later := by
  unfold World.getStackStash
  simp only [found, Bind.bind, Except.bind]
  cases stash : process.stackStash with
  | some s =>
    have unchanged := replaces_setProcess world p process
    rw [World.setProcess_self found] at unchanged
    exact ⟨world, s, rfl, by rwa [← stash], rfl, rfl, sound⟩
  | none =>
    have coherent := sound.coherent (World.mem_of_process found)
    refine ⟨_, world.stashes.size, rfl, ⟨rfl, rfl, rfl, rfl⟩, rfl, rfl, ?_⟩
    refine sound.replace found ⟨rfl, rfl, rfl, rfl⟩ (Step.of_same coherent rfl rfl rfl) ?_ ?_
    · rw [stash]
      exact Store.exchanges_alloc _ _ rfl
    · intro s object live
      change (world.stashes.alloc {}).1.get s = some object at live
      rw [Store.get_alloc] at live
      split at live
      · cases live; exact Stash.linked_empty
      · exact sound.linked s object live

/-! ## Runs -/

inductive Operation where
  | processNew
  | getStackStash (p : ProcId)
  | processCommand (p : ProcId) (info : MIInfo) (stack : StackPtr)
  | processClearInput (p : ProcId)
  | processExecReset (p : ProcId)
  | processDuplicate (p : ProcId)

def Operation.subject : Operation → Option ProcId
  | .processNew => none
  | .getStackStash p | .processCommand p _ _ | .processClearInput p | .processExecReset p | .processDuplicate p =>
    some p

def perform (world : World) : Operation → Except Fault World
  | .processNew => .ok world.processNew.1
  | .getStackStash p => (world.getStackStash p).map (·.1)
  | .processCommand p info stack => world.command p info stack
  | .processClearInput p => world.processClearInput p
  | .processExecReset p => world.processExecReset p
  | .processDuplicate p => (world.processDuplicate p).map (·.1)

def run (operations : List Operation) : Except Fault World := operations.foldlM perform {}

/-- Every operation on a process that exists keeps the profiler sound; the assertion
about the operations a connection cannot send is the only way to fail. -/
theorem perform_ensures {world : World} (sound : Sound world) {operation : Operation}
    (exists_subject : ∀ p ∈ operation.subject, ∃ process, world.process p = .ok process) :
    Ensures (· = .assertion) (perform world operation) Sound := by
  cases operation with
  | processNew => exact sound.processNew
  | getStackStash p =>
    obtain ⟨process, found⟩ := exists_subject p rfl
    obtain ⟨later, stash, ran, _, _, _, kept⟩ := getStackStash_ok sound found
    rw [perform, ran]
    exact kept
  | processCommand p info stack =>
    obtain ⟨process, found⟩ := exists_subject p rfl
    have ran : Ensures (· = .assertion) (world.command p info stack) _ :=
      command_ensures sound found info stack fun _ _ => .inr rfl
    exact ran.imp fun later ⟨_, _, _, _, _, kept⟩ => kept
  | processClearInput p =>
    obtain ⟨process, found⟩ := exists_subject p rfl
    obtain ⟨later, ran, _, _, kept⟩ := dropBlocks_ok sound found
    rw [perform, World.processClearInput, ran]
    exact kept
  | processExecReset p =>
    obtain ⟨process, found⟩ := exists_subject p rfl
    obtain ⟨later, ran, _, _, kept⟩ := processReinit_ok sound found
    rw [perform, World.processExecReset, ran]
    exact kept
  | processDuplicate p =>
    obtain ⟨process, found⟩ := exists_subject p rfl
    obtain ⟨later, copy, ran, _, _, _, _, _, kept⟩ := processDuplicate_ok sound found
    rw [perform, ran]
    exact kept

/-- An operation on a process that is not there does nothing. -/
theorem perform_sound {world later : World} (sound : Sound world) {operation : Operation}
    (performed : perform world operation = .ok later) : Sound later := by
  refine (perform_ensures sound fun p subject => ?_).of_ok performed
  cases found : world.process p with
  | ok process => exact ⟨process, rfl⟩
  | error fault =>
    cases operation <;> cases subject <;>
      simp [perform, World.getStackStash, World.command, World.processClearInput, World.processExecReset,
        World.processReinit, World.processStopInput, World.dropBlocks, World.processDuplicate, found, Bind.bind,
        Except.bind, Except.map] at performed

theorem run_sound {operations : List Operation} {world : World} (ran : run operations = .ok world) : Sound world := by
  have ensured : Ensures (fun _ => True) (run operations) Sound := by
    apply ensures_foldlM _ sound_start
    intro earlier operation _ sound
    cases performed : perform earlier operation with
    | error _ => exact ensures_error trivial
    | ok later => exact ensures_ok (perform_sound sound performed)
  exact ensured.of_ok ran

theorem toNat_sum (sizes : List UInt32) : sizes.sum.toNat = (sizes.map UInt32.toNat).sum % 2 ^ 32 := by
  induction sizes with
  | nil => rfl
  | cons size sizes inductionHypothesis =>
    rw [List.sum_cons, List.map_cons, List.sum_cons, UInt32.toNat_add, inductionHypothesis]
    omega

/-- After any run, in which the commands may be any and arrive in any order, the counters
of every process describe its table, and the table names its blocks by their address. -/
theorem run_accounts {operations : List Operation} {world : World} (ran : run operations = .ok world)
    {process : MPProcess} (member : process ∈ world.processes) :
    process.nAllocations.toNat = process.table.entries.length % 2 ^ 32 ∧
      process.bytesUsed.toNat = (process.held.map fun b => (sizeOf world.blocks b).toNat).sum % 2 ^ 32 ∧
      (∀ address b, process.table.lookup address = some b →
        ∃ block, world.blocks.get b = some block ∧ block.addr = address) ∧
      process.table.lookup 0 = none := by
  have sound := run_sound ran
  have accounts := sound.accounts process member
  refine ⟨?_, ?_, sound.keyed process member, sound.nonNull process member⟩
  · rw [accounts.number, UInt32.toNat_ofNat']
  · rw [accounts.bytes, toNat_sum, List.map_map]
    rfl

/-- A release that arrives early, a block in two tables and one that a reset drops. -/
theorem run_accounts_shared :
    let operations : List Operation :=
      [.processNew, .processCommand 0 { operation := .free, seqno := 2, oldPtr := 16 } none,
        .processCommand 0 { operation := .malloc, newPtr := 16, size := 8 } none, .processDuplicate 0,
        .processCommand 1 { operation := .realloc, seqno := 1, oldPtr := 16, newPtr := 32, size := 5 } none,
        .processExecReset 0]
    ∃ world process, run operations = .ok world ∧ process ∈ world.processes ∧
      process.nAllocations.toNat = process.table.entries.length % 2 ^ 32 ∧
      process.bytesUsed.toNat = (process.held.map fun b => (sizeOf world.blocks b).toNat).sum % 2 ^ 32 ∧
      (∀ address b, process.table.lookup address = some b →
        ∃ block, world.blocks.get b = some block ∧ block.addr = address) ∧
      process.table.lookup 0 = none := by
  intro operations
  have returns : ((run operations).toOption.bind fun world => world.processes[1]?).isSome = true := by decide +kernel
  obtain ⟨process, held⟩ := Option.isSome_iff_exists.mp returns
  cases ran : run operations with
  | error _ => rw [ran] at held; cases held
  | ok world =>
    rw [ran] at held
    have member : process ∈ world.processes := List.mem_of_getElem? held
    exact ⟨world, process, rfl, member, run_accounts ran member⟩

end Memprof.Accounting
