import Memprof.Verified.Serving

/-! # Stack traces and those who use them

Blocks and queued commands point into the stash of the process that received a message,
which need not be the process whose table or queue they are in.  A stash lives as long as
its count, so that dropping it is harmless as long as nobody else uses it, and a run keeps
every trace that is in use exactly when each of its drops is of that kind.
-/

namespace Memprof.Lifetimes

open Library Blocks Delivery Accounting

/-- The stash that owns the node, if there is one, has not been released. -/
def StackLive (stashes : Store StackStash) (stack : StackPtr) : Prop :=
  ∀ ref ∈ stack, ∃ object, stashes.get ref.stash = some object

/-- Everybody's traces are still there. -/
structure Outlive (world : World) : Prop where
  blocks : ∀ process ∈ world.processes, ∀ b ∈ process.held, ∀ block, world.blocks.get b = some block →
    StackLive world.stashes block.stack
  commands : ∀ process ∈ world.processes, ∀ command ∈ process.commandQueue, StackLive world.stashes command.stack

def UsedByBlock (world : World) (p : ProcId) (s : StashId) : Prop :=
  ∃ process, world.process p = .ok process ∧ ∃ b ∈ process.held, ∃ block node, world.blocks.get b = some block ∧
    block.stack = some ⟨s, node⟩

def UsedByCommand (world : World) (p : ProcId) (s : StashId) : Prop :=
  ∃ process, world.process p = .ok process ∧ ∃ command ∈ process.commandQueue, ∃ node,
    command.stack = some ⟨s, node⟩

/-! ## Operations -/

/-- What can happen to the processes, in any order: new ones, clones among them, that get
a channel, messages and the end of a channel, and the three operations on stashes. -/
inductive Operation where
  | processNew
  | processClone (parent : ProcId)
  | acceptInput (p : ProcId) (channel : Channel)
  | inputMessage (p : ProcId) (info : MIInfo) (frames : List Addr)
  | inputEof (watch : Watch)
  | processDuplicate (p : ProcId)
  | processClearInput (p : ProcId)
  | processExecReset (p : ProcId)

def perform (world : World) : Operation → Except Fault World
  | .processNew => .ok world.processNew.1
  | .processClone parent => do
    let (world, q) := world.processNew
    let process ← world.process q
    .ok (world.setProcess q { process with cloneOf := some parent })
  | .acceptInput p channel => (world.acceptInput p channel).map (·.1)
  | .inputMessage p info frames => world.inputMessage p info frames
  | .inputEof watch => world.inputEof watch
  | .processDuplicate p => (world.processDuplicate p).map (·.1)
  | .processClearInput p => world.processClearInput p
  | .processExecReset p => world.processExecReset p

def run (operations : List Operation) : Except Fault World := operations.foldlM perform {}

/-- When an operation drops the last reference to a stash, nobody else uses it.  A reset
after `exec` discards the queue of its process, clearing the input does not. -/
def Exclusive (world : World) : Operation → Prop
  | .processClearInput p => ∀ process s, world.process p = .ok process → process.stackStash = some s →
    world.stashes.refs s = 1 → (∀ q, q ≠ p → ¬UsedByBlock world q s) ∧ ∀ q, ¬UsedByCommand world q s
  | .processExecReset p => ∀ process s, world.process p = .ok process → process.stackStash = some s →
    world.stashes.refs s = 1 → (∀ q, q ≠ p → ¬UsedByBlock world q s) ∧ ∀ q, q ≠ p → ¬UsedByCommand world q s
  | .processNew | .processClone _ | .acceptInput _ _ | .inputMessage _ _ _ | .inputEof _ | .processDuplicate _ => True

/-! ## All the blocks there are -/

/-- A block that is there is in a table. -/
theorem exists_holder {world : World} (sound : Sound world) {b : BlockId} {block : Block}
    (live : world.blocks.get b = some block) : ∃ process ∈ world.processes, b ∈ process.held := by
  have positive := sound.sharedBlocks.positive b block live
  have counted := sound.sharedBlocks.counted b
  rw [Store.refs_of_get live] at counted
  have member : b ∈ (world.processes.map MPProcess.held).flatten := List.count_pos_iff.mp (by omega)
  obtain ⟨ids, holder, inside⟩ := List.mem_flatten.mp member
  obtain ⟨process, here, rfl⟩ := List.mem_map.mp holder
  exact ⟨process, here, inside⟩

/-- All blocks have a stack with the property. -/
def Stacks (property : StackPtr → Prop) (blocks : Store Block) : Prop :=
  ∀ b block, blocks.get b = some block → property block.stack

theorem outlive_iff {world : World} (sound : Sound world) : Outlive world ↔
    Stacks (StackLive world.stashes) world.blocks ∧
      ∀ process ∈ world.processes, ∀ command ∈ process.commandQueue, StackLive world.stashes command.stack := by
  constructor
  · intro outlive
    refine ⟨fun b block live => ?_, outlive.commands⟩
    obtain ⟨process, member, held⟩ := exists_holder sound live
    exact outlive.blocks process member b held block live
  · rintro ⟨traced, commands⟩
    exact ⟨fun _ _ b _ block live => traced b block live, commands⟩

theorem StackLive.mono {stashes later : Store StackStash} (kept : ∀ s object, stashes.get s = some object →
    ∃ object', later.get s = some object') {stack : StackPtr} (live : StackLive stashes stack) :
    StackLive later stack := by
  intro ref member
  obtain ⟨object, held⟩ := live ref member
  exact kept ref.stash object held

/-- Whatever keeps the stashes, the stacks of the blocks and what is queued. -/
theorem Outlive.mono {world later : World} (outlive : Outlive world) (sound : Sound world) (soundLater : Sound later)
    (stashes : ∀ s object, world.stashes.get s = some object → ∃ object', later.stashes.get s = some object')
    (blocks : ∀ b block', later.blocks.get b = some block' →
      ∃ block, world.blocks.get b = some block ∧ block.stack = block'.stack)
    (queues : ∀ process' ∈ later.processes, ∀ command ∈ process'.commandQueue,
      ∃ process ∈ world.processes, command ∈ process.commandQueue) : Outlive later := by
  obtain ⟨traced, commands⟩ := (outlive_iff sound).mp outlive
  refine (outlive_iff soundLater).mpr ⟨fun b block' live => ?_, fun process' member command queued => ?_⟩
  · obtain ⟨block, held, same⟩ := blocks b block' live
    exact same ▸ (traced b block held).mono stashes
  · obtain ⟨process, before, queuedBefore⟩ := queues process' member command queued
    exact (commands process before command queuedBefore).mono stashes

/-- A process changes in neither its blocks nor its queue. -/
theorem Outlive.setProcess {world later : World} (outlive : Outlive world) (sound : Sound world)
    (soundLater : Sound later) {p : ProcId} {process process' : MPProcess} (found : world.process p = .ok process)
    (processes : later.processes = world.processes.set p process') (blocks : later.blocks = world.blocks)
    (stashes : later.stashes = world.stashes) (queue : process'.commandQueue = process.commandQueue) :
    Outlive later := by
  refine outlive.mono sound soundLater ?_ ?_ ?_
  · rw [stashes]
    exact fun s object live => ⟨object, live⟩
  · rw [blocks]
    exact fun b block live => ⟨block, live, rfl⟩
  · intro other member command queued
    rw [processes] at member
    cases List.mem_or_eq_of_mem_set member with
    | inl old => exact ⟨other, old, queued⟩
    | inr own =>
      rw [own, queue] at queued
      exact ⟨process, World.mem_of_process found, queued⟩

/-! ## What input does -/

theorem addStack_keeps {world later : World} {p : ProcId} {frames : List Addr} {stack : StackPtr}
    (added : world.addStack p frames = .ok (later, stack)) (s : StashId) (object : StackStash)
    (live : world.stashes.get s = some object) : ∃ object', later.stashes.get s = some object' := by
  obtain ⟨⟨ready, stash⟩, got, added⟩ := ok_of_bind added
  obtain ⟨process, _, got⟩ := ok_of_bind got
  -- A new stash gets a new place, the one that is there keeps its own.
  have keptByGet : ∃ object', ready.stashes.get s = some object' := by
    cases owned : process.stackStash with
    | some own =>
      rw [owned] at got
      cases got
      exact ⟨object, live⟩
    | none =>
      rw [owned] at got
      cases got
      refine ⟨object, ?_⟩
      show (world.stashes.alloc {}).1.get s = some object
      rw [Store.get_alloc, if_neg (Nat.ne_of_lt (Store.lt_size_of_get live)), live]
  obtain ⟨object', live'⟩ := keptByGet
  simp only at added
  split at added
  next => cases added
  next own found =>
    obtain ⟨⟨own', node⟩, _, added⟩ := ok_of_bind added
    cases added
    show ∃ object', (ready.stashes.put stash own').get s = some object'
    rw [Store.get_put (Store.lt_size_of_get found)]
    split
    · exact ⟨own', rfl⟩
    · exact ⟨object', live'⟩

theorem setStatus_outlive {world later : World} (sound : Sound world) (outlive : Outlive world) {p : ProcId}
    {status : MPProcessStatus} (changed : world.setStatus p status = .ok later) : Sound later ∧ Outlive later := by
  obtain ⟨process, found, changed⟩ := ok_of_bind changed
  cases changed
  have soundLater := @Sound.setProcess world sound p process { process with status := status } found rfl rfl rfl rfl
  exact ⟨soundLater, outlive.setProcess sound soundLater found rfl rfl rfl rfl⟩

theorem processDetach_outlive {world later : World} (sound : Sound world) (outlive : Outlive world) {p : ProcId}
    (detached : world.processDetach p = .ok later) : Sound later ∧ Outlive later := by
  obtain ⟨process, found, detached⟩ := ok_of_bind detached
  split at detached
  · cases detached
    exact ⟨sound, outlive⟩
  · split at detached
    · cases detached
    · split at detached
      · cases detached
        exact ⟨sound, outlive⟩
      · exact setStatus_outlive sound outlive detached

/-- Before a command is applied the stack it brings is recorded. -/
theorem prepareInput_outlive {world later : World} (sound : Sound world) (outlive : Outlive world) {p : ProcId}
    {info : MIInfo} {frames : List Addr} {stack : StackPtr}
    (prepared : world.prepareInput p info frames = .ok (later, stack)) :
    Sound later ∧ Outlive later ∧ StackLive later.stashes stack := by
  -- The four operations with a stack are one case, the others hand on none.
  have recorded : world.addStack p frames = .ok (later, stack) →
      Sound later ∧ Outlive later ∧ StackLive later.stashes stack := by
    intro added
    obtain ⟨process, found⟩ : ∃ process, world.process p = .ok process := by
      obtain ⟨_, got, _⟩ := ok_of_bind added
      obtain ⟨process, found, _⟩ := ok_of_bind got
      exact ⟨process, found⟩
    obtain ⟨later', stack', stash, ran, replaces, _, blocks, soundLater, traced⟩ :=
      Serving.addStack_ok sound found frames
    rw [added] at ran
    cases ran
    refine ⟨soundLater, outlive.mono sound soundLater (addStack_keeps added) ?_ ?_, ?_⟩
    · rw [blocks]
      exact fun b block live => ⟨block, live, rfl⟩
    · intro other member command queued
      rw [replaces.processes] at member
      cases List.mem_or_eq_of_mem_set member with
      | inl old => exact ⟨other, old, queued⟩
      | inr own =>
        rw [own] at queued
        exact ⟨process, World.mem_of_process found, queued⟩
    · intro ref isRef
      rw [Option.mem_def] at isRef
      subst isRef
      obtain ⟨object, live, _⟩ := traced
      exact ⟨object, live⟩
  have none_live : ∀ stashes, StackLive stashes none := fun stashes ref isRef => by cases isRef
  unfold World.prepareInput at prepared
  split at prepared
  case h_1 | h_2 | h_3 | h_4 => exact recorded prepared
  case h_5 =>
    obtain ⟨exiting, changed, prepared⟩ := ok_of_bind prepared
    obtain ⟨process, _, prepared⟩ := ok_of_bind prepared
    obtain ⟨soundExiting, outliveExiting⟩ := setStatus_outlive sound outlive changed
    simp only at prepared
    split at prepared
    · obtain ⟨detached, detaching, prepared⟩ := ok_of_bind prepared
      cases prepared
      obtain ⟨soundLater, outliveLater⟩ := processDetach_outlive soundExiting outliveExiting detaching
      exact ⟨soundLater, outliveLater, none_live _⟩
    · cases prepared
      exact ⟨soundExiting, outliveExiting, none_live _⟩
  all_goals
    cases prepared
    exact ⟨sound, outlive, none_live _⟩

theorem traced_removeOld {property : StackPtr → Prop} {blocks blocks' : Store Block} {process process' : MPProcess}
    {oldPtr : Addr} {stack : StackPtr} (traced : Stacks property blocks)
    (removed : removeOld blocks process oldPtr stack = .ok (blocks', process')) : Stacks property blocks' := by
  unfold removeOld at removed
  split at removed
  case isFalse =>
    cases removed
    exact traced
  split at removed
  case h_1 =>
    cases removed
    exact traced
  next b _ =>
    split at removed
    next => cases removed
    next block live =>
      obtain ⟨released, unreferenced, removed⟩ := ok_of_bind removed
      cases removed
      unfold blockUnref at unreferenced
      split at unreferenced
      next later released =>
        cases unreferenced
        intro c other held
        obtain ⟨original, _, held', rfl⟩ := Store.exists_get_of_release released held
        exact traced c original held'
      next => cases unreferenced

theorem traced_insertNew {property : StackPtr → Prop} {blocks : Store Block} (process : MPProcess) {info : MIInfo}
    {stack : StackPtr} (traced : Stacks property blocks) (named : property stack) :
    Stacks property (insertNew blocks process info stack).1 := by
  unfold insertNew
  split
  · intro b block live
    change (blocks.alloc _).1.get b = some block at live
    rw [Store.get_alloc] at live
    split at live
    · cases live
      exact named
    · exact traced b block live
  · exact traced

/-- A command gives its stack to at most one new block. -/
theorem traced_consume {property : StackPtr → Prop} {state : Store Block × MPProcess} {command : Command}
    (traced : Stacks property state.1) (named : property command.stack) :
    Ensures (fun _ => True) (consume state command) fun later => Stacks property later.1 := by
  have reported : ∀ (process : MPProcess) (info : MIInfo),
      Ensures (fun _ => True) (reportBlock state.1 process info command.stack) fun later =>
        Stacks property later.1 := by
    intro process info
    unfold reportBlock
    cases removed : removeOld state.1 (getBlockTable process) info.oldPtr command.stack with
    | error _ => exact ensures_error trivial
    | ok result => exact ensures_ok (traced_insertNew result.2 (traced_removeOld traced removed) named)
  have applied : Ensures (fun _ => True) (applyCommand state.1 state.2 command.info command.stack)
      fun later => Stacks property later.1 := by
    unfold applyCommand
    cases command.info.operation with
    | new | fork | clone | exec => exact ensures_error trivial
    | exit => exact ensures_ok traced
    | time | malloc | realloc | free | other _ _ => exact reported _ _
  exact applied.bind fun result held => ensures_ok held

theorem traced_processCommand {property : StackPtr → Prop} {blocks : Store Block} {process : MPProcess} {info : MIInfo}
    {stack : StackPtr} (traced : Stacks property blocks) (named : property stack)
    (queued : ∀ command ∈ process.commandQueue, property command.stack) :
    Ensures (fun _ => True) (processCommand blocks process info stack) fun result =>
      Stacks property result.1 ∧ ∀ command ∈ result.2.1.commandQueue, property command.stack := by
  have all : ∀ command ∈ (⟨info, stack⟩ : Command) :: process.commandQueue, property command.stack := by
    intro command member
    cases List.mem_cons.mp member with
    | inl due => exact due ▸ named
    | inr waiting => exact queued command waiting
  have delivered : Ensures (fun _ => True)
      (deliver expected number consume ((blocks, withQueue [] process), process.commandQueue) ⟨info, stack⟩)
      fun pending => Stacks property pending.1.1 ∧
        ∀ command ∈ pending.2, command ∈ (⟨info, stack⟩ : Command) :: process.commandQueue :=
    @deliver_ensures _ _ _ expected number consume _ (fun state => Stacks property state.1) _ _
      (fun _ command member held => traced_consume held (all command member)) _ traced
  have called : Ensures (fun _ => True) (call (blocks, withQueue process.commandQueue process) ⟨info, stack⟩)
      fun result => Stacks property result.1 ∧ ∀ command ∈ result.2.commandQueue, property command.stack := by
    rw [call_eq_deliver]
    apply Ensures.map
    apply delivered.imp
    rintro ⟨⟨blocks', process'⟩, queue⟩ ⟨held, listed⟩
    exact ⟨held, fun command member => all command (listed command member)⟩
  exact Ensures.of_map called

theorem command_outlive {world later : World} (sound : Sound world) (outlive : Outlive world) {p : ProcId}
    {info : MIInfo} {stack : StackPtr} (named : StackLive world.stashes stack)
    (performed : world.command p info stack = .ok later) : Sound later ∧ Outlive later := by
  obtain ⟨process, found, called⟩ := ok_of_bind performed
  have ensured := @command_ensures world sound p process found (fun _ => True) info stack fun _ _ => .inr trivial
  obtain ⟨_, _, _, _, _, soundLater⟩ := ensured.of_ok performed
  obtain ⟨traced, commands⟩ := (outlive_iff sound).mp outlive
  obtain ⟨⟨blocks, process', info'⟩, ran, called⟩ := ok_of_bind called
  cases called
  obtain ⟨tracedLater, queued⟩ := (traced_processCommand traced named
    (commands process (World.mem_of_process found))).of_ok ran
  refine ⟨soundLater, (outlive_iff soundLater).mpr ⟨tracedLater, fun other member command waiting => ?_⟩⟩
  cases List.mem_or_eq_of_mem_set member with
  | inl old => exact commands other old command waiting
  | inr own => exact queued command (own ▸ waiting)

theorem inputMessage_outlive {world later : World} (sound : Sound world) (outlive : Outlive world) {p : ProcId}
    {info : MIInfo} {frames : List Addr} (performed : world.inputMessage p info frames = .ok later) :
    Sound later ∧ Outlive later := by
  obtain ⟨⟨ready, stack⟩, prepared, performed⟩ := ok_of_bind performed
  obtain ⟨root, _, performed⟩ := ok_of_bind performed
  obtain ⟨soundReady, outliveReady, named⟩ := prepareInput_outlive sound outlive prepared
  -- The command may go to another process than the one whose stash holds the stack.
  exact command_outlive soundReady outliveReady named performed

theorem processStartInput_outlive {world later : World} (sound : Sound world) (outlive : Outlive world) {p : ProcId}
    (performed : world.processStartInput p = .ok later) : Sound later ∧ Outlive later := by
  have soundLater := processStartInput_sound sound performed
  obtain ⟨process, found, performed⟩ := ok_of_bind performed
  split at performed
  · cases performed
    exact ⟨soundLater, outlive.setProcess sound soundLater found rfl rfl rfl rfl⟩
  · cases performed
    exact ⟨sound, outlive⟩

theorem acceptInput_outlive {world : World} {result : World × Bool} (sound : Sound world) (outlive : Outlive world)
    {p : ProcId} {channel : Channel} (performed : world.acceptInput p channel = .ok result) :
    Sound result.1 ∧ Outlive result.1 := by
  obtain ⟨process, found, performed⟩ := ok_of_bind performed
  obtain ⟨later, started, performed⟩ := ok_of_bind performed
  cases performed
  have soundConnected : Sound (world.setProcess p { process with inputChannel := some channel }) :=
    sound.setProcess found rfl rfl rfl rfl
  exact processStartInput_outlive soundConnected (outlive.setProcess sound soundConnected found rfl rfl rfl rfl) started

theorem inputEof_outlive {world later : World} (sound : Sound world) (outlive : Outlive world) {watch : Watch}
    (performed : world.inputEof watch = .ok later) : Sound later ∧ Outlive later := by
  obtain ⟨process, found, performed⟩ := ok_of_bind performed
  obtain ⟨removed, removing, performed⟩ := ok_of_bind performed
  obtain ⟨defunct, changed, performed⟩ := ok_of_bind performed
  cases performed
  have soundClosed : Sound (world.setProcess watch.process { process with inputChannel := none }) :=
    sound.setProcess found rfl rfl rfl rfl
  have outliveClosed := outlive.setProcess sound soundClosed found rfl rfl rfl rfl
  have kept : Sound removed ∧ Outlive removed := by
    obtain ⟨_, _, removing⟩ := ok_of_bind removing
    split at removing
    · cases removing
      exact ⟨soundClosed, outliveClosed⟩
    · split at removing
      · cases removing
        exact ⟨soundClosed, outliveClosed.blocks, outliveClosed.commands⟩
      · cases removing
        exact ⟨soundClosed, outliveClosed⟩
  obtain ⟨soundLater, outliveLater⟩ := setStatus_outlive kept.1 kept.2 changed
  exact ⟨soundLater, outliveLater.blocks, outliveLater.commands⟩

/-! ## New processes -/

theorem processNew_outlive {world : World} (sound : Sound world) (outlive : Outlive world) :
    Outlive world.processNew.1 := by
  refine outlive.mono sound sound.processNew (fun s object live => ⟨object, live⟩) (fun b block live => ⟨block, live, rfl⟩) ?_
  intro process member command queued
  cases List.mem_append.mp member with
  | inl old => exact ⟨process, old, queued⟩
  | inr new =>
    rw [List.mem_singleton.mp new] at queued
    cases queued

theorem processClone_outlive {world later : World} (sound : Sound world) (outlive : Outlive world) {parent : ProcId}
    (performed : perform world (.processClone parent) = .ok later) : Sound later ∧ Outlive later := by
  obtain ⟨process, found, performed⟩ := ok_of_bind performed
  cases performed
  have soundLater : Sound (world.processNew.1.setProcess world.processNew.2 { process with cloneOf := some parent }) :=
    sound.processNew.setProcess found rfl rfl rfl rfl
  exact ⟨soundLater, (processNew_outlive sound outlive).setProcess sound.processNew soundLater found rfl rfl rfl rfl⟩

theorem processDuplicate_outlive {world : World} {result : World × ProcId} (sound : Sound world)
    (outlive : Outlive world) {p : ProcId} (performed : world.processDuplicate p = .ok result) :
    Sound result.1 ∧ Outlive result.1 := by
  obtain ⟨process, found, duplicating⟩ := ok_of_bind performed
  obtain ⟨later', copy, ran, processes, _, _, same, _, soundLater⟩ := processDuplicate_ok sound found
  rw [performed] at ran
  cases ran
  obtain ⟨⟨blocks, table⟩, copied, duplicating⟩ := ok_of_bind duplicating
  cases duplicating
  refine ⟨soundLater, outlive.mono sound soundLater (fun s object live => ⟨object, live⟩) ?_ ?_⟩
  · obtain ⟨blocks', copy', copied', _, exchange⟩ := duplicateBlocks_ok (sound.coherent (World.mem_of_process found))
    rw [copied] at copied'
    cases copied'
    intro b block' live
    -- The copy lists the blocks of the original, so that there are no others than before.
    have listed : ∃ process ∈ world.processes, b ∈ process.held := by
      obtain ⟨process', member, held⟩ := exists_holder soundLater live
      rw [processes] at member
      cases List.mem_append.mp member with
      | inl old => exact ⟨process', old, held⟩
      | inr new =>
        rw [List.mem_singleton.mp new] at held
        obtain ⟨address, listed⟩ := HashTable.mem_values_iff.mp held
        exact ⟨process, World.mem_of_process found, HashTable.mem_values_iff.mpr ⟨address, same address ▸ listed⟩⟩
    obtain ⟨holder, member, held⟩ := listed
    obtain ⟨block, before⟩ := Store.exists_get_of_refs_pos (sound.sharedBlocks.refs_pos (List.mem_map_of_mem member) held)
    obtain ⟨original, _, live', rfl⟩ := exchange.same b block' live (Store.lt_size_of_get before)
    exact ⟨original, live', rfl⟩
  · intro process' member command queued
    rw [processes] at member
    cases List.mem_append.mp member with
    | inl old => exact ⟨process', old, queued⟩
    | inr new =>
      rw [List.mem_singleton.mp new] at queued
      cases queued

/-! ## Dropping a stash -/

theorem usedByBlock_exchange {world later : World} (soundLater : Sound later) {before after : List BlockId}
    (exchange : world.blocks.Exchanges before after later.blocks) {process : MPProcess}
    (member : process ∈ later.processes) {b : BlockId} (held : b ∈ process.held) {block : Block}
    (live : world.blocks.get b = some block) : ∃ block', later.blocks.get b = some block' ∧
      block'.stack = block.stack := by
  obtain ⟨n, live'⟩ := exchange.get_eq live (soundLater.sharedBlocks.refs_pos (List.mem_map_of_mem member) held)
  exact ⟨_, live', rfl⟩

/-- The stashes that are there afterwards. -/
theorem get_stackStashUnref {stashes later : Store StackStash} {owned : Option StashId}
    (dropped : stackStashUnref stashes owned = .ok later) (s : StashId) :
    (∃ object', later.get s = some object') ↔
      (∃ object, stashes.get s = some object) ∧ ¬(owned = some s ∧ stashes.refs s = 1) := by
  cases owned with
  | none =>
    cases dropped
    simp
  | some own =>
    unfold stackStashUnref at dropped
    simp only at dropped
    split at dropped
    next later' released =>
      cases dropped
      rw [Store.get_release released]
      by_cases here : s = own
      · subst here
        by_cases last : stashes.refs s = 1 <;> simp [last]
      · simp [here, Ne.symm here]
    next => cases dropped

/-- A process drops its table and its stash, and perhaps its queue.  Everybody's traces are
still there exactly when nobody else uses a stash that goes. -/
theorem drop_outlive_iff {world later : World} (sound : Sound world) (soundLater : Sound later)
    (outlive : Outlive world) {p : ProcId} {process process' : MPProcess} (found : world.process p = .ok process)
    (processes : later.processes = world.processes.set p process') (empty : process'.held = [])
    (queue : ∀ command ∈ process'.commandQueue, command ∈ process.commandQueue)
    (exchange : world.blocks.Exchanges process.held [] later.blocks)
    (dropped : stackStashUnref world.stashes process.stackStash = .ok later.stashes) :
    Outlive later ↔ ∀ s, process.stackStash = some s → world.stashes.refs s = 1 →
      (∀ q, q ≠ p → ¬UsedByBlock world q s) ∧ ∀ q, ¬UsedByCommand later q s := by
  have here : later.process p = .ok process' := World.process_of_set found processes
  have elsewhere : ∀ q, q ≠ p → later.process q = world.process q := fun _ => World.process_of_set_ne processes
  have kept := get_stackStashUnref dropped
  constructor
  · intro outliveLater s own last
    -- A last reference that goes takes the stash with it, and all who use it would be left behind.
    have gone : ∀ node, ¬StackLive later.stashes (some ⟨s, node⟩) := fun node live =>
      ((kept s).mp (live ⟨s, node⟩ rfl)).2 ⟨own, last⟩
    constructor
    · rintro q other ⟨holder, foundHolder, b, held, block, node, live, stack⟩
      rw [← elsewhere q other] at foundHolder
      have member := World.mem_of_process foundHolder
      obtain ⟨block', live', same⟩ := usedByBlock_exchange soundLater exchange member held live
      have stillLive := outliveLater.blocks holder member b held block' live'
      rw [same, stack] at stillLive
      exact gone node stillLive
    · rintro q ⟨holder, foundHolder, command, queued, node, stack⟩
      have stillLive := outliveLater.commands holder (World.mem_of_process foundHolder) command queued
      rw [stack] at stillLive
      exact gone node stillLive
  · intro exclusive
    -- Every other stash stays, so that a stack is lost only if it is in the one that goes.
    have survives : ∀ stack : StackPtr, StackLive world.stashes stack →
        (∀ ref ∈ stack, process.stackStash = some ref.stash → world.stashes.refs ref.stash ≠ 1) →
        StackLive later.stashes stack := fun stack live unused ref isRef =>
      (kept ref.stash).mpr ⟨live ref isRef, fun gone => unused ref isRef gone.1 gone.2⟩
    constructor
    · intro holder member b held block' live'
      obtain ⟨q, foundHolder⟩ : ∃ q, later.process q = .ok holder := by
        obtain ⟨q, found'⟩ := List.mem_iff_getElem?.mp member
        exact ⟨q, World.process_eq_ok.mpr found'⟩
      -- The process itself has no blocks any more.
      have other : q ≠ p := by
        rintro rfl
        rw [here] at foundHolder
        cases foundHolder
        rw [empty] at held
        cases held
      have memberBefore : holder ∈ world.processes := World.mem_of_process (elsewhere q other ▸ foundHolder)
      obtain ⟨block, live⟩ := Store.exists_get_of_refs_pos
        (sound.sharedBlocks.refs_pos (List.mem_map_of_mem memberBefore) held)
      obtain ⟨block'', live'', same⟩ := usedByBlock_exchange soundLater exchange member held live
      rw [live'] at live''
      cases live''
      rw [same]
      refine survives _ (outlive.blocks holder memberBefore b held block live) fun ref isRef own last => ?_
      exact (exclusive ref.stash own last).1 q other
        ⟨holder, elsewhere q other ▸ foundHolder, b, held, block, ref.node, live, isRef⟩
    · intro holder member command queued
      obtain ⟨q, foundHolder⟩ : ∃ q, later.process q = .ok holder := by
        obtain ⟨q, found'⟩ := List.mem_iff_getElem?.mp member
        exact ⟨q, World.process_eq_ok.mpr found'⟩
      have before : StackLive world.stashes command.stack := by
        rw [processes] at member
        cases List.mem_or_eq_of_mem_set member with
        | inl old => exact outlive.commands holder old command queued
        | inr own => exact outlive.commands process (World.mem_of_process found) command (queue command (own ▸ queued))
      refine survives _ before fun ref isRef own last => ?_
      exact (exclusive ref.stash own last).2 q ⟨holder, foundHolder, command, queued, ref.node, isRef⟩

theorem processClearInput_outlive_iff {world later : World} (sound : Sound world) (outlive : Outlive world) {p : ProcId}
    (performed : world.processClearInput p = .ok later) :
    Sound later ∧ (Outlive later ↔ Exclusive world (.processClearInput p)) := by
  obtain ⟨process, found, _⟩ := ok_of_bind performed
  obtain ⟨later', ran, replaces, _, soundLater⟩ := dropBlocks_ok sound found
  obtain ⟨exchange, dropped⟩ := dropBlocks_drops sound found performed
  rw [World.processClearInput, ran] at performed
  cases performed
  refine ⟨soundLater, (drop_outlive_iff sound soundLater outlive found replaces.processes rfl (fun _ queued => queued)
    exchange dropped).trans ?_⟩
  -- The queues are those of before.
  have queues : ∀ q s, UsedByCommand later q s ↔ UsedByCommand world q s := by
    intro q s
    by_cases own : q = p
    · subst own
      simp only [UsedByCommand, replaces.found found, found, Except.ok.injEq, exists_eq_left']
      rfl
    · rw [UsedByCommand, replaces.other own]
      rfl
  simp only [queues, Exclusive, found, Except.ok.injEq]
  constructor
  · rintro exclusive _ s rfl own last
    exact exclusive s own last
  · intro exclusive s own last
    exact exclusive process s rfl own last

theorem processExecReset_outlive_iff {world later : World} (sound : Sound world) (outlive : Outlive world) {p : ProcId}
    (performed : world.processExecReset p = .ok later) :
    Sound later ∧ (Outlive later ↔ Exclusive world (.processExecReset p)) := by
  obtain ⟨process, found⟩ : ∃ process, world.process p = .ok process := by
    obtain ⟨_, stopped, _⟩ := ok_of_bind performed
    obtain ⟨process, found, _⟩ := ok_of_bind stopped
    exact ⟨process, found⟩
  obtain ⟨later', ran, replaces, _, soundLater⟩ := processReinit_ok sound found
  obtain ⟨exchange, dropped⟩ := processReinit_drops sound found performed
  rw [World.processExecReset, ran] at performed
  cases performed
  refine ⟨soundLater, (drop_outlive_iff sound soundLater outlive found replaces.processes rfl
    (fun _ queued => by cases queued) exchange dropped).trans ?_⟩
  -- The queue of the process itself is gone.
  have queues : ∀ q s, UsedByCommand later q s ↔ q ≠ p ∧ UsedByCommand world q s := by
    intro q s
    by_cases own : q = p
    · subst own
      simp only [UsedByCommand, replaces.found found, Except.ok.injEq, exists_eq_left', reinitialized]
      simp
    · rw [UsedByCommand, replaces.other own, UsedByCommand]
      simp only [ne_eq, own, not_false_eq_true, true_and]
  simp only [queues, Exclusive, found, Except.ok.injEq, not_and]
  constructor
  · rintro exclusive _ s rfl own last
    exact exclusive s own last
  · intro exclusive s own last
    exact exclusive process s rfl own last

/-! ## Runs -/

/-- One operation, on a profiler whose traces are all there. -/
theorem perform_outlive_iff {world later : World} (sound : Sound world) (outlive : Outlive world)
    {operation : Operation} (performed : perform world operation = .ok later) :
    Sound later ∧ (Outlive later ↔ Exclusive world operation) := by
  have always : Sound later ∧ Outlive later → Sound later ∧ (Outlive later ↔ True) :=
    fun ⟨soundLater, outliveLater⟩ => ⟨soundLater, iff_of_true outliveLater trivial⟩
  cases operation with
  | processNew =>
    cases performed
    exact always ⟨sound.processNew, processNew_outlive sound outlive⟩
  | processClone parent => exact always (processClone_outlive sound outlive performed)
  | acceptInput p channel =>
    obtain ⟨result, accepted, rfl⟩ := ok_of_map performed
    exact always (acceptInput_outlive sound outlive accepted)
  | inputMessage p info frames => exact always (inputMessage_outlive sound outlive performed)
  | inputEof watch => exact always (inputEof_outlive sound outlive performed)
  | processDuplicate p =>
    obtain ⟨result, duplicated, rfl⟩ := ok_of_map performed
    exact always (processDuplicate_outlive sound outlive duplicated)
  | processClearInput p => exact processClearInput_outlive_iff sound outlive performed
  | processExecReset p => exact processExecReset_outlive_iff sound outlive performed

theorem outlive_start : Outlive {} where
  blocks _ member := by cases member
  commands _ member := by cases member

/-- In any run, in which the messages and the other operations may come in any order, every
trace in use is there in every state exactly if each drop is one of a stash that nobody
else uses. -/
theorem run_outlive_iff {operations : List Operation} {world : World} (ran : run operations = .ok world) :
    (∀ earlier reached, earlier <+: operations → run earlier = .ok reached → Outlive reached) ↔
      ∀ earlier operation reached, earlier ++ [operation] <+: operations → run earlier = .ok reached →
        Exclusive reached operation :=
  @foldlM_always_iff _ _ _ perform Sound Outlive (fun _ _ => True) Exclusive {} ⟨sound_start, outlive_start⟩
    (fun _ _ _ sound outlive _ performed => perform_outlive_iff sound outlive performed) operations world ran
    fun _ _ _ _ _ => trivial

/-- A clone that reports into its root, whose child keeps a block of the clone's. -/
theorem run_outlive_iff_clone :
    let operations : List Operation :=
      [.processNew, .processClone 0, .acceptInput 1 1,
        .inputMessage 1 { operation := .malloc, newPtr := 16, size := 8 } [4], .processDuplicate 0,
        .inputMessage 1 { operation := .exit, seqno := 1 } [], .inputEof ⟨1, 1, 1⟩, .processExecReset 0]
    ∃ world, run operations = .ok world ∧
      ((∀ earlier reached, earlier <+: operations → run earlier = .ok reached → Outlive reached) ↔
        ∀ earlier operation reached, earlier ++ [operation] <+: operations → run earlier = .ok reached →
          Exclusive reached operation) := by
  intro operations
  have returns : (run operations).toOption.isSome = true := by decide +kernel
  obtain ⟨world, returned⟩ := Option.isSome_iff_exists.mp returns
  have ran := ok_of_toOption returned
  exact ⟨world, ran, run_outlive_iff ran⟩

instance (stashes : Store StackStash) (stack : StackPtr) : Decidable (StackLive stashes stack) :=
  decidable_of_iff (∀ ref ∈ stack, (stashes.get ref.stash).isSome = true) <| by
    simp only [StackLive, Option.isSome_iff_exists]

instance (world : World) : Decidable (Outlive world) :=
  decidable_of_iff
    ((∀ process ∈ world.processes, ∀ b ∈ process.held, ∀ block ∈ world.blocks.get b,
        StackLive world.stashes block.stack) ∧
      ∀ process ∈ world.processes, ∀ command ∈ process.commandQueue, StackLive world.stashes command.stack)
    ⟨fun ⟨blocks, commands⟩ => ⟨blocks, commands⟩, fun ⟨blocks, commands⟩ => ⟨blocks, commands⟩⟩

/-- A forked child keeps a block whose stash went with the parent's image; a command that
came early waits for its turn while the user clears the numbers. -/
theorem run_dangling :
    (∃ world, run [.processNew, .inputMessage 0 { operation := .malloc, newPtr := 16, size := 8 } [4],
      .processDuplicate 0, .processExecReset 0] = .ok world ∧ ¬Outlive world) ∧
    ∃ world, run [.processNew, .inputMessage 0 { operation := .malloc, seqno := 1, newPtr := 16, size := 8 } [4],
      .processClearInput 0] = .ok world ∧ ¬Outlive world := by
  constructor
  · exact exists_ok_of_any (by decide +kernel)
  · exact exists_ok_of_any (by decide +kernel)

end Memprof.Lifetimes
