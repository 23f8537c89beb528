import Memprof.Verified.Accounting

/-! # A fork and its parent do not disturb each other

What a process says of its blocks, how many there are and how large, is determined by the
sizes in its table.  Two runs that show one process the same operations keep these alike,
whatever is done to the other processes in between.
-/

namespace Memprof.Isolation

open Library Blocks Delivery Accounting

/-! ## The sizes in a table -/

abbrev Sizes := Addr → Option UInt32

def sizes (blocks : Store Block) (table : BlockTable) : Sizes := fun address =>
  (contents blocks table address).map Prod.fst

theorem sizes_eq_none {blocks : Store Block} {table : BlockTable} (keyed : Keyed blocks table) {address : Addr} :
    sizes blocks table address = none ↔ table.lookup address = none := by
  rw [sizes, Option.map_eq_none_iff, contents_eq_none keyed]

/-- Tables that give the same sizes have their entries at the same addresses. -/
theorem keys_perm {left right : Store Block} {table table' : BlockTable} (keyed : Keyed left table)
    (keyed' : Keyed right table') (same : sizes left table = sizes right table') : table.keys.Perm table'.keys := by
  have distinct : ∀ table : BlockTable, table.keys.Nodup := fun table => table.nodupKeys
  rw [List.perm_ext_iff_of_nodup (distinct table) (distinct table')]
  intro address
  rw [← AList.mem_keys, ← AList.mem_keys, ← not_iff_not, ← AList.lookup_eq_none, ← AList.lookup_eq_none,
    ← sizes_eq_none keyed, ← sizes_eq_none keyed', same]

theorem bytes_eq {blocks : Store Block} {table : BlockTable} (keyed : Keyed blocks table) :
    table.values.map (Blocks.sizeOf blocks) = table.keys.map fun address => (sizes blocks table address).getD 0 := by
  rw [HashTable.values, AList.keys, List.keys, List.map_map, List.map_map]
  apply List.map_congr_left
  rintro ⟨address, b⟩ member
  have found := HashTable.mem_entries_iff.mp member
  obtain ⟨block, live, _⟩ := keyed address b found
  simp [Blocks.sizeOf, sizes, contents, found, live]

/-- The counters are those of the sizes. -/
theorem accounts_same {left right : Store Block} {process process' : MPProcess} (accounts : Accounts left process)
    (accounts' : Accounts right process') (keyed : Keyed left process.table) (keyed' : Keyed right process'.table)
    (same : sizes left process.table = sizes right process'.table) :
    process.bytesUsed = process'.bytesUsed ∧ process.nAllocations = process'.nAllocations := by
  have perm := keys_perm keyed keyed' same
  have length : ∀ table : BlockTable, table.entries.length = table.keys.length := fun table => by
    rw [AList.keys, List.keys, List.length_map]
  constructor
  · rw [accounts.bytes, accounts'.bytes, MPProcess.held, MPProcess.held, bytes_eq keyed, bytes_eq keyed', same]
    exact (perm.map _).sum_eq
  · rw [accounts.number, accounts'.number, length, length, perm.length_eq]

/-! ## What a report does to them -/

def Sizes.remove (sizes : Sizes) (oldPtr : Addr) : Sizes :=
  if oldPtr = 0 then sizes else Function.update sizes oldPtr none

def Sizes.insert (sizes : Sizes) (newPtr : Addr) (size : UInt32) : Sizes :=
  if newPtr ≠ 0 ∧ sizes newPtr = none then Function.update sizes newPtr (some size) else sizes

def Sizes.report (sizes : Sizes) (oldPtr newPtr : Addr) (size : UInt32) : Sizes :=
  (sizes.remove oldPtr).insert newPtr size

/-- The sizes of what a table says. -/
def sizesOf (contents : Contents) : Sizes := fun address => (contents address).map Prod.fst

/-- The stacks do not decide what is new. -/
theorem sizesOf_report (contents : Contents) (oldPtr newPtr : Addr) (size : UInt32) (stack : StackPtr) :
    sizesOf (contents.report oldPtr newPtr size stack) = (sizesOf contents).report oldPtr newPtr size := by
  have removed : sizesOf (contents.remove oldPtr) = (sizesOf contents).remove oldPtr := by
    unfold Contents.remove Sizes.remove
    split
    · rfl
    · funext address
      by_cases here : address = oldPtr
      · simp [sizesOf, here]
      · simp only [sizesOf, Function.update_of_ne here]
  have known : (sizesOf contents).remove oldPtr newPtr = none ↔ contents.remove oldPtr newPtr = none := by
    rw [← removed, sizesOf, Option.map_eq_none_iff]
  unfold Contents.report Contents.insert Sizes.report Sizes.insert
  simp only [known]
  split
  · funext address
    by_cases here : address = newPtr
    · simp [sizesOf, here]
    · simp only [sizesOf, Function.update_of_ne here]
      exact congrFun removed address
  · exact removed

theorem sizes_apply {left right : Contents} (same : sizesOf left = sizesOf right) (seqno : UInt32) (info : MIInfo)
    (stack : StackPtr) : sizesOf (left.apply seqno info stack) = sizesOf (right.apply seqno info stack) := by
  unfold Contents.apply
  cases info.operation with
  | exit => exact same
  | time | malloc | realloc | free | new | fork | clone | exec | other _ _ =>
    simp only [sizesOf_report, same]

/-! ## Two runs of one process -/

/-- The table of one run and that of the other say the same. -/
structure Alike (left right : Store Block × MPProcess) : Prop where
  coherentLeft : Coherent left.1 left.2.table
  coherentRight : Coherent right.1 right.2.table
  sizes : sizes left.1 left.2.table = sizes right.1 right.2.table
  seqno : left.2.seqno = right.2.seqno

theorem Alike.consume {left right : Store Block × MPProcess} (alike : Alike left right) (command : Command) :
    Agree Alike (consume left command) (consume right command) := by
  by_cases reported : IsReport command.info.operation
  · obtain ⟨blocks, process, info, applied, step, _, seqno, table⟩ :=
      applyCommand_spec alike.coherentLeft reported command.stack
    obtain ⟨blocks', process', info', applied', step', _, seqno', table'⟩ :=
      applyCommand_spec alike.coherentRight reported command.stack
    have numbered : process.seqno = process'.seqno := by rw [seqno, seqno', alike.seqno]
    rw [Delivery.consume, Delivery.consume, applied, applied']
    refine .ok ⟨step.coherent, step'.coherent, ?_, numbered⟩
    have same := alike.sizes
    unfold Isolation.sizes at same ⊢
    rw [table, table', numbered]
    exact sizes_apply same _ _ _
  · have fault : ∀ state : Store Block × MPProcess, Delivery.consume state command = .error .assertion := by
      intro state
      unfold Delivery.consume applyCommand
      cases operation : command.info.operation with
      | new | fork | clone | exec => rfl
      | malloc | realloc | free | time | exit | other _ _ =>
        rw [operation] at reported
        exact absurd trivial reported
    rw [fault, fault]
    exact .error _

/-- A call of `process_command`, with the same commands waiting on either side. -/
theorem Alike.call {left right : Store Block × MPProcess} (alike : Alike left right)
    (queue : left.2.commandQueue = right.2.commandQueue) (command : Command) :
    Agree (fun later later' => Alike later later' ∧ later.2.commandQueue = later'.2.commandQueue)
      (call left command) (call right command) := by
  obtain ⟨blocks, process⟩ := left
  obtain ⟨blocks', process'⟩ := right
  have detached : Alike (blocks, withQueue [] process) (blocks', withQueue [] process') :=
    ⟨alike.coherentLeft, alike.coherentRight, alike.sizes, alike.seqno⟩
  have expectedSame : ∀ state state', Alike state state' → expected state = expected state' := fun state state' same =>
    congrArg UInt32.toNat same.seqno
  have delivered := @deliver_agree _ _ _ expected number Delivery.consume _ expected Delivery.consume Alike expectedSame
    (fun state state' item same => same.consume item) _ _ detached process.commandQueue command
  have spelled : ∀ (blocks : Store Block) (process : MPProcess), Delivery.call (blocks, process) command =
      (deliver expected number Delivery.consume ((blocks, withQueue [] process), process.commandQueue) command).map
        rejoin := fun blocks process => call_eq_deliver blocks process process.commandQueue command
  simp only at queue
  rw [spelled, spelled, ← queue]
  refine delivered.map ?_
  rintro pending pending' ⟨same, waiting⟩
  exact ⟨⟨same.coherentLeft, same.coherentRight, same.sizes, same.seqno⟩, waiting⟩

/-! ## Operations on one process -/

inductive LocalOperation where
  | processCommand (info : MIInfo) (stack : StackPtr)
  | processClearInput
  | processExecReset
  | processDuplicate

def LocalOperation.on (p : ProcId) : LocalOperation → Operation
  | .processCommand info stack => .processCommand p info stack
  | .processClearInput => .processClearInput p
  | .processExecReset => .processExecReset p
  | .processDuplicate => .processDuplicate p

/-- An operation leaves the other processes as they are, and what it does to the blocks is an
exchange of references. -/
structure Leaves (world : World) (p : ProcId) (later : World) : Prop where
  other : ∀ q process, q ≠ p → world.process q = .ok process → later.process q = .ok process
  exchange : ∃ before after, world.blocks.Exchanges before after later.blocks

theorem leaves_setProcess {world later : World} {p : ProcId} {process' : MPProcess}
    (processes : later.processes = world.processes.set p process') {before after : List BlockId}
    (exchange : world.blocks.Exchanges before after later.blocks) : Leaves world p later where
  other q process different found := by
    rw [World.process_eq_ok] at found ⊢
    rw [processes, List.getElem?_set_ne (Ne.symm different), found]
  exchange := ⟨before, after, exchange⟩

theorem command_leaves {world later : World} (sound : Sound world) {p : ProcId} {info : MIInfo} {stack : StackPtr}
    (performed : world.command p info stack = .ok later) : Leaves world p later := by
  obtain ⟨process, found, performed⟩ := ok_of_bind performed
  obtain ⟨⟨blocks, process', info'⟩, called, performed⟩ := ok_of_bind performed
  have ensured := @processCommand_ensures (fun _ => True) _ _ (sound.coherent (World.mem_of_process found)) info stack
    fun _ _ => .inr trivial
  cases performed
  exact leaves_setProcess rfl (ensured.of_ok called).1.exchange

theorem dropBlocks_leaves {world later : World} (sound : Sound world) {p : ProcId}
    (performed : world.dropBlocks p = .ok later) : Leaves world p later := by
  obtain ⟨process, found, _⟩ := ok_of_bind performed
  obtain ⟨later', ran, replaces, _⟩ := dropBlocks_ok sound found
  have released := (dropBlocks_drops sound found performed).1
  rw [performed] at ran
  cases ran
  exact leaves_setProcess replaces.processes released

theorem processReinit_leaves {world later : World} (sound : Sound world) {p : ProcId} {process : MPProcess}
    (found : world.process p = .ok process) (performed : world.processReinit p = .ok later) : Leaves world p later := by
  obtain ⟨later', ran, replaces, _⟩ := processReinit_ok sound found
  have released := (processReinit_drops sound found performed).1
  rw [performed] at ran
  cases ran
  exact leaves_setProcess replaces.processes released

theorem processDuplicate_leaves {world later : World} (sound : Sound world) {p q : ProcId}
    (performed : world.processDuplicate p = .ok (later, q)) :
    (∀ r process, world.process r = .ok process → later.process r = .ok process) ∧
      ∃ before after, world.blocks.Exchanges before after later.blocks := by
  obtain ⟨process, found, performed'⟩ := ok_of_bind performed
  obtain ⟨⟨blocks, table⟩, copied, performed'⟩ := ok_of_bind performed'
  obtain ⟨blocks', copy, copied', _, exchange⟩ := duplicateBlocks_ok (sound.coherent (World.mem_of_process found))
  rw [copied] at copied'
  cases copied'
  obtain ⟨later', copy', ran, processes, _⟩ := processDuplicate_ok sound found
  rw [performed] at ran
  cases ran
  refine ⟨fun r other foundR => ?_, ?_⟩
  · rw [World.process_eq_ok] at foundR ⊢
    rw [processes, List.getElem?_append_left (List.getElem?_eq_some_iff.mp foundR).1, foundR]
  · cases performed'
    exact ⟨_, _, exchange⟩

theorem perform_leaves {world later : World} (sound : Sound world) {p : ProcId} {operation : LocalOperation}
    (performed : perform world (operation.on p) = .ok later) : Leaves world p later := by
  cases operation with
  | processCommand info stack => exact command_leaves sound performed
  | processClearInput => exact dropBlocks_leaves sound performed
  | processExecReset =>
    obtain ⟨quiet, stopped, _⟩ := ok_of_bind performed
    obtain ⟨process, found, _⟩ := ok_of_bind stopped
    exact processReinit_leaves sound found performed
  | processDuplicate =>
    simp only [LocalOperation.on, perform] at performed
    cases ran : world.processDuplicate p with
    | error fault => rw [ran] at performed; cases performed
    | ok result =>
      rw [ran] at performed
      cases performed
      obtain ⟨others, exchange⟩ := processDuplicate_leaves sound ran
      exact ⟨fun q process _ found => others q process found, exchange⟩

/-! ## Runs side by side -/

/-- A process in a run and in the run of its own operations alone. -/
structure Mirror (q : ProcId) (world solo : World) : Prop where
  sound : Sound world
  soundSolo : Sound solo
  alike : ∃ process process', world.process q = .ok process ∧ solo.process q = .ok process' ∧
    Alike (world.blocks, process) (solo.blocks, process') ∧ process.commandQueue = process'.commandQueue

theorem mirror_of {q : ProcId} {world solo : World} (sound : Sound world) (soundSolo : Sound solo)
    {process process' : MPProcess} (found : world.process q = .ok process) (found' : solo.process q = .ok process')
    (same : sizes world.blocks process.table = sizes solo.blocks process'.table)
    (seqno : process.seqno = process'.seqno) (queue : process.commandQueue = process'.commandQueue) :
    Mirror q world solo :=
  ⟨sound, soundSolo, process, process', found, found',
    ⟨sound.coherent (World.mem_of_process found), soundSolo.coherent (World.mem_of_process found'), same, seqno⟩, queue⟩

theorem sizes_leaves {world later : World} (sound : Sound world) (soundLater : Sound later) {process : MPProcess}
    (member : process ∈ world.processes) (member' : process ∈ later.processes)
    (exchange : ∃ before after, world.blocks.Exchanges before after later.blocks) :
    sizes later.blocks process.table = sizes world.blocks process.table := by
  obtain ⟨before, after, exchange⟩ := exchange
  funext address
  rw [sizes, sizes, contents_other sound soundLater exchange member member']

/-- What is done to another process does not show. -/
theorem Mirror.frame {p q : ProcId} {world solo later : World} (mirror : Mirror q world solo) (different : q ≠ p)
    {operation : LocalOperation} (performed : perform world (operation.on p) = .ok later) : Mirror q later solo := by
  obtain ⟨process, process', found, found', alike, queue⟩ := mirror.alike
  have leaves := perform_leaves mirror.sound performed
  have soundLater := perform_sound mirror.sound performed
  have foundLater := leaves.other q process different found
  refine mirror_of soundLater mirror.soundSolo foundLater found' ?_ alike.seqno queue
  rw [sizes_leaves mirror.sound soundLater (World.mem_of_process found) (World.mem_of_process foundLater) leaves.exchange]
  exact alike.sizes

/-- What is done to the process itself can be done in the other run too. -/
theorem Mirror.step {q : ProcId} {world solo later : World} (mirror : Mirror q world solo) {operation : LocalOperation}
    (performed : perform world (operation.on q) = .ok later) :
    ∃ later', perform solo (operation.on q) = .ok later' ∧ Mirror q later later' := by
  obtain ⟨process, process', found, found', alike, queue⟩ := mirror.alike
  have soundLater := perform_sound mirror.sound performed
  cases operation with
  | processCommand info stack =>
    simp only [LocalOperation.on, perform, World.command, found, ok_bind] at performed
    obtain ⟨⟨blocks, processLater, info'⟩, ran, performed⟩ := ok_of_bind performed
    cases performed
    -- Both runs deliver the same command to queues that are the same.
    have called := alike.call queue ⟨info, stack⟩
    have left : Delivery.call (world.blocks, process) ⟨info, stack⟩ = .ok (blocks, processLater) := by
      rw [Delivery.call, ran]
      rfl
    rw [left] at called
    obtain ⟨⟨blocksSolo, processSolo⟩, right, same, queueSame⟩ := called.exists_of_ok
    obtain ⟨infoSolo, ranSolo⟩ : ∃ infoSolo,
        processCommand solo.blocks process' info stack = .ok (blocksSolo, processSolo, infoSolo) := by
      unfold Delivery.call at right
      cases result : processCommand solo.blocks process' info stack with
      | error _ => rw [result] at right; cases right
      | ok triple => rw [result] at right; cases right; exact ⟨_, rfl⟩
    have performedSolo : perform solo (.processCommand q info stack) =
        .ok ({ solo with blocks := blocksSolo }.setProcess q processSolo) := by
      rw [perform, World.command, found', ok_bind, ranSolo, ok_bind]
    refine ⟨_, performedSolo, mirror_of soundLater (perform_sound mirror.soundSolo performedSolo) ?_ ?_ same.sizes
      same.seqno queueSame⟩
    · exact @World.process_setProcess_self { world with blocks := blocks } q process found processLater
    · exact @World.process_setProcess_self { solo with blocks := blocksSolo } q process' found' processSolo
  | processClearInput =>
    obtain ⟨next, ran, replaces, _, soundNext⟩ := dropBlocks_ok mirror.sound found
    obtain ⟨nextSolo, ranSolo, replacesSolo, _, soundNextSolo⟩ := dropBlocks_ok mirror.soundSolo found'
    simp only [LocalOperation.on, perform, World.processClearInput] at performed ⊢
    rw [ran] at performed
    cases performed
    exact ⟨nextSolo, ranSolo, mirror_of soundNext soundNextSolo (replaces.found found) (replacesSolo.found found')
      rfl alike.seqno queue⟩
  | processExecReset =>
    obtain ⟨next, ran, replaces, _, soundNext⟩ := processReinit_ok mirror.sound found
    obtain ⟨nextSolo, ranSolo, replacesSolo, _, soundNextSolo⟩ := processReinit_ok mirror.soundSolo found'
    simp only [LocalOperation.on, perform, World.processExecReset] at performed ⊢
    rw [ran] at performed
    cases performed
    exact ⟨nextSolo, ranSolo, mirror_of soundNext soundNextSolo (replaces.found found) (replacesSolo.found found')
      rfl rfl rfl⟩
  | processDuplicate =>
    obtain ⟨next, copy, ran, _, _, _, _, _, soundNext⟩ := processDuplicate_ok mirror.sound found
    obtain ⟨nextSolo, copySolo, ranSolo, _, _, _, _, _, soundNextSolo⟩ := processDuplicate_ok mirror.soundSolo found'
    simp only [LocalOperation.on, perform] at performed ⊢
    rw [ran] at performed
    cases performed
    -- A fork adds a process; the table of `q` stays and its blocks gain a reference.
    obtain ⟨others, exchange⟩ := processDuplicate_leaves mirror.sound ran
    obtain ⟨othersSolo, exchangeSolo⟩ := processDuplicate_leaves mirror.soundSolo ranSolo
    refine ⟨nextSolo, by rw [ranSolo]; rfl, mirror_of soundNext soundNextSolo (others q process found)
      (othersSolo q process' found') ?_ alike.seqno queue⟩
    rw [sizes_leaves mirror.sound soundNext (World.mem_of_process found) (World.mem_of_process (others q process found))
      exchange, sizes_leaves mirror.soundSolo soundNextSolo (World.mem_of_process found')
      (World.mem_of_process (othersSolo q process' found')) exchangeSolo]
    exact alike.sizes

/-- Operations on the processes that are named with them, one after the other. -/
def runOn (world : World) (operations : List (ProcId × LocalOperation)) : Except Fault World :=
  operations.foldlM (fun world entry => perform world (entry.2.on entry.1)) world

theorem Mirror.run {q : ProcId} {world solo later : World} (mirror : Mirror q world solo)
    {operations : List (ProcId × LocalOperation)} (ran : runOn world operations = .ok later) :
    ∃ later', runOn solo (operations.filter (·.1 = q)) = .ok later' ∧ Mirror q later later' := by
  induction operations generalizing world solo with
  | nil =>
    cases ran
    exact ⟨solo, rfl, mirror⟩
  | cons entry operations inductionHypothesis =>
    rw [runOn, List.foldlM_cons] at ran
    obtain ⟨next, performed, ranRest⟩ := ok_of_bind ran
    obtain ⟨p, operation⟩ := entry
    by_cases own : p = q
    · subst own
      obtain ⟨next', performed', mirrorNext⟩ := mirror.step performed
      obtain ⟨later', ran', mirrorLater⟩ := inductionHypothesis mirrorNext ranRest
      refine ⟨later', ?_, mirrorLater⟩
      rw [List.filter_cons_of_pos (by simp), runOn, List.foldlM_cons, performed', ok_bind]
      exact ran'
    · obtain ⟨later', ran', mirrorLater⟩ := inductionHypothesis (mirror.frame (Ne.symm own) performed) ranRest
      refine ⟨later', ?_, mirrorLater⟩
      rw [List.filter_cons_of_neg (by simp [own])]
      exact ran'

/-- A process has the same sizes at the same addresses, the same counters and the same next
seqno in two worlds. -/
def SameAccount (world solo : World) (r : ProcId) : Prop :=
  ∃ process process', world.process r = .ok process ∧ solo.process r = .ok process' ∧
    sizes world.blocks process.table = sizes solo.blocks process'.table ∧ process.bytesUsed = process'.bytesUsed ∧
    process.nAllocations = process'.nAllocations ∧ process.seqno = process'.seqno

theorem Mirror.sameAccount {q : ProcId} {world solo : World} (mirror : Mirror q world solo) :
    SameAccount world solo q := by
  obtain ⟨process, process', found, found', alike, _⟩ := mirror.alike
  have own := World.mem_of_process found
  have own' := World.mem_of_process found'
  obtain ⟨bytes, number⟩ := accounts_same (mirror.sound.accounts process own) (mirror.soundSolo.accounts process' own')
    (mirror.sound.keyed process own) (mirror.soundSolo.keyed process' own') alike.sizes
  exact ⟨process, process', found, found', alike.sizes, bytes, number, alike.seqno⟩

/-- After a fork the parent and the copy each end, whatever is done to the other one in
between, as if it had been left alone, and what they list is there. -/
theorem fork_isolated {before : List Operation} {world forked later : World} (reached : run before = .ok world)
    {p q : ProcId} (duplicated : world.processDuplicate p = .ok (forked, q))
    {operations : List (ProcId × LocalOperation)} (ran : runOn forked operations = .ok later) {r : ProcId}
    (related : r = p ∨ r = q) :
    (∃ solo, runOn forked (operations.filter (·.1 = r)) = .ok solo ∧ SameAccount later solo r) ∧
      ∀ process, later.process r = .ok process → ∀ b ∈ process.held, ∃ block, later.blocks.get b = some block := by
  have sound := run_sound reached
  have isProcess : ∃ process, forked.process r = .ok process := by
    obtain ⟨process, found, _⟩ := ok_of_bind duplicated
    obtain ⟨_, copy, ranDuplicate, processes, _⟩ := processDuplicate_ok sound found
    rw [duplicated] at ranDuplicate
    cases ranDuplicate
    rcases related with rfl | rfl
    · exact ⟨process, (processDuplicate_leaves sound duplicated).1 r process found⟩
    · exact ⟨Accounting.duplicated p process copy, by rw [World.process_eq_ok, processes, List.getElem?_concat_length]⟩
  obtain ⟨process, found⟩ := isProcess
  have soundForked : Sound forked := by
    have performed : perform world (.processDuplicate p) = .ok forked := by
      rw [perform, duplicated]
      rfl
    exact perform_sound sound performed
  have mirror := mirror_of soundForked soundForked found found rfl rfl rfl
  obtain ⟨solo, ranSolo, mirrorLater⟩ := mirror.run ran
  refine ⟨⟨solo, ranSolo, mirrorLater.sameAccount⟩, fun processLater foundLater b member => ?_⟩
  exact Store.exists_get_of_refs_pos
    (mirrorLater.sound.sharedBlocks.refs_pos (List.mem_map_of_mem (World.mem_of_process foundLater)) member)

/-- After a fork each side releases the block they share, and the parent is reset. -/
theorem fork_isolated_released : ∃ world forked later,
    run [.processNew, .processCommand 0 { operation := .malloc, newPtr := 16, size := 8 } none] = .ok world ∧
      world.processDuplicate 0 = .ok (forked, 1) ∧
      runOn forked [(1, .processCommand { operation := .free, seqno := 1, oldPtr := 16 } none),
        (0, .processExecReset), (1, .processCommand { operation := .malloc, seqno := 2, newPtr := 16, size := 4 } none)] =
        .ok later ∧
      (∃ solo, runOn forked [(1, .processCommand { operation := .free, seqno := 1, oldPtr := 16 } none),
        (1, .processCommand { operation := .malloc, seqno := 2, newPtr := 16, size := 4 } none)] = .ok solo ∧
        SameAccount later solo 1) ∧
      ∀ process, later.process 1 = .ok process → ∀ b ∈ process.held, ∃ block, later.blocks.get b = some block := by
  have returns : ((run [.processNew, .processCommand 0 { operation := .malloc, newPtr := 16, size := 8 } none]).toOption.bind
      fun world => (world.processDuplicate 0).toOption.bind fun made => (runOn made.1
        [(1, .processCommand { operation := .free, seqno := 1, oldPtr := 16 } none), (0, .processExecReset),
          (1, .processCommand { operation := .malloc, seqno := 2, newPtr := 16, size := 4 } none)]).toOption.map
            fun _ => made.2) = some 1 := by decide +kernel
  obtain ⟨world, reached, returns⟩ := Option.bind_eq_some_iff.mp returns
  obtain ⟨⟨forked, q⟩, duplicated, returns⟩ := Option.bind_eq_some_iff.mp returns
  obtain ⟨later, ran, rfl⟩ := Option.map_eq_some_iff.mp returns
  have isReached := ok_of_toOption reached
  have isDuplicated := ok_of_toOption duplicated
  have isRun := ok_of_toOption ran
  exact ⟨world, forked, later, isReached, isDuplicated, isRun, fork_isolated isReached isDuplicated isRun (.inr rfl)⟩

end Memprof.Isolation
