import Memprof.Types

/-! # `process.c`: commands and the life of a block table

`processCommand` and the operations that drop, copy or reset the blocks of a process.
`map_list` and `bad_pages` are in `Maps`: of all this only `process_dump_stack` uses them.
It changes nothing else and may fail; `dumps` records its calls, and `Dumping` has what it
does.
-/

namespace Memprof

open Library

/-! ## The queue of commands read -/

/-- `g_list_insert_sorted`: in front of the first element that `data` does not exceed. -/
def gListInsertSorted {α : Type} (compare : α → α → ℤ) : List α → α → List α
  | [], data => [data]
  | head :: tail, data =>
    if 0 < compare data head then head :: gListInsertSorted compare tail data
    else data :: head :: tail

def queueCompare (commanda commandb : Command) : ℤ :=
  if commanda.info.seqno < commandb.info.seqno then -1
  else if commandb.info.seqno < commanda.info.seqno then 1 else 0

def queueCommand (process : MPProcess) (info : MIInfo) (stack : StackPtr) : MPProcess :=
  { process with commandQueue := gListInsertSorted queueCompare process.commandQueue ⟨info, stack⟩ }

def unqueueCommand (process : MPProcess) : Option (Command × MPProcess) :=
  match process.commandQueue with
  | [] => none
  | command :: rest =>
    if command.info.seqno = process.seqno then some (command, { process with commandQueue := rest })
    else none

/-! ## `process_command` -/

def blockUnref (blocks : Store Block) (b : BlockId) : Except Fault (Store Block) :=
  match blocks.release b with
  | some blocks => .ok blocks
  | none => .error .useAfterFree

def deref (blocks : Store Block) (b : BlockId) : Except Fault Block :=
  match blocks.get b with
  | some block => .ok block
  | none => .error .useAfterFree

def getBlockTable (process : MPProcess) : MPProcess :=
  { process with blockTable := some process.table }

/-- The `old_ptr` half of a report. -/
def removeOld (blocks : Store Block) (process : MPProcess) (oldPtr : Addr) (stack : StackPtr) :
    Except Fault (Store Block × MPProcess) :=
  if oldPtr ≠ 0 then
    match process.table.lookup oldPtr with
    -- `g_warning ("Block %p not found (pid=%d)!\n", ...)` and `process_dump_stack`.
    | none => .ok (blocks, { process with dumps := process.dumps ++ [⟨oldPtr, stack⟩] })
    | some b =>
      match blocks.get b with
      | none => .error .useAfterFree
      | some block => do
        let blocks ← blockUnref blocks b
        .ok (blocks, { process with
          blockTable := some (process.table.erase oldPtr)
          bytesUsed := process.bytesUsed - block.size
          nAllocations := process.nAllocations - 1 })
  else .ok (blocks, process)

/-- The `new_ptr` half of a report.  An address already in the table is ignored, since
`realloc` can call `malloc` and report the same block twice. -/
def insertNew (blocks : Store Block) (process : MPProcess) (info : MIInfo) (stack : StackPtr) :
    Store Block × MPProcess :=
  -- `size` is a `size_t` in the message and a `guint` in the block.
  if info.newPtr ≠ 0 ∧ process.table.lookup info.newPtr = none then
    let block : Block := { addr := info.newPtr, size := info.size.toUInt32, stack := stack }
    let (blocks, b) := blocks.alloc block
    (blocks, { process with
      nAllocations := process.nAllocations + 1
      bytesUsed := process.bytesUsed + info.size.toUInt32
      blockTable := some (process.table.insert info.newPtr b) })
  else (blocks, process)

def reportBlock (blocks : Store Block) (process : MPProcess) (info : MIInfo) (stack : StackPtr) :
    Except Fault (Store Block × MPProcess × MIInfo) := do
  let (blocks, process) ← removeOld blocks (getBlockTable process) info.oldPtr stack
  let (blocks, process) := insertNew blocks process info stack
  .ok (blocks, process, info)

/-- `process_command` between its test of the seqno and its loop: the command that is
due.  The caller's `info` is returned, since a sample rewrites it. -/
def applyCommand (blocks : Store Block) (process : MPProcess) (info : MIInfo) (stack : StackPtr) :
    Except Fault (Store Block × MPProcess × MIInfo) :=
  let process := { process with seqno := process.seqno + 1 }
  match info.operation with
  -- These come on connections of their own, never on a channel.
  | .new | .fork | .clone | .exec => .error .assertion
  | .exit => .ok (blocks, process, info)
  | .time =>
    -- A sample is a block of one byte whose address is the seqno, already incremented.
    let info := { info with oldPtr := 0, newPtr := process.seqno.toUInt64, size := 1 }
    reportBlock blocks process info stack
  | .malloc | .realloc | .free | .other _ _ => reportBlock blocks process info stack

mutual

def processCommandFuel : ℕ → Store Block → MPProcess → MIInfo → StackPtr →
    Except Fault (Store Block × MPProcess × MIInfo)
  | 0, _, _, _, _ => .error .outOfFuel
  | fuel + 1, blocks, process, info, stack =>
    -- `queue_command`: the message of another thread comes first.
    if info.seqno ≠ process.seqno then .ok (blocks, queueCommand process info stack, info)
    else do
      let (blocks, process, info) ← applyCommand blocks process info stack
      drainFuel fuel blocks process info

/-- `while (process->command_queue && unqueue_command (...)) process_command (...)` -/
def drainFuel : ℕ → Store Block → MPProcess → MIInfo → Except Fault (Store Block × MPProcess × MIInfo)
  | 0, _, _, _ => .error .outOfFuel
  | fuel + 1, blocks, process, info =>
    match unqueueCommand process with
    | none => .ok (blocks, process, info)
    | some (command, process) => do
      let (blocks, process, info) ← processCommandFuel fuel blocks process command.info command.stack
      drainFuel fuel blocks process info

end

/-- Each queued command can be drained once, by a call that drains in its turn. -/
def processCommand (blocks : Store Block) (process : MPProcess) (info : MIInfo) (stack : StackPtr) :
    Except Fault (Store Block × MPProcess × MIInfo) :=
  processCommandFuel (2 * process.commandQueue.length + 2) blocks process info stack

/-! ## Dropping and copying a block table -/

/-- `if (process->block_table)`: `process_free_block` for every entry. -/
def freeBlocks (blocks : Store Block) : Option BlockTable → Except Fault (Store Block)
  | none => .ok blocks
  | some table =>
    match blocks.releaseAll table.values with
    | some blocks => .ok blocks
    | none => .error .useAfterFree

/-- `if (process->stack_stash) stack_stash_unref (process->stack_stash)` -/
def stackStashUnref (stashes : Store StackStash) : Option StashId → Except Fault (Store StackStash)
  | none => .ok stashes
  | some stash =>
    match stashes.release stash with
    | some stashes => .ok stashes
    | none => .error .useAfterFree

/-- `if (process->block_table)`: `process_duplicate_block` for every entry, so that the
copy holds the same blocks. -/
def duplicateBlocks (blocks : Store Block) : Option BlockTable → Except Fault (Store Block × Option BlockTable)
  | none => .ok (blocks, none)
  | some table =>
    match blocks.retainAll table.values with
    | some blocks => .ok (blocks, some table.copy)
    | none => .error .useAfterFree

namespace World

/-- What `process_clear_input` and `process_reinit` share: counters, table and stash. -/
def dropBlocks (world : World) (p : ProcId) : Except Fault World := do
  let process ← world.process p
  -- The blocks first: their stacks point into the stash.
  let blocks ← freeBlocks world.blocks process.blockTable
  let stashes ← stackStashUnref world.stashes process.stackStash
  .ok ({ world with blocks := blocks, stashes := stashes }.setProcess p { process with
    bytesUsed := 0, nAllocations := 0, blockTable := none, stackStash := none })

def processClearInput (world : World) (p : ProcId) : Except Fault World := world.dropBlocks p

def processStopInput (world : World) (p : ProcId) : Except Fault World := do
  let process ← world.process p
  if process.inputTag ≠ 0 then
    .ok ({ world with watches := world.watches.filter (·.tag ≠ process.inputTag) }.setProcess p
      { process with inputTag := 0 })
  else .ok world

def processStartInput (world : World) (p : ProcId) : Except Fault World := do
  let process ← world.process p
  match process.inputTag, process.inputChannel with
  -- A process that is watched, or has no channel, stays as it is.
  | 0, some channel =>
    let tag := world.lastTag + 1
    .ok ({ world with watches := ⟨tag, channel, p⟩ :: world.watches, lastTag := tag }.setProcess p
      { process with inputTag := tag })
  | _, _ => .ok world

def processReinit (world : World) (p : ProcId) : Except Fault World := do
  let world ← world.processStopInput p
  let world ← world.dropBlocks p
  let process ← world.process p
  -- The commands that wait are forgotten with the `FIXME: leak`.
  .ok (world.setProcess p { process with inputChannel := none, seqno := 0, commandQueue := [] })

def getStackStash (world : World) (p : ProcId) : Except Fault (World × StashId) := do
  let process ← world.process p
  match process.stackStash with
  | some stash => .ok (world, stash)
  | none =>
    let (stashes, stash) := world.stashes.alloc {}
    .ok ({ world with stashes := stashes }.setProcess p { process with stackStash := some stash }, stash)

def processExecReset (world : World) (p : ProcId) : Except Fault World := world.processReinit p

def processNew (world : World) : World × ProcId :=
  ({ world with processes := world.processes ++ [{}] }, world.processes.length)

def processDuplicate (world : World) (p : ProcId) : Except Fault (World × ProcId) := do
  let process ← world.process p
  let (blocks, table) ← duplicateBlocks world.blocks process.blockTable
  let (world, q) := { world with blocks := blocks }.processNew
  -- The copy has no stash, queue or channel, and is nobody's clone.
  .ok (world.setProcess q {
    blockTable := table
    bytesUsed := process.bytesUsed
    nAllocations := process.nAllocations
    seqno := process.seqno
    parent := some p }, q)

/-- A call of `process_command` on process `p`. -/
def command (world : World) (p : ProcId) (info : MIInfo) (stack : StackPtr) : Except Fault World := do
  let process ← world.process p
  let (blocks, process, _) ← processCommand world.blocks process info stack
  .ok ({ world with blocks := blocks }.setProcess p process)

def setStatus (world : World) (p : ProcId) (status : MPProcessStatus) : Except Fault World := do
  let process ← world.process p
  .ok (world.setProcess p { process with status := status })

end World

end Memprof
