import Memprof.Process

/-! # `leakdetect.c`

`leaks_find` from where the target is stopped and its memory is open to where it is
continued.  What the kernel and the executable's files say of the target is a `Target`;
a pointer is a word of eight bytes.
-/

namespace Memprof

open Library

def sizeofPointer : ℕ := 8

structure Map where
  addr : UInt64
  size : UInt64
deriving DecidableEq, Repr

structure Target where
  stackMaps : List Map := []
  /-- For every clone `start_stack` and `end_stack`, if `read_proc_stat` succeeds. -/
  stats : List (Option (UInt64 × UInt64)) := []
  sections : List (Addr × UInt32) := []
  /-- `PTRACE_PEEKDATA`; nothing when it sets `errno`. -/
  peekData : Addr → Option Addr

/-- A block of the target and the blocks that are still to be looked into: the objects of
the profiler and `block_list`. -/
abbrev BlockList := Store Block × List BlockId

/-! ## Roots -/

/-- The root that `add_stack_root` makes if the stack pointer of the clone is in `map`. -/
def stackRoot (startStack endStack : UInt64) (map : Map) : Option Block :=
  if map.addr ≤ endStack ∧ endStack < map.addr + map.size then
    -- The stack grows down from `start_stack`, if that is in the map at all.
    let size :=
      if map.addr < startStack ∧ startStack < map.addr + map.size then startStack - endStack
      else map.addr + map.size - endStack
    some { flags := { isRoot := true }, addr := endStack, size := size.toUInt32, stack := none }
  else none

def addRoot (list : BlockList) (root : Block) : BlockList :=
  let (blocks, b) := list.1.alloc root
  (blocks, b :: list.2)

def cloneRoot (maps : List Map) : Option (UInt64 × UInt64) → Option Block
  | none => none
  | some (startStack, endStack) => maps.findSome? (stackRoot startStack endStack)

def addStackRoot (maps : List Map) (list : BlockList) (stat : Option (UInt64 × UInt64)) : BlockList :=
  match cloneRoot maps stat with
  | some root => addRoot list root
  | none => list

def addStackRoots (target : Target) (list : BlockList) : BlockList :=
  target.stats.foldl (addStackRoot target.stackMaps) list

def dataRoot (addr : Addr) (size : UInt32) : Block :=
  { flags := { isRoot := true }, addr := addr, size := size, stack := none }

def processDataRoot (list : BlockList) (part : Addr × UInt32) : BlockList := addRoot list (dataRoot part.1 part.2)

def addDataRoots (target : Target) (list : BlockList) : BlockList := target.sections.foldl processDataRoot list

def Target.roots (target : Target) : List Block :=
  target.stats.filterMap (cloneRoot target.stackMaps) ++ target.sections.map fun part => dataRoot part.1 part.2

/-! ## The array of blocks -/

/-- The array holds a reference of its own to every block. -/
def prepareBlock (state : BlockList) (b : BlockId) : Except Fault BlockList := do
  let block ← deref state.1 b
  -- A table has no roots.
  if block.flags.isRoot then .error .assertion
  else
    let block := { block with flags := { block.flags with marked := false }, refcount := block.refcount + 1 }
    .ok (state.1.put b block, state.2 ++ [b])

def compareBlocks (b1 b2 : Block) : ℤ := if b1.addr < b2.addr then -1 else if b1.addr = b2.addr then 0 else 1

def sortBlocks (blocks : Store Block) (arr : List BlockId) : Except Fault (List BlockId) := do
  let data ← arr.mapM fun b => (deref blocks b).map (Prod.mk b)
  .ok ((data.mergeSort fun b1 b2 => compareBlocks b1.2 b2.2 ≤ 0).map Prod.fst)

def element (blocks : Store Block) (arr : List BlockId) (i : UInt32) : Except Fault (BlockId × Block) :=
  match arr[i.toNat]? with
  | none => .error .outOfBounds
  | some b => do
    let block ← deref blocks b
    .ok (b, block)

/-! ## Looking up an address -/

/-- The loop of `find_block`: `data[first]->addr <= addr < data[last]->addr`. -/
def findBlockLoop (blocks : Store Block) (arr : List BlockId) (addr : Addr) :
    ℕ → UInt32 → UInt32 → Except Fault UInt32
  | 0, _, _ => .error .outOfFuel
  | fuel + 1, first, last =>
    if first < last - 1 then do
      -- `guint`s: the sum wraps, which `first < last - 1` does not exclude.
      let middle := (first + last) / 2
      let (_, block) ← element blocks arr middle
      if addr < block.addr then findBlockLoop blocks arr addr fuel first middle
      else findBlockLoop blocks arr addr fuel middle last
    else .ok first

def within (blocks : Store Block) (arr : List BlockId) (addr : Addr) (i : UInt32) : Except Fault (Option BlockId) := do
  let (b, block) ← element blocks arr i
  .ok (if addr < block.addr + block.size.toUInt64 then some b else none)

def findBlock (fuel : ℕ) (blocks : Store Block) (arr : List BlockId) (addr : Addr) :
    Except Fault (Option BlockId) :=
  if UInt32.ofNat arr.length = 0 then .ok none
  else do
    let last := UInt32.ofNat arr.length - 1
    let (_, lowest) ← element blocks arr 0
    if addr < lowest.addr then .ok none
    else
      let (_, highest) ← element blocks arr last
      if addr < highest.addr then
        let first ← findBlockLoop blocks arr addr fuel 0 last
        within blocks arr addr first
      -- The last block has no successor that bounds it.
      else within blocks arr addr last

/-! ## Marking -/

def scanWord (fuel : ℕ) (arr : List BlockId) (mem : List Addr) (list : BlockList) (i : ℕ) : Except Fault BlockList :=
  match mem[i]? with
  | none => .error .outOfBounds
  | some word => do
    let found ← findBlock fuel list.1 arr word
    match found with
    | none => .ok list
    | some b => do
      let block ← deref list.1 b
      if block.flags.isRoot then .error .assertion
      -- It is in `block_list` already or has been looked into.
      else if block.flags.marked then .ok list
      else .ok (list.1.put b { block with flags := { block.flags with marked := true } }, b :: list.2)

def scanBlockContents (fuel : ℕ) (arr : List BlockId) (list : BlockList) (block : Block) (mem : List Addr) :
    Except Fault BlockList :=
  (List.range (block.size.toNat / sizeofPointer)).foldlM (scanWord fuel arr mem) list

def wordAddr (block : Block) (i : ℕ) : Addr := block.addr + UInt64.ofNat (i * sizeofPointer)

/-- The words read before `scan_block` looks at any of them, more than the block has. -/
def readBlock (target : Target) (block : Block) : Option (List Addr) :=
  (List.range ((block.size + 3) / 4).toNat).mapM fun i => target.peekData (wordAddr block i)

/-- A block that cannot be read is only warned about. -/
def scanBlock (fuel : ℕ) (target : Target) (arr : List BlockId) (list : BlockList) (b : BlockId) :
    Except Fault BlockList := do
  let block ← deref list.1 b
  match readBlock target block with
  -- `g_warning ("Cannot read word ...")`
  | none => .ok list
  | some mem => scanBlockContents fuel arr list block mem

/-- `while (block_list)`; the searches have the fuel `search`. -/
def leaksMark (search : ℕ) (target : Target) (arr : List BlockId) : ℕ → BlockList → Except Fault (Store Block)
  | 0, _ => .error .outOfFuel
  | _ + 1, (blocks, []) => .ok blocks
  | fuel + 1, (blocks, b :: list) => do
    let list ← scanBlock search target arr (blocks, list) b
    leaksMark search target arr fuel list

/-- `i++` of an `int` that is not negative. -/
def increment (i : ℕ) : Except Fault ℕ := if i = 2 ^ 31 - 1 then .error .signedOverflow else .ok (i + 1)

/-- An unmarked block is a result, which takes the reference of the array over. -/
def sweepBlock (list : BlockList) (b : BlockId) : Except Fault BlockList := do
  let block ← deref list.1 b
  if block.flags.marked then do
    let blocks ← blockUnref list.1 b
    .ok (blocks, list.2)
  else .ok (list.1, b :: list.2)

/-- `for (i=0; i<block_arr->len; i++)`: what is left of the array when the `int` is `i`. -/
def leaksSweep : ℕ → List BlockId → BlockList → Except Fault BlockList
  | _, [], list => .ok list
  | i, b :: rest, list => do
    let list ← sweepBlock list b
    -- The counter is an `int`, the length of the array a `guint`.
    let i ← increment i
    leaksSweep i rest list

def leaksFind (fuel : ℕ) (world : World) (p : ProcId) (target : Target) : Except Fault (World × List BlockId) := do
  let process ← world.process p
  let world := world.setProcess p (getBlockTable process)
  let (blocks, arr) ← process.held.foldlM prepareBlock (world.blocks, [])
  let arr ← sortBlocks blocks arr
  -- The roots are in `block_list` and not in the array.
  let list := addDataRoots target (addStackRoots target (blocks, []))
  let blocks ← leaksMark fuel target arr fuel list
  let (blocks, result) ← leaksSweep 0 arr (blocks, [])
  .ok ({ world with blocks := blocks }, result)

end Memprof
