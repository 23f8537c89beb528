import Memprof.LeakDetect
import Memprof.StackStash

/-! # `main.c`: the leak list

The rows that `leaks_fill` makes of a report, and those of the stack of the selected block.
`findLine` is `process_find_line`, which may change what is known of the mappings.
-/

namespace Memprof.LeakList

open Library

/-- What `process_find_line` fills in; where it returns `FALSE` there is nothing. -/
structure Line where
  filename : Option String
  functionname : Option String
  line : UInt32
deriving DecidableEq, Repr

/-- A row of the leaks: `LEAK_BLOCK_ADDR`, `LEAK_BLOCK_SIZE`, `LEAK_BLOCK_CALLER` and
`LEAK_BLOCK_BLOCK`. -/
structure LeakRow where
  addr : Addr
  size : UInt32
  caller : String
  block : BlockId
deriving DecidableEq, Repr

/-- A row of the stack: `LEAK_STACK_NAME`, `LEAK_STACK_LINE` and `LEAK_STACK_FILE`. -/
structure StackRow where
  name : Option String
  line : UInt32
  file : Option String
deriving DecidableEq, Repr

def unknown : String := "(???)"

/-- The nodes from `block->stack` on, through `parent`. -/
def stackNodes (stashes : Store StackStash) (block : Block) : Except Fault (List StackNode) :=
  match block.stack with
  | none => .ok []
  | some ref =>
    match stashes.get ref.stash with
    | none => .error .useAfterFree
    | some stash =>
      match walk stash.nodes StackNode.parent stash.nodes.length (some ref.node) with
      | none => .error .brokenChain
      | some elements => elements.mapM stash.node

/-- The name that a frame gives the block, unless its function is to be skipped; no
`skip_regexes` are ever added. -/
def callerName (skipFuncs : List String) (line : Option Line) : Option String :=
  (line.bind Line.functionname).filter fun functionname => functionname ∉ skipFuncs

/-- A frame as a row, with `(???)` for what is not known of it. -/
def stackRow : Option Line → StackRow
  | some line => ⟨line.functionname, line.line, line.filename⟩
  | none => ⟨some unknown, 0, some unknown⟩

section Fill

variable {μ : Type} (findLine : μ → Addr → Option Line × μ) (skipFuncs : List String)

/-- The loop of `leaks_fill` over the stack of a block: it ends at the first name. -/
def findCaller (maps : μ) : List StackNode → Option String × μ
  | [] => (none, maps)
  | stack :: rest =>
    let (line, maps) := findLine maps stack.address
    match callerName skipFuncs line with
    | some functionname => (some functionname, maps)
    | none => findCaller maps rest

def fillRow (stashes : Store StackStash) (blocks : Store Block) (state : List LeakRow × μ) (b : BlockId) :
    Except Fault (List LeakRow × μ) := do
  let block ← deref blocks b
  let nodes ← stackNodes stashes block
  let (functionname, maps) := findCaller findLine skipFuncs state.2 nodes
  .ok (state.1 ++ [⟨block.addr, block.size, functionname.getD unknown, b⟩], maps)

/-- `leaks_fill`: the rows in the order of the report, before the list sorts them. -/
def leaksFill (stashes : Store StackStash) (blocks : Store Block) (maps : μ) (leaks : List BlockId) :
    Except Fault (List LeakRow × μ) :=
  leaks.foldlM (fillRow findLine skipFuncs stashes blocks) ([], maps)

/-- `leak_block_selection_changed`, when `selected` is the row selected, if any. -/
def leakBlockSelectionChanged (stashes : Store StackStash) (blocks : Store Block) (maps : μ)
    (selected : Option LeakRow) : Except Fault (List StackRow × μ) := do
  match selected with
  | none => .ok ([], maps)
  | some row => do
    let block ← deref blocks row.block
    let nodes ← stackNodes stashes block
    .ok (nodes.foldl (fun state stack =>
      let (line, maps) := findLine state.2 stack.address
      (state.1 ++ [stackRow line], maps)) ([], maps))

end Fill

end Memprof.LeakList
