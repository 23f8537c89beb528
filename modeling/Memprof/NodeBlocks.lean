import Memprof.StackStash

/-! # `stack_node_new`

The stash of `stackstash.c` as it lies in memory.  Its nodes are those of the blocks that
`g_malloc` has returned, block after block, and the nodes that no trace uses are a list
through the same `next` that lists the nodes of one address.
-/

namespace Memprof.NodeBlocks

open Library

/-- `sizeof (StackNode)`: five pointers, `total`, and `size` with `toplevel`. -/
def sizeofStackNode (model : DataModel) : ℕ := 5 * model.pointerSize + 8

def blockSize : ℕ := 32768

def nNodes (model : DataModel) : ℕ := blockSize / sizeofStackNode model

structure BlockStash where
  /-- The `nodes` are those of all blocks. -/
  stash : StackStash := {}
  cachedNodes : Option ℕ := none
  /-- Where each block begins. -/
  blocks : List ℕ := []

def cacheNode (memory : BlockStash) (n : ℕ) : Except Fault BlockStash := do
  let node ← memory.stash.node n
  .ok { memory with
    stash := memory.stash.setNode n { node with next := memory.cachedNodes }
    cachedNodes := some n }

variable (model : DataModel) (garbage : ℕ → StackNode)

/-- A block has any contents at first. -/
def newBlock (memory : BlockStash) : Except Fault BlockStash := do
  let block := memory.stash.nodes.length
  let contents := (List.range' block (nNodes model)).map garbage
  let memory := { memory with stash := { memory.stash with nodes := memory.stash.nodes ++ contents } }
  let memory ← (List.range' block (nNodes model)).foldlM cacheNode memory
  .ok { memory with blocks := memory.blocks ++ [block] }

/-- The `if (!stash->cached_nodes)` of `stack_node_new`. -/
def ensureCached (memory : BlockStash) : Except Fault BlockStash :=
  if memory.cachedNodes = none then newBlock model garbage memory else .ok memory

def stackNodeNew (memory : BlockStash) : Except Fault (BlockStash × ℕ) := do
  let memory ← ensureCached model garbage memory
  match memory.cachedNodes with
  | none => .error .nullDereference
  | some n => do
    let node ← memory.stash.node n
    -- `toplevel` is not written here.
    .ok ({ memory with
      stash := memory.stash.setNode n { node with siblings := none, children := none, address := 0, parent := none,
                                                  size := 0, next := none, total := 0 }
      cachedNodes := node.next }, n)

/-- The `if (!match)` of `stack_stash_add_trace`. -/
def stackStashAddNode (memory : BlockStash) (location : StackStash.Location) (head parent : Option ℕ)
    (address : Addr) :
    Except Fault (BlockStash × ℕ) := do
  let (memory, fresh) ← stackNodeNew model garbage memory
  let node ← memory.stash.node fresh
  let stash := memory.stash.setNode fresh { node with address := address, siblings := head, parent := parent }
  let stash ← stash.store location fresh
  let stash ← decorateNode stash fresh
  .ok ({ memory with stash := stash }, fresh)

def stackStashMatch (memory : BlockStash) (location : StackStash.Location) (parent : Option ℕ) (address : Addr) :
    Except Fault (BlockStash × ℕ) := do
  let head ← memory.stash.load location
  let found ← memory.stash.find StackNode.siblings address head
  match found with
  | some found => .ok (memory, found)
  | none => stackStashAddNode model garbage memory location head parent address

/-- The body of the loop of `stack_stash_add_trace`. -/
def stackStashAddFrame (size : ℤ) (state : BlockStash × StackStash.Location × Option ℕ) (address : Addr) :
    Except Fault (BlockStash × StackStash.Location × Option ℕ) := do
  let (memory, location, parent) := state
  let (memory, found) ← stackStashMatch model garbage memory location parent address
  let node ← memory.stash.node found
  .ok ({ memory with stash := memory.stash.setNode found { node with total := node.total + UInt32.ofInt size } },
    .children found, some found)

def stackStashAddTrace (memory : BlockStash) (addrs : List Addr) (size : ℤ) : Except Fault (BlockStash × Option ℕ) :=
  if addrs = [] then .ok (memory, none)
  else do
    let (memory, _, parent) ← addrs.reverse.foldlM (stackStashAddFrame model garbage size) (memory, .root, none)
    let (stash, parent) ← stackStashCharge size memory.stash parent
    .ok ({ memory with stash := stash }, parent)

/-- Calls of `stack_stash_add_trace` on one stash and the nodes they return. -/
def addTraces (memory : BlockStash) (calls : List (List Addr × ℤ)) : Except Fault (BlockStash × List (Option ℕ)) :=
  calls.foldlM (fun state call => do
    let (memory, start) ← stackStashAddTrace model garbage state.1 call.1 call.2
    .ok (memory, state.2 ++ [start])) (memory, [])

/-- `g_free`, of the blocks that `g_malloc` has returned and nobody has freed. -/
def gFree (heap : List ℕ) (block : ℕ) : Except Fault (List ℕ) :=
  if block ∈ heap then .ok (heap.erase block) else .error .useAfterFree

/-- The loop of `stack_stash_free`, where `destroy` is always `NULL`.  The table, the array of
blocks and the stash, which are no blocks of nodes, are freed after it. -/
def stackStashFree (heap : List ℕ) (memory : BlockStash) : Except Fault (List ℕ) := memory.blocks.foldlM gFree heap

end Memprof.NodeBlocks
