import Memprof.Library.Links
import Memprof.Types

/-! # `stackstash.c`

The trie of stack traces.  `cached_nodes` and `blocks` only recycle memory, and
`destroy` is always `NULL` in this program.
-/

namespace Memprof

open Library

namespace StackStash

/-- What a `StackNode **` points at: `&stash->root` or the `children` of a node. -/
inductive Location where
  | root
  | children (node : ℕ)
deriving DecidableEq

def load (stash : StackStash) : Location → Except Fault (Option ℕ)
  | .root => .ok stash.root
  | .children n =>
    match stash.nodes[n]? with
    | some node => .ok node.children
    | none => .error .useAfterFree

def node (stash : StackStash) (n : ℕ) : Except Fault StackNode :=
  match stash.nodes[n]? with
  | some node => .ok node
  | none => .error .useAfterFree

def setNode (stash : StackStash) (n : ℕ) (node : StackNode) : StackStash :=
  { stash with nodes := stash.nodes.set n node }

def store (stash : StackStash) (location : Location) (n : ℕ) : Except Fault StackStash :=
  match location with
  | .root => .ok { stash with root := some n }
  | .children m => do
    let node ← stash.node m
    .ok (stash.setNode m { node with children := some n })

/-- A loop over a chain of nodes that stops at the first one with `address`. -/
def find (stash : StackStash) (link : StackNode → Option ℕ) (address : Addr) (start : Option ℕ) :
    Except Fault (Option ℕ) :=
  match search stash.nodes link (fun node => node.address = address) stash.nodes.length start with
  | some found => .ok found
  | none => .error .brokenChain

end StackStash

def stackNodeNew (stash : StackStash) : StackStash × ℕ :=
  ({ stash with nodes := stash.nodes ++ [{}] }, stash.nodes.length)

def decorateNode (stash : StackStash) (n : ℕ) : Except Fault StackStash := do
  let node ← stash.node n
  let earlier ← stash.find StackNode.parent node.address node.parent
  .ok { stash.setNode n { node with toplevel := earlier.isNone, next := stash.nodesByData.lookup node.address } with
    nodesByData := stash.nodesByData.insert node.address n }

/-- The `if (!match)` of `stack_stash_add_trace`. -/
def stackStashAddNode (stash : StackStash) (location : StackStash.Location) (head parent : Option ℕ)
    (address : Addr) : Except Fault (StackStash × ℕ) := do
  let (stash, fresh) := stackNodeNew stash
  let stash := stash.setNode fresh { address := address, siblings := head, parent := parent }
  let stash ← stash.store location fresh
  let stash ← decorateNode stash fresh
  .ok (stash, fresh)

def stackStashMatch (stash : StackStash) (location : StackStash.Location) (parent : Option ℕ) (address : Addr) :
    Except Fault (StackStash × ℕ) := do
  -- The siblings under one parent, the newest first.
  let head ← stash.load location
  let found ← stash.find StackNode.siblings address head
  match found with
  | some found => .ok (stash, found)
  | none => stackStashAddNode stash location head parent address

/-- The body of the loop of `stack_stash_add_trace`. -/
def stackStashAddFrame (size : ℤ) (state : StackStash × StackStash.Location × Option ℕ) (address : Addr) :
    Except Fault (StackStash × StackStash.Location × Option ℕ) := do
  let (stash, location, parent) := state
  let (stash, found) ← stackStashMatch stash location parent address
  let node ← stash.node found
  .ok (stash.setNode found { node with total := node.total + UInt32.ofInt size }, .children found, some found)

/-- `parent->size += size`, of the innermost node. -/
def stackStashCharge (size : ℤ) (stash : StackStash) : Option ℕ → Except Fault (StackStash × Option ℕ)
  -- `parent` is `NULL` for a trace without addresses only.
  | none => .error .nullDereference
  | some parent => do
    let node ← stash.node parent
    .ok (stash.setNode parent { node with size := node.size + BitVec.ofInt 31 size }, some parent)

def stackStashAddTrace (stash : StackStash) (addrs : List Addr) (size : ℤ) : Except Fault (StackStash × Option ℕ) :=
  if addrs = [] then .ok (stash, none)
  -- The last address is the outermost caller, where the trie begins.
  else addrs.reverse.foldlM (stackStashAddFrame size) (stash, .root, none) >>= fun result =>
    stackStashCharge size result.1 result.2.2

/-! ## Enumeration -/

/-- A `GList` cell on the C stack; a link is the position of another one. -/
structure GList where
  data : Option Addr := none
  next : Option ℕ := none
  prev : Option ℕ := none
deriving DecidableEq, Repr

namespace GList

/-- `trace->prev = prev`, where `trace` is not `NULL`. -/
def setPrev (cells : List GList) (trace prev : Option ℕ) : Except Fault (List GList) :=
  match trace with
  | none => .ok cells
  | some t =>
    match cells[t]? with
    | none => .error .useAfterFree
    | some cell => .ok (cells.set t { cell with prev := prev })

def setData (cells : List GList) (link : ℕ) (data : Addr) : Except Fault (List GList) :=
  match cells[link]? with
  | none => .error .useAfterFree
  | some cell => .ok (cells.set link { cell with data := some data })

end GList

/-- What a `StackFunction` is given: the cells there are, the one that `trace` points at,
and the size. -/
structure StackFunctionCall where
  cells : List GList
  trace : ℕ
  size : ℤ
deriving DecidableEq, Repr

/-- The frame of a `do_callback` with its `link` around the loop, which is `body`. -/
def doCallback {σ : Type} (body : ℕ → List GList → σ → Except Fault (List GList × σ)) (trace : Option ℕ)
    (cells : List GList) (data : σ) : Except Fault (List GList × σ) := do
  let link := cells.length
  let cells ← GList.setPrev cells trace (some link)
  let (cells, data) ← body link (cells ++ [{ next := trace }]) data
  let cells ← GList.setPrev cells trace none
  .ok (cells.dropLast, data)

/-- `if (node->size) func (&link, node->size, data)` -/
def callSized {σ : Type} (func : StackFunctionCall → σ → Except Fault σ) (cells : List GList) (link : ℕ)
    (node : StackNode) (data : σ) : Except Fault σ :=
  if node.size ≠ 0 then func ⟨cells, link, node.size.toNat⟩ data else .ok data

def doCallbackLoop {σ : Type} (stash : StackStash) (func : StackFunctionCall → σ → Except Fault σ) :
    ℕ → Option ℕ → ℕ → List GList → σ → Except Fault (List GList × σ)
  | _, none, _, cells, data => .ok (cells, data)
  | 0, some _, _, _, _ => .error .brokenChain
  | fuel + 1, some n, link, cells, data => do
    let node ← stash.node n
    let cells ← GList.setData cells link node.address
    let data ← callSized func cells link node data
    let (cells, data) ← doCallback (doCallbackLoop stash func fuel node.children) (some link) cells data
    doCallbackLoop stash func fuel node.siblings link cells data

def stackStashForeach {σ : Type} (stash : StackStash) (func : StackFunctionCall → σ → Except Fault σ) (data : σ) :
    Except Fault σ := do
  let (_, data) ← doCallback (doCallbackLoop stash func stash.nodes.length stash.root) none [] data
  .ok data

/-! ## The lists of nodes with one address -/

def stackStashFindNode (stash : StackStash) (data : Addr) : Option ℕ := stash.nodesByData.lookup data

def buildHashTable : ℕ → Option ℕ → StackStash → Except Fault StackStash
  | _, none, stash => .ok stash
  | 0, some _, _ => .error .brokenChain
  | fuel + 1, some n, stash => do
    let node ← stash.node n
    let stash ← buildHashTable fuel node.siblings stash
    let node ← stash.node n
    let stash ← buildHashTable fuel node.children stash
    let node ← stash.node n
    .ok { stash.setNode n { node with next := stash.nodesByData.lookup node.address } with
      nodesByData := stash.nodesByData.insert node.address n }

/-- The nodes under `root` are already where the links of `stash` lead. -/
def stackStashSetRoot (stash : StackStash) (root : Option ℕ) : Except Fault StackStash :=
  -- The two `g_return_if_fail`.
  if stash.root ≠ none ∨ stash.nodesByData.entries.length ≠ 0 then .ok stash
  else buildHashTable stash.nodes.length root { stash with root := root }

end Memprof
