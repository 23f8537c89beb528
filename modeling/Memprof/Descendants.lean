import Memprof.Profile

/-! # `profile.c`: descendant trees

The traces below a function are merged into a tree in which a symbol that is met again
folds the trace back to the node where it was met before.  Marks say which nodes the trace
being added has been counted in.
-/

namespace Memprof

open Library

structure ProfileDescendantTreeNode (σ : Type) where
  symbol : σ
  self : UInt32 := 0
  nonRecursion : UInt32 := 0
  total : UInt32 := 0
  children : List ℕ := []
  parent : Option ℕ
  markedNonRecursive : ℤ := 0
  markedTotal : Bool := false

instance {σ : Type} : TreeNode (ProfileDescendantTreeNode σ) σ where
  symbol := ProfileDescendantTreeNode.symbol
  parent := ProfileDescendantTreeNode.parent
  children := ProfileDescendantTreeNode.children
  adopt i node := { node with children := node.children ++ [i] }
  symbol_adopt _ _ := rfl
  parent_adopt _ _ := rfl
  children_adopt _ _ := rfl

abbrev ProfileDescendantTree (σ : Type) := Forest (ProfileDescendantTreeNode σ)

/-- What the loop of `add_trace_to_tree` changes; `roots` is always the array of `parent`. -/
structure TraceState (σ : Type) where
  tree : ProfileDescendantTree σ
  parent : Option ℕ := none
  seenSymbols : HashTable σ ℕ := ∅
  nodesToUnmark : List ℕ := []
  nodesToUnmarkRecursive : List ℕ := []

section

variable {σ : Type} [DecidableEq σ]

/-! ## `add_trace_to_tree` -/

/-- `for (node = parent; node != seen_tree_node->parent; node = node->parent)`: a size is
taken back, `stop` is where the loop ends. -/
def takeBack (size : UInt32) (stop : Option ℕ) :
    ℕ → Option ℕ → ProfileDescendantTree σ → Except Fault (ProfileDescendantTree σ)
  | fuel, node, tree =>
    if node = stop then .ok tree
    else
      match fuel, node with
      | _, none => .error .nullDereference
      | 0, some _ => .error .brokenChain
      | fuel + 1, some i => do
        let node ← fetch tree i
        takeBack size stop fuel node.parent (tree.set i { node with
          nonRecursion := node.nonRecursion - size
          markedNonRecursive := node.markedNonRecursive - 1 })

/-- `for (node = match; node != NULL; node = node->parent)`: the symbols on the path of `i`. -/
def pathSymbols (tree : ProfileDescendantTree σ) (i : ℕ) : Except Fault (HashTable σ ℕ) :=
  match walk tree.nodes ProfileDescendantTreeNode.parent tree.nodes.length (some i) with
  | none => .error .brokenChain
  | some list => list.foldlM (fun seenSymbols j => do
      let node ← fetch tree j
      .ok (seenSymbols.insert node.symbol j)) ∅

/-- `if (seen_tree_node)`: the trace goes on at the node that was seen. -/
def foldBack (size : UInt32) (state : TraceState σ) (seen : ℕ) : Except Fault (TraceState σ) := do
  -- The symbol was seen above, so there is a path.
  if state.parent = none then .error .assertion
  else
    let node ← fetch state.tree seen
    let tree ← takeBack size node.parent state.tree.nodes.length state.parent state.tree
    let seenSymbols ← pathSymbols tree seen
    .ok { state with
      tree := tree
      seenSymbols := seenSymbols }

/-- The node for the next symbol: a child of `parent`, one that was seen before on the
path, or a new child. -/
def matchDescendant (size : UInt32) (state : TraceState σ) (symbol : σ) : Except Fault (TraceState σ × ℕ) := do
  let found ← matchChild state.tree state.parent symbol
  match found, state.seenSymbols.lookup symbol with
  -- A child with the symbol is taken before the path is looked at.
  | some i, _ => .ok (state, i)
  | none, some seen => do
    let state ← foldBack size state seen
    .ok (state, seen)
  | none, none =>
    let (tree, i) := state.tree.add { symbol := symbol, parent := state.parent }
    .ok ({ state with tree := tree }, i)

/-- What the rest of the loop body does to the node: the size is added once to what
is not marked yet. -/
def chargeDescendant (size : UInt32) (last : Bool) (node : ProfileDescendantTreeNode σ) : ProfileDescendantTreeNode σ :=
  { node with
    nonRecursion := if node.markedNonRecursive = 0 then node.nonRecursion + size else node.nonRecursion
    markedNonRecursive := if node.markedNonRecursive = 0 then node.markedNonRecursive + 1 else node.markedNonRecursive
    total := if node.markedTotal then node.total else node.total + size
    markedTotal := true
    self := if last then node.self + size else node.self }

def addTraceNode (size : UInt32) (state : TraceState σ) (symbol : σ) (last : Bool) : Except Fault (TraceState σ) := do
  let (state, i) ← matchDescendant size state symbol
  let node ← fetch state.tree i
  .ok {
    tree := state.tree.set i (chargeDescendant size last node)
    parent := some i
    seenSymbols := state.seenSymbols.insert symbol i
    nodesToUnmark := if node.markedNonRecursive = 0 then i :: state.nodesToUnmark else state.nodesToUnmark
    nodesToUnmarkRecursive := if node.markedTotal then state.nodesToUnmarkRecursive
      else i :: state.nodesToUnmarkRecursive }

def addTraceNodes (size : UInt32) : TraceState σ → List σ → Except Fault (TraceState σ)
  | state, [] => .ok state
  | state, symbol :: rest => do
    let state ← addTraceNode size state symbol rest.isEmpty
    addTraceNodes size state rest

def unmark (tree : ProfileDescendantTree σ) (i : ℕ) : Except Fault (ProfileDescendantTree σ) := do
  let node ← fetch tree i
  .ok (tree.set i { node with markedNonRecursive := 0 })

def unmarkRecursive (tree : ProfileDescendantTree σ) (i : ℕ) : Except Fault (ProfileDescendantTree σ) := do
  let node ← fetch tree i
  .ok (tree.set i { node with markedTotal := false })

/-- Of the nodes of the trace only the symbols are read. -/
def addTraceToTree (tree : ProfileDescendantTree σ) (trace : List (ProfileNode σ)) (size : UInt32) :
    Except Fault (ProfileDescendantTree σ) := do
  let state ← addTraceNodes size { tree := tree } (trace.map ProfileNode.symbol)
  let tree ← state.nodesToUnmark.foldlM unmark state.tree
  state.nodesToUnmarkRecursive.foldlM unmarkRecursive tree

/-! ## The traces below a function -/

def nodeListLeaves (forest : Forest (ProfileNode σ)) : ℕ → ℕ → List ℕ → Except Fault (List ℕ)
  | 0, _, _ => .error .outOfFuel
  | fuel + 1, i, leaves => do
    let node ← fetch forest i
    -- A trace ends where a node has something of its own.
    let leaves := if 0 < node.self then i :: leaves else leaves
    node.children.foldlM (fun leaves child => nodeListLeaves forest fuel child leaves) leaves

/-- `for (node = leaf; node && node != top->parent; node = node->parent)` -/
def leafTrace (forest : Forest (ProfileNode σ)) (stop : Option ℕ) :
    ℕ → Option ℕ → List (ProfileNode σ) → Except Fault (List (ProfileNode σ))
  | _, none, trace => .ok trace
  | fuel, some i, trace =>
    if some i = stop then .ok trace
    else
      match fuel with
      | 0 => .error .brokenChain
      | fuel + 1 => do
        let node ← fetch forest i
        leafTrace forest stop fuel node.parent (node :: trace)

def addLeafToTree (forest : Forest (ProfileNode σ)) (top : ProfileNode σ) (tree : ProfileDescendantTree σ) (leaf : ℕ) :
    Except Fault (ProfileDescendantTree σ) := do
  let trace ← leafTrace forest top.parent forest.nodes.length (some leaf) []
  let node ← fetch forest leaf
  addTraceToTree tree trace node.self

/-- The loop body of `profile_func_create_descendant_tree`. -/
def addTopToTree (forest : Forest (ProfileNode σ)) (tree : ProfileDescendantTree σ) (i : ℕ) :
    Except Fault (ProfileDescendantTree σ) := do
  let top ← fetch forest i
  -- What is below an inner call is below the outer one too.
  if top.toplevel then do
    let leaves ← nodeListLeaves forest forest.nodes.length i []
    leaves.foldlM (addLeafToTree forest top) tree
  else .ok tree

def profileFuncCreateDescendantTree (profile : Profile σ) (func : ProfileFunc) :
    Except Fault (ProfileDescendantTree σ) :=
  match walk profile.forest.nodes ProfileNode.next profile.forest.nodes.length func.node with
  | none => .error .brokenChain
  | some chain => chain.foldlM (addTopToTree profile.forest) {}

end

end Memprof
