import Memprof.Library.Forest
import Memprof.Process
import Memprof.StackStash

/-! # `profile.c`: call trees

A profile is the tree of the stacks of all blocks, in which the nodes of one symbol are
chained.  Symbols are compared as pointers, and by their names with the functions to skip.
`locate` is `process_locate_symbol`: it may find nothing, and it changes what is known of
the mappings of the process.
-/

namespace Memprof

open Library

/-- The array `children` of the source's `GPtrArray *`s; `next` is the node of the same
symbol that was made before. -/
structure ProfileNode (σ : Type) where
  symbol : σ
  total : UInt32 := 0
  self : UInt32 := 0
  toplevel : Bool
  next : Option ℕ
  children : List ℕ := []
  parent : Option ℕ

instance {σ : Type} : TreeNode (ProfileNode σ) σ where
  symbol := ProfileNode.symbol
  parent := ProfileNode.parent
  children := ProfileNode.children
  adopt i node := { node with children := node.children ++ [i] }
  symbol_adopt _ _ := rfl
  parent_adopt _ _ := rfl
  children_adopt _ _ := rfl

structure ProfileFunc where
  total : UInt32 := 0
  self : UInt32 := 0
  node : Option ℕ
deriving DecidableEq, Repr

/-- The roots are those of the forest. -/
structure Profile (σ : Type) where
  forest : Forest (ProfileNode σ) := {}
  functions : List ProfileFunc := []
  nBytes : UInt32 := 0
  nodesBySymbol : HashTable σ ℕ := ∅

/-- `nodes[i]`, through a pointer. -/
def fetch {ν : Type} (forest : Forest ν) (i : ℕ) : Except Fault ν :=
  match forest.nodes[i]? with
  | some node => .ok node
  | none => .error .useAfterFree

/-- The loop that looks for a symbol among the children of `parent`. -/
def matchChild {ν σ : Type} [TreeNode ν σ] [DecidableEq σ] (forest : Forest ν) (parent : Option ℕ) (symbol : σ) :
    Except Fault (Option ℕ) :=
  match forest.array parent >>= forest.find symbol with
  | some found => .ok found
  | none => .error .useAfterFree

section

variable {σ τ : Type} [DecidableEq σ] (locate : τ → Addr → Option σ × τ) (name : σ → String)

/-! ## The tree -/

/-- The loop body of `block_create_stack_list`. -/
def keepFrame (skipHash : HashTable String String) (stash : StackStash) (state : List StackNode × τ) (i : ℕ) :
    Except Fault (List StackNode × τ) := do
  let (stack, maps) := state
  let element ← stash.node i
  let (symbol, maps) := locate maps element.address
  -- Skipped functions are known by name, symbols by pointer.
  if symbol.any fun symbol => (skipHash.lookup (name symbol)).isSome then .ok (stack, maps)
  else .ok (element :: stack, maps)

/-- The frames of a block from the outermost one, without those to skip. -/
def blockCreateStackList (stashes : Store StackStash) (skipHash : HashTable String String) (maps : τ) (block : Block) :
    Except Fault (List StackNode × τ) :=
  match block.stack with
  | none => .ok ([], maps)
  | some ref =>
    match stashes.get ref.stash with
    | none => .error .useAfterFree
    | some stash =>
      match walk stash.nodes StackNode.parent stash.nodes.length (some ref.node) with
      | none => .error .brokenChain
      | some elements => elements.foldlM (keepFrame locate name skipHash stash) ([], maps)

/-- `if (!match)`: a node is made below `parent`. -/
def addProfileNode (profile : Profile σ) (parent : Option ℕ) (seenSymbols : HashTable σ Unit) (symbol : σ) :
    Profile σ × ℕ :=
  let node : ProfileNode σ :=
    { symbol := symbol
      -- No outer frame of this trace has the symbol.
      toplevel := (seenSymbols.lookup symbol).isNone
      next := profile.nodesBySymbol.lookup symbol
      parent := parent }
  let (forest, i) := profile.forest.add node
  ({ profile with
    forest := forest
    nodesBySymbol := profile.nodesBySymbol.insert symbol i }, i)

/-- The node of a symbol below `parent`, the last one found or a new one. -/
def matchNode (profile : Profile σ) (parent : Option ℕ) (seenSymbols : HashTable σ Unit) (symbol : σ) :
    Except Fault (Profile σ × ℕ) := do
  let found ← matchChild profile.forest parent symbol
  match found with
  | some i => .ok (profile, i)
  | none => .ok (addProfileNode profile parent seenSymbols symbol)

def chargeNode (size : UInt32) (last : Bool) (node : ProfileNode σ) : ProfileNode σ :=
  { node with
    total := node.total + size
    self := if last then node.self + size else node.self }

/-- The loop of `profile_add_stack_trace`; `roots` is always the array of `parent`.  A
symbol that was not found ends in `symbol_hash`. -/
def profileAddFrames (size : UInt32) :
    τ → Profile σ → Option ℕ → HashTable σ Unit → List StackNode → Except Fault (Profile σ × τ)
  | maps, profile, _, _, [] => .ok (profile, maps)
  | maps, profile, parent, seenSymbols, element :: rest =>
    match locate maps element.address with
    | (none, _) => .error .nullDereference
    | (some symbol, maps) => do
      let (profile, i) ← matchNode profile parent seenSymbols symbol
      let node ← fetch profile.forest i
      let profile := { profile with forest := profile.forest.set i (chargeNode size rest.isEmpty node) }
      profileAddFrames size maps profile (some i) (seenSymbols.insert symbol ()) rest

def profileAddStackTrace (maps : τ) (profile : Profile σ) (stack : List StackNode) (size : UInt32) :
    Except Fault (Profile σ × τ) :=
  profileAddFrames locate size maps profile none ∅ stack

/-- The loop body of `profile_build_tree`. -/
def profileAddBlock (stashes : Store StackStash) (skipHash : HashTable String String) (state : Profile σ × τ)
    (block : Block) : Except Fault (Profile σ × τ) := do
  let (profile, maps) := state
  let (stack, maps) ← blockCreateStackList locate name stashes skipHash maps block
  profileAddStackTrace locate maps profile stack block.size

def skipHash (skipFuncs : List String) : HashTable String String :=
  skipFuncs.foldl (fun hash func => hash.insert func "") ∅

def profileBuildTree (stashes : Store StackStash) (maps : τ) (profile : Profile σ) (blocks : List Block)
    (skipFuncs : List String) : Except Fault (Profile σ × τ) :=
  blocks.foldlM (profileAddBlock locate name stashes (skipHash skipFuncs)) (profile, maps)

/-! ## Functions -/

/-- The loop body of `add_function`. -/
def countNode (forest : Forest (ProfileNode σ)) (func : ProfileFunc) (i : ℕ) : Except Fault ProfileFunc := do
  let node ← fetch forest i
  .ok { func with
    self := func.self + node.self
    total := if node.toplevel then func.total + node.total else func.total }

def addFunction (forest : Forest (ProfileNode σ)) (i : ℕ) : Except Fault ProfileFunc :=
  match walk forest.nodes ProfileNode.next forest.nodes.length (some i) with
  | none => .error .brokenChain
  | some chain => chain.foldlM (countNode forest) { node := some i }

/-- `add_block_to_list`, for the block of every entry. -/
def addBlocksToList (blocks : Store Block) (held : List BlockId) : Except Fault (List Block) :=
  held.foldlM (fun list b => do
    let block ← deref blocks b
    .ok (block :: list)) []

def profileCreate (maps : τ) (world : World) (p : ProcId) (skipFuncs : List String) :
    Except Fault (World × τ × Profile σ) := do
  let process ← world.process p
  let world := world.setProcess p (getBlockTable process)
  let blocks ← addBlocksToList world.blocks process.held
  let (profile, maps) ← profileBuildTree locate name world.stashes maps {} blocks skipFuncs
  let nBytes := blocks.foldl (fun nBytes block => nBytes + block.size) profile.nBytes
  let functions ← profile.nodesBySymbol.entries.mapM fun entry => addFunction profile.forest entry.2
  .ok (world, maps, { profile with
    nBytes := nBytes
    functions := functions })

end

/-! ## Callers -/

section

variable {σ : Type} [DecidableEq σ]

/-- The entries of a caller list as they are made: a caller is found by its symbol, and
the entry without a caller at its place. -/
structure Callers (σ : Type) where
  result : List ProfileFunc := []
  callersBySymbol : HashTable σ ℕ := ∅
  spontaneous : Option ℕ := none

/-- The first loop over the nodes of the function. -/
def addCaller (forest : Forest (ProfileNode σ)) (callers : Callers σ) (i : ℕ) : Except Fault (Callers σ) := do
  let node ← fetch forest i
  match node.parent with
  | some p => do
    let parent ← fetch forest p
    if (callers.callersBySymbol.lookup parent.symbol).isNone then
      .ok { callers with
        result := callers.result ++ [{ node := some p }]
        callersBySymbol := callers.callersBySymbol.insert parent.symbol callers.result.length }
    else .ok callers
  | none =>
    if callers.spontaneous.isNone then
      .ok { callers with
        result := callers.result ++ [{ node := none }]
        spontaneous := some callers.result.length }
    else .ok callers

/-- The topmost pair of nodes with the symbols of a node and its parent: `n` goes up from
the parent, `top` is the best pair so far. -/
def topPair (forest : Forest (ProfileNode σ)) (symbol : σ) :
    ℕ → Option ℕ → Option ℕ × ℕ → Except Fault (Option ℕ × ℕ)
  | _, none, top => .ok top
  | 0, some _, _ => .error .brokenChain
  | fuel + 1, some n, top => do
    let node ← fetch forest n
    match node.parent with
    -- A root has no caller to compare.
    | none => .ok top
    | some p => do
      let parent ← fetch forest p
      match top.1 with
      | none => .error .nullDereference
      | some t => do
        let topCaller ← fetch forest t
        if node.symbol = symbol ∧ parent.symbol = topCaller.symbol then topPair forest symbol fuel (some p) (some p, n)
        else topPair forest symbol fuel (some p) top

/-- The entry for a node. -/
def callerOf (forest : Forest (ProfileNode σ)) (callers : Callers σ) (node : ProfileNode σ) : Except Fault ℕ :=
  match node.parent with
  | none =>
    match callers.spontaneous with
    | some entry => .ok entry
    | none => .error .assertion
  | some p => do
    let parent ← fetch forest p
    match callers.callersBySymbol.lookup parent.symbol with
    | some entry => .ok entry
    | none => .error .nullDereference

/-- The second loop, over the result and `marked_callers`. -/
def chargeCaller (forest : Forest (ProfileNode σ)) (callers : Callers σ)
    (state : List ProfileFunc × HashTable (Option ℕ) Unit) (i : ℕ) :
    Except Fault (List ProfileFunc × HashTable (Option ℕ) Unit) := do
  let node ← fetch forest i
  let entry ← callerOf forest callers node
  let (topCaller, topCallee) ← topPair forest node.symbol forest.nodes.length node.parent (node.parent, i)
  let callee ← fetch forest topCallee
  let (result, marked) :=
    -- One total for each topmost pair, one self for each node.
    if (state.2.lookup topCaller).isNone then
      (state.1.modify entry fun caller => { caller with total := caller.total + callee.total },
        state.2.insert topCaller ())
    else state
  .ok (if 0 < node.self then result.modify entry fun caller => { caller with self := caller.self + node.self }
    else result, marked)

def profileFuncCreateCallerList (profile : Profile σ) (func : ProfileFunc) : Except Fault (List ProfileFunc) :=
  match walk profile.forest.nodes ProfileNode.next profile.forest.nodes.length func.node with
  | none => .error .brokenChain
  | some chain => do
    let callers ← chain.foldlM (addCaller profile.forest) {}
    let (result, _) ← chain.foldlM (chargeCaller profile.forest callers) (callers.result, ∅)
    .ok result

end

end Memprof
