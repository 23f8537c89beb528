import Memprof.Descendants

/-! # `profile.c`: freeing

`profile_free`, `profile_descendant_tree_free` and `profile_caller_list_free`, on a heap that
lists what is allocated.  The symbols belong to the maps of the process, and `symbol_free`
frees nothing.
-/

namespace Memprof.Freeing

open Library

/-- What `g_new` and the constructors of arrays and tables have returned. -/
inductive Object where
  | node (i : ℕ)
  /-- The array of a node. -/
  | children (i : ℕ)
  | func (k : ℕ)
  | roots
  | functions
  | nodesBySymbol
  /-- The `Profile` or `ProfileDescendantTree` itself, or the array of a caller list. -/
  | whole
deriving DecidableEq

/-- `g_free`, `g_ptr_array_free` and `g_hash_table_destroy`. -/
def gFree (heap : List Object) (object : Object) : Except Fault (List Object) :=
  if object ∈ heap then .ok (heap.erase object) else .error .useAfterFree

section

variable {ν σ : Type} [TreeNode ν σ]

/-- `node->children`, or the `roots` for no node. -/
def readArray (forest : Forest ν) (heap : List Object) : Option ℕ → Except Fault (List ℕ)
  | none => if .whole ∈ heap ∧ .roots ∈ heap then .ok forest.roots else .error .useAfterFree
  | some i =>
    if .node i ∈ heap ∧ .children i ∈ heap then do
      let node ← fetch forest i
      .ok (TreeNode.children node)
    else .error .useAfterFree

/-- A loop over an array, whose length and elements are read in each round. -/
def freeEach (forest : Forest ν) (array : Option ℕ) (free : List Object → ℕ → Except Fault (List Object))
    (heap : List Object) (ids : List ℕ) : Except Fault (List Object) :=
  ids.foldlM (fun heap i => do
    let _ ← readArray forest heap array
    free heap i) heap

def nodeFree (forest : Forest ν) : ℕ → List Object → ℕ → Except Fault (List Object)
  | 0, _, _ => .error .outOfFuel
  | fuel + 1, heap, i => do
    let ids ← readArray forest heap (some i)
    let heap ← freeEach forest (some i) (nodeFree forest fuel) heap ids
    let heap ← gFree heap (.children i)
    gFree heap (.node i)

/-- The loop over the roots, and the array of the roots. -/
def rootsFree (forest : Forest ν) (free : List Object → ℕ → Except Fault (List Object)) (heap : List Object) :
    Except Fault (List Object) := do
  let ids ← readArray forest heap none
  let heap ← freeEach forest none free heap ids
  gFree heap .roots

end

/-- The loop over `functions`, or over a caller list. -/
def funcsFree (array : Object) (heap : List Object) (functions : List ProfileFunc) : Except Fault (List Object) :=
  (List.range functions.length).foldlM (fun heap k =>
    if array ∈ heap then gFree heap (.func k) else .error .useAfterFree) heap

variable {σ : Type}

def profileNodeFree (forest : Forest (ProfileNode σ)) : List Object → ℕ → Except Fault (List Object) :=
  nodeFree forest forest.nodes.length

def profileFree (heap : List Object) (profile : Profile σ) : Except Fault (List Object) := do
  let heap ← rootsFree profile.forest (profileNodeFree profile.forest) heap
  let heap ← funcsFree .functions heap profile.functions
  let heap ← gFree heap .functions
  let heap ← gFree heap .nodesBySymbol
  gFree heap .whole

def profileDescendantTreeNodeFree (tree : ProfileDescendantTree σ) : List Object → ℕ → Except Fault (List Object) :=
  nodeFree tree tree.nodes.length

def profileDescendantTreeFree (heap : List Object) (tree : ProfileDescendantTree σ) : Except Fault (List Object) := do
  let heap ← rootsFree tree (profileDescendantTreeNodeFree tree) heap
  gFree heap .whole

def profileCallerListFree (heap : List Object) (callerList : List ProfileFunc) : Except Fault (List Object) := do
  let heap ← funcsFree .whole heap callerList
  gFree heap .whole

/-! ## What is allocated -/

def nodeObjects (ids : List ℕ) : List Object := ids.flatMap fun i => [.node i, .children i]

def funcObjects (functions : List ProfileFunc) : List Object := (List.range functions.length).map .func

/-- The objects of a profile that `profile_create` returns. -/
def profileObjects (profile : Profile σ) : List Object :=
  nodeObjects (List.range profile.forest.nodes.length) ++
    (.roots :: (funcObjects profile.functions ++ [.functions, .nodesBySymbol, .whole]))

def treeObjects (tree : ProfileDescendantTree σ) : List Object :=
  nodeObjects (List.range tree.nodes.length) ++ [.roots, .whole]

def callerListObjects (callerList : List ProfileFunc) : List Object := funcObjects callerList ++ [.whole]

end Memprof.Freeing
