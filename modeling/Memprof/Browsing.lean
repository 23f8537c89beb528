import Memprof.Descendants
import Memprof.Library.OrderedForest

/-! # `main.c`: a profile in its window

The function list of a profile and, for the selected function, its callers and descendants.
Lists and trees are shown in any order their columns are sorted by.  Of the numbers the rows
have what the profile has; the shares of `n_samples`, which are `double`s, are left out.
-/

namespace Memprof.Browsing

open Library

/-- A function is known by its position in `functions`. -/
structure FuncRow where
  name : String
  self : UInt32
  total : UInt32
  func : ℕ
deriving DecidableEq

structure CallerRow (σ : Type) where
  name : String
  self : UInt32
  total : UInt32
  /-- None is `GINT_TO_POINTER (-1)`. -/
  symbol : Option σ
deriving DecidableEq

structure DescendantsRow (σ : Type) where
  name : String
  self : UInt32
  nonRecursion : UInt32
  symbol : σ
deriving DecidableEq

/-- The part of a `ProcessWindow` that shows a profile. -/
structure ProfilePane (σ : Type) where
  profileFuncTreeView : List FuncRow := []
  selected : Option ℕ := none
  profileDescendantsTreeView : List (Row (DescendantsRow σ)) := []
  profileCallerTreeView : List (CallerRow σ) := []

variable {σ : Type} [DecidableEq σ] (name : σ → String)

/-- `func->node` -/
def funcNode (profile : Profile σ) (func : ProfileFunc) : Except Fault (ProfileNode σ) :=
  match func.node with
  | none => .error .nullDereference
  | some i => fetch profile.forest i

/-- `profile->functions->pdata[k]` -/
def funcAt (profile : Profile σ) (k : ℕ) : Except Fault ProfileFunc :=
  match profile.functions[k]? with
  | none => .error .outOfBounds
  | some func => .ok func

/-- The loop body of `profile_fill`. -/
def funcRow (profile : Profile σ) (k : ℕ) : Except Fault FuncRow := do
  let func ← funcAt profile k
  let node ← funcNode profile func
  .ok {
    name := name node.symbol
    self := func.self
    total := func.total
    func := k }

/-- The new list has nothing selected.  The other two views, which `profile_selection_changed`
fills, keep what an earlier profile left. -/
def profileFill (profile : Profile σ) (pane : ProfilePane σ) : Except Fault (ProfilePane σ) := do
  let rows ← (List.range profile.functions.length).mapM (funcRow name profile)
  .ok { pane with
    profileFuncTreeView := rows
    selected := none }

def descendantsRow (node : ProfileDescendantTreeNode σ) : DescendantsRow σ where
  name := name node.symbol
  self := node.self
  nonRecursion := node.nonRecursion
  symbol := node.symbol

/-- A node is put first below `parent`, and what is below the node below it. -/
def addNode (tree : ProfileDescendantTree σ) :
    ℕ → List ℕ → List (Row (DescendantsRow σ)) → ℕ → Except Fault (List (Row (DescendantsRow σ)))
  | 0, _, _, _ => .error .outOfFuel
  | fuel + 1, parent, store, i => do
    let node ← fetch tree i
    let store := Row.changeAt (.mk (descendantsRow name node) [] :: ·) parent store
    node.children.foldlM (addNode tree fuel (parent ++ [0])) store

def callerRow (profile : Profile σ) (caller : ProfileFunc) : Except Fault (CallerRow σ) :=
  match caller.node with
  | none => .ok {
      name := "<spontaneous>"
      self := caller.self
      total := caller.total
      symbol := none }
  | some i => do
    let node ← fetch profile.forest i
    .ok {
      name := name node.symbol
      self := caller.self
      total := caller.total
      symbol := some node.symbol }

def profileSelectionChanged (profile : Profile σ) (pane : ProfilePane σ) (k : ℕ) : Except Fault (ProfilePane σ) := do
  let func ← funcAt profile k
  let descendantTree ← profileFuncCreateDescendantTree profile func
  match descendantTree.roots with
  -- `pdata` of an array to which nothing was added is `NULL`.
  | [] => .error .nullDereference
  | root :: _ => do
    let descendants ← addNode name descendantTree descendantTree.nodes.length [] [] root
    let callerList ← profileFuncCreateCallerList profile func
    let callers ← callerList.mapM (callerRow name profile)
    .ok { pane with
      selected := some k
      profileDescendantsTreeView := descendants
      profileCallerTreeView := callers }

/-- The loop of `profile_func_list_goto_symbol`, over the list as it is sorted. -/
def findFunc (profile : Profile σ) (symbol : σ) : List FuncRow → Except Fault (Option ℕ)
  | [] => .ok none
  | row :: rows => do
    let func ← funcAt profile row.func
    let node ← funcNode profile func
    if node.symbol = symbol then .ok (some row.func) else findFunc profile symbol rows

def profileFuncListGotoSymbol (profile : Profile σ) (pane : ProfilePane σ) (symbol : σ) :
    Except Fault (ProfilePane σ) := do
  let found ← findFunc profile symbol pane.profileFuncTreeView
  match found with
  -- The list is given the focus; if GTK then selects its first row, that is a `select` of its own.
  | none => .ok pane
  -- The selection changes with the cursor, unless it is there already.
  | some k => if pane.selected = some k then .ok pane else profileSelectionChanged name profile pane k

/-- What the user does: a click on a row of the function list, on the title of one of its
columns, or a double click on a row of another view. -/
inductive Action (σ : Type) where
  | select (row : FuncRow)
  | sort (rows : List FuncRow)
  | activateCaller (row : CallerRow σ)
  | activateDescendant (row : DescendantsRow σ)

/-- There is such a row, and sorting neither adds nor drops rows. -/
def Action.Possible (pane : ProfilePane σ) : Action σ → Prop
  | .select row => row ∈ pane.profileFuncTreeView
  | .sort rows => rows.Perm pane.profileFuncTreeView
  | .activateCaller row => row ∈ pane.profileCallerTreeView
  | .activateDescendant row => row ∈ Row.labels none pane.profileDescendantsTreeView

instance (pane : ProfilePane σ) (action : Action σ) : Decidable (action.Possible pane) :=
  match action with
  | .select row => inferInstanceAs (Decidable (row ∈ pane.profileFuncTreeView))
  | .sort rows => inferInstanceAs (Decidable (rows.Perm pane.profileFuncTreeView))
  | .activateCaller row => inferInstanceAs (Decidable (row ∈ pane.profileCallerTreeView))
  | .activateDescendant row =>
    inferInstanceAs (Decidable (row ∈ Row.labels none pane.profileDescendantsTreeView))

def perform (profile : Profile σ) (pane : ProfilePane σ) : Action σ → Except Fault (ProfilePane σ)
  | .select row =>
    if pane.selected = some row.func then .ok pane
    else profileSelectionChanged name profile pane row.func
  | .sort rows => .ok { pane with profileFuncTreeView := rows }
  -- `profile_caller_row_activated`
  | .activateCaller row =>
    match row.symbol with
    | none => .ok pane
    | some symbol => profileFuncListGotoSymbol name profile pane symbol
  -- `profile_descendants_row_activated`
  | .activateDescendant row => profileFuncListGotoSymbol name profile pane row.symbol

end Memprof.Browsing
