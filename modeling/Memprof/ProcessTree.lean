import Memprof.Library.OrderedForest
import Memprof.Types

/-! # `tree.c`: the rows of the process tree

The store is an ordered forest whose rows hold a process, and a `GtkTreeIter` is the path
of a row; rows are appended behind the others, so that paths stay what they are until a row
is removed.  `NULL` stands for what is above the first rows.  A row holds the window of its
process and texts that are made from it; of these only the process matters here.
-/

namespace Memprof.ProcessTree

open Library

abbrev TreeStore := List (Row ProcId)

abbrev Iter := List ℕ

/-- The path of the rows under `NULL` or under a row. -/
def under (parent : Option Iter) : Iter := parent.getD []

/-- `gtk_tree_store_append` and `iter_set_process_window`. -/
def append (store : TreeStore) (parent : Option Iter) (process : ProcId) : TreeStore × Iter :=
  (Row.changeAt (· ++ [.mk process []]) (under parent) store,
    under parent ++ [((Row.rowsAt (under parent) store).getD []).length])

/-- `gtk_tree_store_remove`: the row goes with all that is under it. -/
def remove (store : TreeStore) (iter : Iter) : TreeStore :=
  match iter.getLast? with
  | some i => Row.changeAt (·.eraseIdx i) iter.dropLast store
  | none => store

/-- `gtk_tree_model_iter_parent`, `NULL` where it fails. -/
def iterParent (iter : Iter) : Option Iter := if iter.length ≤ 1 then none else some iter.dropLast

mutual

def findByProcessRecurse (process : ProcId) (iter : Iter) : Row ProcId → Option Iter
  | .mk rowProcess rows => if rowProcess = process then some iter else findChildren process iter 0 rows

/-- The loop over the rows under `parent`, from row number `i` on. -/
def findChildren (process : ProcId) (parent : Iter) (i : ℕ) : List (Row ProcId) → Option Iter
  | [] => none
  | row :: rows =>
    match findByProcessRecurse process (parent ++ [i]) row with
    | some iter => some iter
    | none => findChildren process parent (i + 1) rows

end

def findByProcess (store : TreeStore) (process : ProcId) : Option Iter := findChildren process [] 0 store

/-- `tree_window_add`, for a process whose parent is `parent`. -/
def treeWindowAdd (store : TreeStore) (process : ProcId) (parent : Option ProcId) : TreeStore :=
  let above := match parent with
    -- It is `process` that is looked for, which has no row yet.
    | some _ => findByProcess store process
    | none => none
  (append store above process).1

mutual

/-- `copy_subtree`: rows are appended outside of the subtree, which stays as it is. -/
def copySubtree (store : TreeStore) (newParent : Option Iter) : Row ProcId → TreeStore
  | .mk process rows =>
    let (store, new) := append store newParent process
    copyRows store (some new) rows

/-- The loop over the rows of a subtree. -/
def copyRows (store : TreeStore) (newParent : Option Iter) : List (Row ProcId) → TreeStore
  | [] => store
  | row :: rows => copyRows (copySubtree store newParent row) newParent rows

end

def copyChildrenToGrandparent (store : TreeStore) (parent : Iter) : TreeStore :=
  copyRows store (iterParent parent) ((Row.rowsAt parent store).getD [])

/-- `tree_window_remove`.  The result of the search is not looked at. -/
def treeWindowRemove (store : TreeStore) (process : ProcId) : Except Fault TreeStore :=
  match findByProcess store process with
  | none => .error .uninitialized
  | some iter => .ok (remove (copyChildrenToGrandparent store iter) iter)

/-- The processes made so far, by their `parent`, those of them that are shown, and the
rows. -/
structure Display where
  parents : List (Option ProcId) := []
  shown : List ProcId := []
  store : TreeStore := []

inductive Event where
  | add (parent : Option ProcId)
  | remove (process : ProcId)

def perform (display : Display) : Event → Except Fault Display
  | .add parent =>
    let process := display.parents.length
    .ok {
      parents := display.parents ++ [parent]
      shown := display.shown ++ [process]
      store := treeWindowAdd display.store process parent }
  | .remove process => do
    let store ← treeWindowRemove display.store process
    .ok { display with shown := display.shown.erase process, store := store }

def run (events : List Event) : Except Fault Display := events.foldlM perform {}

/-- The parent of a process is an earlier one, and a process that is removed is shown. -/
def Possible (display : Display) : Event → Prop
  | .add parent => ∀ p ∈ parent, p < display.parents.length
  | .remove process => process ∈ display.shown

instance (display : Display) (event : Event) : Decidable (Possible display event) := by
  cases event <;> unfold Possible <;> infer_instance

end Memprof.ProcessTree
