import Memprof.ProcessTree

/-! # `tree.c`: rows are copied in the store that they are read from

The loops of `copy_subtree` and `copy_children_to_grandparent` as they run: each of them
asks the store for the next row after it has changed the store.  Appending keeps every
`GtkTreeIter` on its row.
-/

namespace Memprof.RowCopy

open Library ProcessTree

/-- `iter_get_process_window`, and the process of the window. -/
def processAt (store : TreeStore) (iter : Iter) : Except Fault ProcId :=
  match iter.getLast?.bind fun i => (Row.rowsAt iter.dropLast store).bind (·[i]?) with
  | some row => .ok row.label
  | none => .error .uninitialized

/-- `gtk_tree_model_iter_children`, nothing where it returns `FALSE`. -/
def iterChildren (store : TreeStore) (parent : Iter) : Option Iter :=
  if ((Row.rowsAt parent store).getD []).isEmpty then none else some (parent ++ [0])

/-- `gtk_tree_model_iter_next` -/
def iterNext (store : TreeStore) (iter : Iter) : Option Iter :=
  iter.getLast?.bind fun i =>
    if i + 1 < ((Row.rowsAt iter.dropLast store).getD []).length then some (iter.dropLast ++ [i + 1]) else none

mutual

def copySubtree : ℕ → TreeStore → Iter → Option Iter → Except Fault TreeStore
  | 0, _, _, _ => .error .outOfFuel
  | fuel + 1, store, subtree, newParent => do
    let process ← processAt store subtree
    let (store, new) := append store newParent process
    match iterChildren store subtree with
    | some children => copyLoop fuel store children (some new)
    | none => .ok store

/-- `do copy_subtree (&children, new_parent); while (gtk_tree_model_iter_next (model, &children));` -/
def copyLoop : ℕ → TreeStore → Iter → Option Iter → Except Fault TreeStore
  | 0, _, _, _ => .error .outOfFuel
  | fuel + 1, store, children, newParent => do
    let store ← copySubtree fuel store children newParent
    match iterNext store children with
    | some children => copyLoop fuel store children newParent
    | none => .ok store

end

def copyChildrenToGrandparent (fuel : ℕ) (store : TreeStore) (parent : Iter) : Except Fault TreeStore :=
  match iterChildren store parent with
  | some children => copyLoop fuel store children (iterParent parent)
  | none => .ok store

def treeWindowRemove (fuel : ℕ) (store : TreeStore) (process : ProcId) : Except Fault TreeStore :=
  match findByProcess store process with
  | none => .error .uninitialized
  | some iter => do
    let store ← copyChildrenToGrandparent fuel store iter
    .ok (remove store iter)

end Memprof.RowCopy
