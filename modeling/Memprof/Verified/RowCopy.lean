import Memprof.RowCopy
import Memprof.Verified.ProcessTree

/-! # Removing a process from the tree

The rows that are read are never among those that are appended, so that the loops copy what
was there before they began.  Of the forest only one list changes: the row of the process
goes, and what was under it comes to the end of the list.
-/

namespace Memprof.RowCopy

open Library ProcessTree

/-! ## Reading while appending -/

/-- What is under a row is not changed by what is appended outside of it. -/
theorem not_prefix_concat {start path : Iter} (apart : ¬ start <+: path) (i j : ℕ) :
    ¬ start ++ [i] <+: path ++ [j] := by
  intro before
  have short := before.length_le
  rw [List.length_append, List.length_append, List.length_singleton, List.length_singleton] at short
  have start_ : start <+: path ++ [j] := (List.prefix_append start [i]).trans before
  exact apart (List.prefix_of_prefix_length_le start_ (List.prefix_append path [j]) (by omega))

section

variable {store : TreeStore} {start : Iter} {left right : List (Row ProcId)} {row : Row ProcId}

theorem processAt_eq (listed : Row.rowsAt start store = some (left ++ row :: right)) :
    processAt store (start ++ [left.length]) = .ok row.label := by
  rw [processAt, List.getLast?_concat, List.dropLast_concat, Option.bind_some, listed]
  simp

theorem iterChildren_eq {rows : List (Row ProcId)} (listed : Row.rowsAt start store = some rows) :
    iterChildren store start = if rows = [] then none else some (start ++ [0]) := by
  rw [iterChildren, listed]
  cases rows <;> rfl

theorem iterNext_eq (listed : Row.rowsAt start store = some (left ++ row :: right)) :
    iterNext store (start ++ [left.length]) =
      if right = [] then none else some (start ++ [(left ++ [row]).length]) := by
  rw [iterNext, List.getLast?_concat, List.dropLast_concat, Option.bind_some, listed]
  cases right with
  | nil => simp
  | cons next right => simp

theorem rowsAt_concat (listed : Row.rowsAt start store = some (left ++ row :: right)) :
    Row.rowsAt (start ++ [left.length]) store = some row.rows := by
  rw [Row.rowsAt_append, listed]
  simp [Row.rowsAt]

end

/-- A new row has no rows under it. -/
theorem rowsAt_new {store : TreeStore} {newParent : Option Iter} {target : List (Row ProcId)}
    (found : Row.rowsAt (under newParent) store = some target) (process : ProcId) :
    (append store newParent process).2 = under newParent ++ [target.length] ∧
      Row.rowsAt (under newParent ++ [target.length]) (append store newParent process).1 = some [] := by
  refine ⟨by rw [append, found]; rfl, ?_⟩
  rw [append, Row.rowsAt_append, Row.rowsAt_changeAt, found]
  simp [Row.rowsAt, Row.rows]

mutual

/-- The copy of a row while the store changes is the copy of the row as it was. -/
theorem copySubtree_live : ∀ row : Row ProcId, ∃ enough, ∀ fuel ≥ enough, ∀ (store : TreeStore) (start : Iter)
    (left right : List (Row ProcId)) (newParent : Option Iter) (target : List (Row ProcId)),
    Row.rowsAt start store = some (left ++ row :: right) → Row.rowsAt (under newParent) store = some target →
    ¬ start <+: under newParent →
    copySubtree fuel store (start ++ [left.length]) newParent = .ok (ProcessTree.copySubtree store newParent row)
  | .mk process rows => by
    obtain ⟨enough, copies⟩ := copyLoop_live rows
    refine ⟨enough + 1, fun fuel more store start left right newParent target listed found apart => ?_⟩
    obtain ⟨fuel, rfl⟩ := Nat.exists_eq_add_of_le' (Nat.le_of_add_left_le more)
    obtain ⟨new, empty⟩ := rowsAt_new found process
    have children := Row.rowsAt_changeAt_append (fun before => apart ((List.prefix_append _ _).trans before))
      [.mk process []] (rowsAt_concat listed)
    have read : iterChildren (append store newParent process).1 (start ++ [left.length]) =
        if rows = [] then none else some (start ++ [left.length] ++ [0]) := iterChildren_eq children
    rw [copySubtree, processAt_eq listed, ok_bind, ProcessTree.copySubtree]
    show (match iterChildren (append store newParent process).1 (start ++ [left.length]) with
      | some children => copyLoop fuel (append store newParent process).1 children (some (append store newParent process).2)
      | none => .ok (append store newParent process).1) = .ok (copyRows (append store newParent process).1
        (some (append store newParent process).2) rows)
    rw [read]
    cases rows with
    | nil => rfl
    | cons row rows =>
      rw [if_neg (List.cons_ne_nil _ _), new]
      exact copies fuel (Nat.le_of_add_le_add_right more) _ (start ++ [left.length]) [] _ [] (List.cons_ne_nil _ _) children
        empty (not_prefix_concat apart _ _)

theorem copyLoop_live : ∀ rows : List (Row ProcId), ∃ enough, ∀ fuel ≥ enough, ∀ (store : TreeStore) (start : Iter)
    (left : List (Row ProcId)) (newParent : Option Iter) (target : List (Row ProcId)), rows ≠ [] →
    Row.rowsAt start store = some (left ++ rows) → Row.rowsAt (under newParent) store = some target →
    ¬ start <+: under newParent →
    copyLoop fuel store (start ++ [left.length]) newParent = .ok (copyRows store newParent rows)
  | [] => ⟨0, fun _ _ _ _ _ _ _ nonempty => absurd rfl nonempty⟩
  | row :: rows => by
    obtain ⟨enoughRow, copiesRow⟩ := copySubtree_live row
    obtain ⟨enough, copies⟩ := copyLoop_live rows
    refine ⟨enoughRow + enough + 1, fun fuel more store start left newParent target _ listed found apart => ?_⟩
    obtain ⟨fuel, rfl⟩ := Nat.exists_eq_add_of_le' (Nat.le_of_add_left_le more)
    have copied : ProcessTree.copySubtree store newParent row = Row.changeAt (· ++ [row]) (under newParent) store :=
      copySubtree_eq found
    have still : Row.rowsAt start (ProcessTree.copySubtree store newParent row) = some (left ++ row :: rows) := by
      rw [copied]
      exact Row.rowsAt_changeAt_append apart [row] listed
    have grown : Row.rowsAt (under newParent) (ProcessTree.copySubtree store newParent row) =
        some (target ++ [row]) := by
      rw [copied, Row.rowsAt_changeAt, found]
      rfl
    rw [copyLoop, copiesRow fuel (by omega) store start left rows newParent target listed found apart, ok_bind, iterNext_eq still,
      copyRows]
    cases rows with
    | nil => rfl
    | cons next rows =>
      rw [if_neg (List.cons_ne_nil _ _)]
      refine copies fuel (by omega) _ start (left ++ [row]) newParent _ (List.cons_ne_nil _ _) ?_ grown apart
      rw [still, List.append_assoc]
      rfl

end

/-! ## Removing -/

/-- The loops do what the rows say as they were before. -/
theorem treeWindowRemove_live (store : TreeStore) (process : ProcId) :
    ∃ enough, ∀ fuel ≥ enough, treeWindowRemove fuel store process = ProcessTree.treeWindowRemove store process := by
  cases found : findByProcess store process with
  | none => exact ⟨0, fun fuel _ => by rw [treeWindowRemove, ProcessTree.treeWindowRemove, found]⟩
  | some iter =>
    obtain ⟨i, path, same, located⟩ := findChildren_at found
    rw [List.nil_append, Nat.zero_add] at same
    rw [← same] at located
    obtain ⟨start, left, below, right, rfl, listed⟩ := located.exists_siblings
    have children : Row.rowsAt (start ++ [left.length]) store = some below := rowsAt_concat listed
    have above : Row.rowsAt (under (iterParent (start ++ [left.length]))) store =
        some (left ++ .mk process below :: right) := by
      rw [under_iterParent, listed]
    -- The list that grows is the one that the row is in.
    have apart : ¬ start ++ [left.length] <+: under (iterParent (start ++ [left.length])) := by
      rw [under_iterParent]
      intro before
      simpa using before.length_le
    obtain ⟨enough, copies⟩ := copyLoop_live below
    refine ⟨enough, fun fuel more => ?_⟩
    have copied : copyChildrenToGrandparent fuel store (start ++ [left.length]) =
        .ok (ProcessTree.copyChildrenToGrandparent store (start ++ [left.length])) := by
      rw [copyChildrenToGrandparent, iterChildren_eq children, ProcessTree.copyChildrenToGrandparent, children]
      cases below with
      | nil => rfl
      | cons row below =>
        rw [if_neg (List.cons_ne_nil _ _)]
        exact copies fuel more store _ [] _ _ (List.cons_ne_nil _ _) children above apart
    rw [treeWindowRemove, ProcessTree.treeWindowRemove, found]
    dsimp only
    rw [copied, ok_bind]

/-- The row of a process goes and the rows under it come to the end of the list that it was
in; the rows are those of the other processes, and each of them is under the row it was
under, or under the former parent of the process if it was under that. -/
theorem treeWindowRemove_promotes {store : TreeStore} {process : ProcId} (distinct : (Row.labels none store).Nodup)
    (shown : process ∈ Row.labels none store) :
    ∃ later, (∃ enough, ∀ fuel ≥ enough, treeWindowRemove fuel store process = .ok later) ∧
      Row.Dissolved process store later ∧ (Row.labels none later).Perm ((Row.labels none store).erase process) ∧
      ∃ former, (former, process) ∈ Row.links none store ∧ ∀ above other, (above, other) ∈ Row.links none later ↔
        other ≠ process ∧ ∃ old, (old, other) ∈ Row.links none store ∧
          above = if old = some process then former else old := by
  obtain ⟨iter, found, located⟩ := findByProcess_at shown
  obtain ⟨start, left, below, right, rfl, listed⟩ := located.exists_siblings
  obtain ⟨former, own, links, labels⟩ := Row.links_dissolve listed distinct
  obtain ⟨enough, live⟩ := treeWindowRemove_live store process
  refine ⟨Row.changeAt (fun _ => left ++ right ++ below) start store, ⟨enough, fun fuel more => ?_⟩,
    Row.dissolved_changeAt listed, labels, former, own, fun above other => ⟨fun linked => ?_, ?_⟩⟩
  · rw [live fuel more, ProcessTree.treeWindowRemove, found]
    dsimp only
    rw [remove_eq listed]
  · obtain ⟨⟨old, same⟩, oldLinked, different, relinked⟩ := links _ linked
    cases relinked
    exact ⟨different, old, oldLinked, rfl⟩
  · rintro ⟨different, old, oldLinked, rfl⟩
    -- It has a row still, which goes up to where the old one did.
    have kept : other ∈ Row.labels none (Row.changeAt (fun _ => left ++ right ++ below) start store) :=
      labels.mem_iff.mpr ((List.mem_erase_of_ne different).mpr (List.mem_map_of_mem oldLinked))
    obtain ⟨⟨above, same⟩, linked, rfl⟩ := List.mem_map.mp kept
    obtain ⟨⟨before, _⟩, beforeLinked, _, relinked⟩ := links _ linked
    cases relinked
    rw [Row.above_unique distinct oldLinked beforeLinked]
    exact linked

/-- A process with two rows under it, of which one has a row of its own. -/
theorem treeWindowRemove_promotes_two :
    ∃ later, (∃ enough, ∀ fuel ≥ enough,
        treeWindowRemove fuel [.mk 1 [.mk 2 [.mk 4 []], .mk 3 []], .mk 5 []] 1 = .ok later) ∧
      Row.Dissolved 1 [.mk 1 [.mk 2 [.mk 4 []], .mk 3 []], .mk 5 []] later ∧
      (Row.labels none later).Perm ((Row.labels none [.mk 1 [.mk 2 [.mk 4 []], .mk 3 []], .mk 5 []]).erase 1) ∧
      ∃ former, (former, 1) ∈ Row.links none [.mk 1 [.mk 2 [.mk 4 []], .mk 3 []], .mk 5 []] ∧
        ∀ above other, (above, other) ∈ Row.links none later ↔ other ≠ 1 ∧
          ∃ old, (old, other) ∈ Row.links none [.mk 1 [.mk 2 [.mk 4 []], .mk 3 []], .mk 5 []] ∧
            above = if old = some 1 then former else old :=
  treeWindowRemove_promotes (by decide) (by decide)

end Memprof.RowCopy
