import Memprof.Library.Links
import Memprof.Library.Outcome
import Memprof.ProcessTree

/-! # The process tree and the descent of processes

`Mirrors` says that the row of each process that is shown is right below the one of its
nearest ancestor that is shown.  To remove a process keeps that, whatever the tree looks
like.  To add one does not: the row it should go below is never found, and so the tree
mirrors descent only as long as nothing is shown that a new process descends from.
-/

namespace Memprof.ProcessTree

open Library

/-- The first process that is shown, from one on and up. -/
inductive Nearest (parents : List (Option ProcId)) (shown : ProcId → Prop) : Option ProcId → Option ProcId → Prop
  | none : Nearest parents shown none none
  | here {p : ProcId} (seen : shown p) : Nearest parents shown (some p) (some p)
  | up {p : ProcId} {parent nearest : Option ProcId} (hidden : ¬ shown p) (listed : parents[p]? = some parent)
      (further : Nearest parents shown parent nearest) : Nearest parents shown (some p) nearest

/-- The rows are those of the processes shown, each below its nearest ancestor that is
shown, or at the top if there is none. -/
structure Mirrors (display : Display) : Prop where
  rows : (Row.labels none display.store).Perm display.shown
  nearest : ∀ above process, (above, process) ∈ Row.links none display.store →
    ∃ parent, display.parents[process]? = some parent ∧ Nearest display.parents (· ∈ display.shown) parent above

/-- Parents are older, and each process that is shown is one that was made. -/
structure Descends (display : Display) : Prop where
  older : Older display.parents id
  made : ∀ p ∈ display.shown, p < display.parents.length
  once : display.shown.Nodup

/-- Only the processes below `bound` are looked at. -/
theorem Nearest.congr {parents parents' : List (Option ProcId)} {shown shown' : ProcId → Prop} {bound : ℕ}
    (same : ∀ p < bound, (shown p ↔ shown' p) ∧ parents[p]? = parents'[p]?)
    (older : Older parents id) {start nearest : Option ProcId}
    (found : Nearest parents shown start nearest) (below : ∀ p ∈ start, p < bound) :
    Nearest parents' shown' start nearest := by
  induction found with
  | none => exact .none
  | here seen => exact .here ((same _ (below _ rfl)).1.mp seen)
  | @up p parent nearest hidden listed further inductionHypothesis =>
    have inside := below p rfl
    refine .up (fun seen => hidden ((same p inside).1.mpr seen)) ((same p inside).2 ▸ listed) ?_
    exact inductionHypothesis fun q member => Nat.lt_trans (older p parent q listed member) inside

/-- What was nearest stays so without a process, unless it was that one: then it is the
nearest of that one. -/
theorem Nearest.without {parents : List (Option ProcId)} {shown : ProcId → Prop} {process : ProcId}
    {parent above start nearest : Option ProcId} (older : Older parents id)
    (listed : parents[process]? = some parent) (next : Nearest parents shown parent above)
    (found : Nearest parents shown start nearest) :
    Nearest parents (fun p => shown p ∧ p ≠ process) start (if nearest = some process then above else nearest) := by
  induction found with
  | none => exact .none
  | @here p seen =>
    by_cases same : p = process
    · subst same
      rw [if_pos rfl]
      -- the ancestors of the process are older, so that it is none of them
      refine .up (fun kept => kept.2 rfl) listed (next.congr (fun q below => ⟨?_, rfl⟩) older fun q member => older p parent q listed member)
      exact ⟨fun seen => ⟨seen, Nat.ne_of_lt below⟩, And.left⟩
    · rw [if_neg fun equal => same (Option.some.inj equal)]
      exact .here ⟨seen, same⟩
  | up hidden listed' _ inductionHypothesis => exact .up (fun kept => hidden kept.1) listed' inductionHypothesis

/-! ## Finding a row -/

mutual

theorem findByProcessRecurse_at {process : ProcId} {iter found : Iter} : ∀ {row : Row ProcId},
    findByProcessRecurse process iter row = some found →
      (found = iter ∧ row.label = process) ∨ ∃ path, found = iter ++ path ∧ Row.At process row.rows path
  | .mk rowProcess rows, returned => by
    rw [findByProcessRecurse] at returned
    split at returned
    next same =>
      cases returned
      exact .inl ⟨rfl, same⟩
    next =>
      obtain ⟨i, path, same, located⟩ := findChildren_at returned
      rw [Nat.zero_add] at same
      exact .inr ⟨_, same, located⟩

theorem findChildren_at {process : ProcId} {parent found : Iter} {first : ℕ} : ∀ {rows : List (Row ProcId)},
    findChildren process parent first rows = some found →
      ∃ i path, found = parent ++ (first + i) :: path ∧ Row.At process rows (i :: path)
  | [], returned => by cases returned
  | row :: rows, returned => by
    rw [findChildren] at returned
    split at returned
    next iter here =>
      cases returned
      rcases findByProcessRecurse_at here with ⟨same, own⟩ | ⟨path, same, located⟩
      · refine ⟨0, [], same, @Row.At.self _ _ _ row.rows _ ?_⟩
        cases row
        cases own
        rfl
      · exact ⟨0, path, by rw [same]; simp, .child rfl located⟩
    next =>
      obtain ⟨i, path, same, located⟩ := findChildren_at returned
      refine ⟨i + 1, path, by rw [same]; simp [Nat.add_assoc, Nat.add_comm 1], ?_⟩
      cases located with
      | self found => exact .self found
      | child found deeper => exact .child found deeper

end

mutual

theorem findByProcessRecurse_absent {process : ProcId} {iter : Iter} (above : Option ProcId) : ∀ {row : Row ProcId},
    findByProcessRecurse process iter row = none → process ∉ (Row.rowLinks above row).map Prod.snd
  | .mk rowProcess rows, nothing => by
    rw [findByProcessRecurse] at nothing
    split at nothing
    next => cases nothing
    next other =>
      rw [Row.rowLinks, List.map_cons, List.mem_cons, not_or]
      exact ⟨fun same => other same.symm, findChildren_absent (some rowProcess) nothing⟩

theorem findChildren_absent {process : ProcId} {parent : Iter} {first : ℕ} (above : Option ProcId) :
    ∀ {rows : List (Row ProcId)}, findChildren process parent first rows = none → process ∉ Row.labels above rows
  | [], _ => by rw [Row.labels, Row.links]; exact List.not_mem_nil
  | row :: rows, nothing => by
    rw [findChildren] at nothing
    split at nothing
    next => cases nothing
    next absent =>
      rw [Row.labels, Row.links, List.map_append, List.mem_append, not_or]
      exact ⟨findByProcessRecurse_absent above absent, findChildren_absent above nothing⟩

end

/-- A row that is looked for is found if there is one. -/
theorem findByProcess_at {store : TreeStore} {process : ProcId} (member : process ∈ Row.labels none store) :
    ∃ iter, findByProcess store process = some iter ∧ Row.At process store iter := by
  cases found : findByProcess store process with
  | none => exact (findChildren_absent none found member).elim
  | some iter =>
    obtain ⟨i, path, rfl, located⟩ := findChildren_at found
    rw [List.nil_append, Nat.zero_add]
    exact ⟨_, rfl, located⟩

theorem findByProcess_none {store : TreeStore} {process : ProcId} (absent : process ∉ Row.labels none store) :
    findByProcess store process = none := by
  cases found : findByProcess store process with
  | none => rfl
  | some iter =>
    obtain ⟨i, path, rfl, located⟩ := findChildren_at found
    obtain ⟨start, left, below, right, _, listed⟩ := located.exists_siblings
    obtain ⟨owner, before, after, _, changed⟩ := @Row.links_changeAt _ start none store _ listed
    have whole := changed fun rows => rows
    rw [Row.changeAt_unchanged, Row.links_append, Row.links_cons] at whole
    exact (absent (by rw [Row.labels, whole]; simp)).elim

/-! ## Copying rows -/

mutual

theorem copySubtree_eq {store : TreeStore} {newParent : Option Iter} : ∀ {row : Row ProcId}
    {listed : List (Row ProcId)},
    Row.rowsAt (under newParent) store = some listed →
      copySubtree store newParent row = Row.changeAt (· ++ [row]) (under newParent) store
  | .mk process rows, listed, found => by
    have new : (append store newParent process).2 = under newParent ++ [listed.length] := by rw [append, found]; rfl
    have empty : Row.rowsAt (under (some (append store newParent process).2)) (append store newParent process).1 = some [] := by
      rw [new]
      show Row.rowsAt (under newParent ++ [listed.length]) (Row.changeAt _ (under newParent) store) = some []
      rw [Row.rowsAt_append, Row.rowsAt_changeAt, found]
      simp [Row.rowsAt, Row.rows]
    rw [copySubtree]
    show copyRows (append store newParent process).1 (some (append store newParent process).2) rows = _
    rw [copyRows_eq empty, new]
    show Row.changeAt _ (under newParent ++ [listed.length]) (Row.changeAt _ (under newParent) store) = _
    rw [Row.changeAt_append, Row.changeAt_changeAt]
    exact Row.changeAt_congr found (Row.changeAt_last _ listed process [] [])

theorem copyRows_eq {store : TreeStore} {newParent : Option Iter} : ∀ {rows listed : List (Row ProcId)},
    Row.rowsAt (under newParent) store = some listed →
      copyRows store newParent rows = Row.changeAt (· ++ rows) (under newParent) store
  | [], listed, _ => by
    have same : (fun rows : List (Row ProcId) => rows ++ []) = fun rows => rows := funext List.append_nil
    rw [copyRows, same, Row.changeAt_unchanged]
  | row :: rows, listed, found => by
    have copied := @copySubtree_eq store newParent row listed found
    have next : Row.rowsAt (under newParent) (copySubtree store newParent row) = some (listed ++ [row]) := by
      rw [copied, Row.rowsAt_changeAt, found]
      rfl
    rw [copyRows, copyRows_eq next, copied, Row.changeAt_changeAt]
    apply Row.changeAt_congr found
    rw [List.append_assoc, List.singleton_append]

end

/-! ## Removing a row -/

theorem under_iterParent (start : Iter) (i : ℕ) : under (iterParent (start ++ [i])) = start := by
  cases start with
  | nil => rfl
  | cons j start => simp [iterParent, under, List.dropLast]

/-- The row goes, and the rows under it go to the end of the list it was in. -/
theorem remove_eq {store : TreeStore} {start : Iter} {process : ProcId} {left below right : List (Row ProcId)}
    (listed : Row.rowsAt start store = some (left ++ .mk process below :: right)) :
    remove (copyChildrenToGrandparent store (start ++ [left.length])) (start ++ [left.length]) =
      Row.changeAt (fun _ => left ++ right ++ below) start store := by
  have children : Row.rowsAt (start ++ [left.length]) store = some below := by
    rw [Row.rowsAt_append, listed]
    simp [Row.rowsAt, Row.rows]
  have copied : copyChildrenToGrandparent store (start ++ [left.length]) = Row.changeAt (· ++ below) start store := by
    have above : Row.rowsAt (under (iterParent (start ++ [left.length]))) store =
        some (left ++ .mk process below :: right) := by
      rw [under_iterParent, listed]
    rw [copyChildrenToGrandparent, children, Option.getD_some, copyRows_eq above, under_iterParent]
  rw [copied, remove, List.getLast?_concat, List.dropLast_concat]
  dsimp only
  rw [Row.changeAt_changeAt]
  apply Row.changeAt_congr listed
  rw [List.append_assoc, List.eraseIdx_append_of_length_le le_rfl, Nat.sub_self, List.cons_append, List.eraseIdx_cons_zero,
    List.append_assoc]

theorem mirrors_remove {display : Display} (descends : Descends display) (mirrors : Mirrors display) {process : ProcId}
    (member : process ∈ display.shown) :
    ∃ later, perform display (.remove process) = .ok later ∧ Descends later ∧ Mirrors later := by
  have distinct : (Row.labels none display.store).Nodup := mirrors.rows.nodup_iff.mpr descends.once
  obtain ⟨iter, found, located⟩ := findByProcess_at (mirrors.rows.mem_iff.mpr member)
  obtain ⟨start, left, below, right, rfl, listed⟩ := located.exists_siblings
  obtain ⟨above, own, links, labels⟩ := Row.links_dissolve listed distinct
  obtain ⟨parent, listedParent, next⟩ := mirrors.nearest above process own
  have removed : perform display (.remove process) = .ok { display with
      shown := display.shown.erase process
      store := Row.changeAt (fun _ => left ++ right ++ below) start display.store } := by
    rw [perform, treeWindowRemove, found]
    dsimp only
    rw [remove_eq listed, ok_bind]
  refine ⟨_, removed, ⟨descends.older, fun p kept => descends.made p (List.mem_of_mem_erase kept), descends.once.erase _⟩,
    ⟨labels.trans (mirrors.rows.erase process), fun upper other linked => ?_⟩⟩
  obtain ⟨⟨old, same⟩, oldLinked, different, relinked⟩ := links _ linked
  cases relinked
  obtain ⟨otherParent, listedOther, nearest⟩ := mirrors.nearest old same oldLinked
  have still : ∀ p, (p ∈ display.shown ∧ p ≠ process) ↔ p ∈ display.shown.erase process := fun p => by
    rw [descends.once.mem_erase_iff, and_comm]
  refine ⟨otherParent, listedOther, ?_⟩
  have kept := Nearest.without descends.older listedParent next nearest
  simp only [still] at kept
  exact kept

/-! ## Adding a row -/

/-- No ancestor is shown, from the parent on. -/
def Alone (display : Display) (parent : Option ProcId) : Prop := Nearest display.parents (· ∈ display.shown) parent none

theorem add_eq {display : Display} (absent : display.parents.length ∉ Row.labels none display.store)
    (parent : Option ProcId) :
    perform display (.add parent) = .ok {
      parents := display.parents ++ [parent]
      shown := display.shown ++ [display.parents.length]
      store := display.store ++ [.mk display.parents.length []] } := by
  have nowhere := findByProcess_none absent
  cases parent <;> simp only [perform, treeWindowAdd, nowhere] <;> rfl

theorem mirrors_add_iff {display : Display} (descends : Descends display) (mirrors : Mirrors display)
    {parent : Option ProcId} (older : ∀ p ∈ parent, p < display.parents.length) :
    ∃ later, perform display (.add parent) = .ok later ∧ Descends later ∧ (Mirrors later ↔ Alone display parent) := by
  have unshown : display.parents.length ∉ display.shown := fun member => Nat.lt_irrefl _ (descends.made _ member)
  have absent : display.parents.length ∉ Row.labels none display.store := fun member =>
    unshown (mirrors.rows.mem_iff.mp member)
  refine ⟨_, add_eq absent parent, ⟨descends.older.append older, ?_, ?_⟩, ?_⟩
  · intro p member
    rw [List.length_append, List.length_singleton]
    rcases List.mem_append.mp member with old | new
    · exact (descends.made p old).trans (Nat.lt_succ_self _)
    · rw [List.mem_singleton.mp new]
      exact Nat.lt_succ_self _
  · exact descends.once.append (List.nodup_singleton _) (List.disjoint_singleton.mpr unshown)
  have same : ∀ p < display.parents.length, (p ∈ display.shown ↔ p ∈ display.shown ++ [display.parents.length]) ∧
      display.parents[p]? = (display.parents ++ [parent])[p]? := by
    intro p below
    refine ⟨?_, (List.getElem?_append_left below).symm⟩
    rw [List.mem_append, List.mem_singleton, or_iff_left (Nat.ne_of_lt below)]
  have back := fun p below => (⟨(same p below).1.symm, (same p below).2.symm⟩ : _ ∧ _)
  constructor
  · intro holds
    obtain ⟨own, listed, nearest⟩ := holds.nearest none display.parents.length (by
      rw [Row.links_append, Row.links_leaf]
      simp)
    rw [List.getElem?_append_right le_rfl, Nat.sub_self] at listed
    cases listed
    exact nearest.congr back (descends.older.append older) older
  · intro alone
    refine ⟨?_, fun above process linked => ?_⟩
    · rw [Row.labels, Row.links_append, Row.links_leaf, List.map_append]
      exact mirrors.rows.append_right _
    · rw [Row.links_append, Row.links_leaf, List.mem_append, List.mem_singleton] at linked
      rcases linked with old | new
      · obtain ⟨its, listed, nearest⟩ := mirrors.nearest above process old
        have inside := (List.getElem?_eq_some_iff.mp listed).1
        refine ⟨its, (List.getElem?_append_left inside).trans listed, nearest.congr same descends.older fun q member => ?_⟩
        exact (descends.older process its q listed member).trans inside
      · cases new
        refine ⟨parent, by rw [List.getElem?_append_right le_rfl, Nat.sub_self]; rfl, ?_⟩
        exact alone.congr same descends.older older

/-- What an event has to meet. -/
def Admitted (display : Display) : Event → Prop
  | .add parent => Alone display parent
  | .remove _ => True

/-- In any run the tree mirrors descent in every state exactly if no process is made with
an ancestor that is still shown. -/
theorem run_mirrors_iff {events : List Event}
    (taken : ∀ earlier event reached, earlier ++ [event] <+: events → run earlier = .ok reached → Possible reached event) :
    (∀ earlier reached, earlier <+: events → run earlier = .ok reached → Mirrors reached) ↔
      ∀ earlier event reached, earlier ++ [event] <+: events → run earlier = .ok reached → Admitted reached event := by
  have empty : Descends {} ∧ Mirrors {} := by
    refine ⟨⟨?_, ?_, List.nodup_nil⟩, ⟨.nil, ?_⟩⟩
    · exact fun _ _ _ held => nomatch held
    · exact fun _ member => nomatch member
    · exact fun _ _ member => nomatch member
  refine @foldlM_holds_iff _ _ _ perform Descends Mirrors Possible Admitted {} empty ?_ events taken ?_
  · intro display event later descends mirrors possible performed
    cases event with
    | add parent =>
      obtain ⟨next, added, kept, exactly⟩ := mirrors_add_iff descends mirrors possible
      rw [added] at performed
      cases performed
      exact ⟨kept, exactly⟩
    | remove process =>
      obtain ⟨next, removed, kept, still⟩ := mirrors_remove descends mirrors possible
      rw [removed] at performed
      cases performed
      exact ⟨kept, iff_of_true still trivial⟩
  · intro _ event reached _ _ _ refused
    cases event with
    | add parent => exact ⟨_, rfl⟩
    | remove process => exact (refused trivial).elim

/-- A process and its child, then the process is gone. -/
theorem run_mirrors_iff_child :
    let events : List Event := [.add none, .add (some 0), .remove 0]
    (∀ earlier reached, earlier <+: events → run earlier = .ok reached → Mirrors reached) ↔
      ∀ earlier event reached, earlier ++ [event] <+: events → run earlier = .ok reached → Admitted reached event := by
  intro events
  exact run_mirrors_iff (forall_steps_iff.mp (by decide))

/-- The row of the child stands beside the one of its parent. -/
theorem run_beside :
    ∃ reached, run [.add none, .add (some 0)] = .ok reached ∧
      (∀ earlier event display, earlier ++ [event] <+: [.add none, .add (some 0)] → run earlier = .ok display →
        Possible display event) ∧ ¬ Mirrors reached := by
  refine ⟨_, rfl, forall_steps_iff.mp (by decide), fun mirrors => ?_⟩
  have top : (none, 1) ∈ Row.links none [Row.mk 0 [], Row.mk 1 []] := by decide
  obtain ⟨parent, listed, nearest⟩ := mirrors.nearest none 1 top
  cases listed
  cases nearest with
  | up hidden _ _ => exact hidden (by decide)

end Memprof.ProcessTree
