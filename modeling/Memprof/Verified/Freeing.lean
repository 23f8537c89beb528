import Memprof.Freeing
import Memprof.Library.Sweep
import Memprof.Verified.Callers
import Memprof.Verified.DescendantTree

/-! # Profiles are freed once

The recursion of `profile_node_free` is a sweep of the forest, so each node and its array is
freed once, after what is below it, and nothing is read that has been freed.
-/

namespace Memprof.Freeing

open Library Library.Forest CallTree

theorem gFree_ok {heap rest : List Object} {object : Object} (perm : heap.Perm (object :: rest)) :
    ∃ later, gFree heap object = .ok later ∧ later.Perm rest := by
  refine ⟨heap.erase object, if_pos (perm.mem_iff.mpr (by simp)), ?_⟩
  have erased := perm.erase object
  rwa [List.erase_cons_head] at erased

theorem nodeObjects_cons (i : ℕ) (ids : List ℕ) :
    nodeObjects (i :: ids) = .node i :: .children i :: nodeObjects ids := rfl

theorem nodeObjects_append (left right : List ℕ) :
    nodeObjects (left ++ right) = nodeObjects left ++ nodeObjects right :=
  List.flatMap_append

theorem nodeObjects_perm {left right : List ℕ} (perm : left.Perm right) :
    (nodeObjects left).Perm (nodeObjects right) := perm.flatMap_right _

section

variable {ν σ : Type} [TreeNode ν σ] {forest : Forest ν}

theorem readArray_node {heap : List Object} {i : ℕ} {node : ν} (held : forest.nodes[i]? = some node)
    (live : .node i ∈ heap) (liveArray : .children i ∈ heap) :
    readArray forest heap (some i) = .ok (TreeNode.children node) := by
  rw [readArray, if_pos ⟨live, liveArray⟩, fetch, held]
  rfl

/-- A loop over an array that stays readable frees what the sweep of the array meets. -/
theorem freeEach_ok {ids met : List ℕ} (sweep : Sweep forest ids met) {fuel : ℕ} (deep : met.length ≤ fuel)
    {array : Option ℕ} {others : List Object}
    (readable : ∀ heap : List Object, (∀ object ∈ others, object ∈ heap) →
      ∃ all, readArray forest heap array = .ok all)
    {heap : List Object} (perm : heap.Perm (nodeObjects met ++ others)) :
    ∃ later, freeEach forest array (nodeFree forest fuel) heap ids = .ok later ∧ later.Perm others := by
  induction sweep generalizing fuel array others heap with
  | nil => exact ⟨heap, rfl, perm⟩
  | @cons i node ids below beside held _ _ downHypothesis nextHypothesis =>
    simp only [List.length_cons, List.length_append] at deep
    obtain ⟨fuel, rfl⟩ : ∃ fewer, fuel = fewer + 1 := ⟨fuel - 1, by omega⟩
    rw [nodeObjects_cons, nodeObjects_append, List.cons_append, List.cons_append, List.append_assoc] at perm
    -- What is not below the node, but for the node itself.
    generalize rest : nodeObjects beside ++ others = remaining at perm
    have inRest : ∀ object ∈ others, object ∈ remaining := fun object member => by simp [← rest, member]
    have live : .node i ∈ heap := perm.mem_iff.mpr (by simp)
    have liveArray : .children i ∈ heap := perm.mem_iff.mpr (by simp)
    obtain ⟨all, readAll⟩ := readable heap fun object member => perm.mem_iff.mpr (by simp [inRest object member])
    have permBelow : heap.Perm (nodeObjects below ++ .children i :: .node i :: remaining) :=
      perm.trans ((List.Perm.swap _ _ _).trans (List.perm_middle.trans (List.perm_middle.cons _)).symm)
    obtain ⟨afterBelow, ranBelow, permAfter⟩ := @downHypothesis fuel (by omega) (some i) _
      (fun heap kept => ⟨_, readArray_node held (kept _ (by simp)) (kept _ (by simp))⟩) heap permBelow
    obtain ⟨afterArray, ranArray, permArray⟩ := gFree_ok permAfter
    obtain ⟨afterNode, ranNode, permNode⟩ := gFree_ok permArray
    obtain ⟨later, ranRest, permLater⟩ := @nextHypothesis (fuel + 1) (by omega) array others readable afterNode
      (by rw [rest]; exact permNode)
    refine ⟨later, ?_, permLater⟩
    have ranFirst : nodeFree forest (fuel + 1) heap i = .ok afterNode := by
      simp only [nodeFree, readArray_node held live liveArray, ok_bind, ranBelow, ranArray, ranNode]
    rw [freeEach, List.foldlM_cons, readAll, ok_bind, ranFirst]
    exact ranRest

theorem rootsFree_ok {paths : List (List σ)} (indexed : Indexed forest paths) {others : List Object}
    (live : .whole ∈ others) {heap : List Object}
    (perm : heap.Perm (nodeObjects (List.range forest.nodes.length) ++ .roots :: others)) :
    ∃ later, rootsFree forest (nodeFree forest forest.nodes.length) heap = .ok later ∧ later.Perm others := by
  have inside : ∀ i ∈ forest.roots, i < forest.nodes.length := by
    intro i member
    obtain ⟨node, held, _⟩ := ((indexed.array none _ rfl).2 i).mp member
    exact (List.getElem?_eq_some_iff.mp held).1
  obtain ⟨met, sweep⟩ := indexed.exists_sweep inside
  have every := indexed.sweep_perm sweep
  have permMet : heap.Perm (nodeObjects met ++ .roots :: others) :=
    perm.trans ((nodeObjects_perm every).symm.append_right _)
  have readable : ∀ heap : List Object, (∀ object ∈ .roots :: others, object ∈ heap) →
      ∃ all, readArray forest heap none = .ok all := fun heap kept =>
    ⟨forest.roots, if_pos ⟨kept _ (by simp [live]), kept _ (by simp)⟩⟩
  obtain ⟨afterNodes, ranNodes, permNodes⟩ :=
    freeEach_ok sweep (by simpa using every.length_eq.le) readable permMet
  obtain ⟨all, readAll⟩ := readable heap fun object member => permMet.mem_iff.mpr (by simp [List.mem_cons.mp member])
  obtain ⟨later, ranRoots, permLater⟩ := gFree_ok permNodes
  have roots : all = forest.roots := by
    have same := readAll
    rw [readArray] at same
    split at same
    · exact (Except.ok.inj same).symm
    · cases same
  subst roots
  exact ⟨later, by rw [rootsFree, readAll, ok_bind, ranNodes, ok_bind, ranRoots], permLater⟩

end

theorem funcsFree_ok {array : Object} {functions : List ProfileFunc} {others : List Object} (live : array ∈ others)
    {heap : List Object} (perm : heap.Perm (funcObjects functions ++ others)) :
    ∃ later, funcsFree array heap functions = .ok later ∧ later.Perm others := by
  rw [funcObjects] at perm
  rw [funcsFree]
  generalize List.range functions.length = indexes at perm
  induction indexes generalizing heap with
  | nil => exact ⟨heap, rfl, perm⟩
  | cons k indexes inductionHypothesis =>
    obtain ⟨middle, ran, permMiddle⟩ := gFree_ok perm
    obtain ⟨later, ranRest, permLater⟩ := inductionHypothesis permMiddle
    have stillLive : array ∈ heap := perm.mem_iff.mpr (by simp [live])
    refine ⟨later, ?_, permLater⟩
    rw [List.foldlM_cons, if_pos stillLive, ran]
    exact ranRest

/-- On a heap with the objects and anything else, `free` takes the objects and nothing else. -/
def Takes (objects : List Object) (free : List Object → Except Fault (List Object)) : Prop :=
  ∀ heap others : List Object, heap.Perm (objects ++ others) → ∃ later, free heap = .ok later ∧ later.Perm others

section

variable {σ : Type}

theorem takes_profile {profile : Profile σ} {paths : List (List σ)} (indexed : Indexed profile.forest paths) :
    Takes (profileObjects profile) fun heap => profileFree heap profile := by
  intro heap others perm
  have permRoots : heap.Perm (nodeObjects (List.range profile.forest.nodes.length) ++
      .roots :: (funcObjects profile.functions ++ .functions :: .nodesBySymbol :: .whole :: others)) :=
    perm.trans (.of_eq (by simp [profileObjects]))
  obtain ⟨afterNodes, ranNodes, permNodes⟩ := rootsFree_ok indexed (by simp) permRoots
  obtain ⟨afterFuncs, ranFuncs, permFuncs⟩ := @funcsFree_ok .functions _ _ (by simp) _ permNodes
  obtain ⟨afterArray, ranArray, permArray⟩ := gFree_ok permFuncs
  obtain ⟨afterTable, ranTable, permTable⟩ := gFree_ok permArray
  obtain ⟨later, ran, permLater⟩ := gFree_ok permTable
  refine ⟨later, ?_, permLater⟩
  simp only [profileFree, profileNodeFree, ranNodes, ok_bind, ranFuncs, ranArray, ranTable, ran]

theorem takes_tree [DecidableEq σ] {tree : ProfileDescendantTree σ} {paths : List (List σ)}
    (indexed : Indexed tree paths) : Takes (treeObjects tree) fun heap => profileDescendantTreeFree heap tree := by
  intro heap others perm
  have permRoots : heap.Perm (nodeObjects (List.range tree.nodes.length) ++ .roots :: .whole :: others) :=
    perm.trans (.of_eq (by simp [treeObjects]))
  obtain ⟨afterNodes, ranNodes, permNodes⟩ := rootsFree_ok indexed (by simp) permRoots
  obtain ⟨later, ran, permLater⟩ := gFree_ok permNodes
  refine ⟨later, ?_, permLater⟩
  simp only [profileDescendantTreeFree, profileDescendantTreeNodeFree, ranNodes, ok_bind, ran]

theorem takes_callerList (callerList : List ProfileFunc) :
    Takes (callerListObjects callerList) fun heap => profileCallerListFree heap callerList := by
  intro heap others perm
  have permFuncs : heap.Perm (funcObjects callerList ++ .whole :: others) :=
    perm.trans (.of_eq (by simp [callerListObjects]))
  obtain ⟨afterFuncs, ranFuncs, permLater⟩ := @funcsFree_ok .whole _ _ (by simp) _ permFuncs
  obtain ⟨later, ran, permLater⟩ := gFree_ok permLater
  exact ⟨later, by simp only [profileCallerListFree, ranFuncs, ok_bind, ran], permLater⟩

end

/-- Whatever `profile_create` returns, `profile_free` frees each object of it once, reading
nothing that is freed, and so do the functions that free the descendant tree and the caller
list of each of its functions. -/
theorem profile_freed {σ τ : Type} [DecidableEq σ] {locate : τ → Addr → Option σ × τ} {name : σ → String}
    {skipFuncs : List String} {world later : World} {p : ProcId} {maps maps' : τ} {profile : Profile σ}
    (returned : profileCreate locate name maps world p skipFuncs = .ok (later, maps', profile)) :
    (Takes (profileObjects profile) fun heap => profileFree heap profile) ∧
      ∀ func ∈ profile.functions, ∃ tree callerList, profileFuncCreateDescendantTree profile func = .ok tree ∧
        profileFuncCreateCallerList profile func = .ok callerList ∧
        (Takes (treeObjects tree) fun heap => profileDescendantTreeFree heap tree) ∧
        Takes (callerListObjects callerList) fun heap => profileCallerListFree heap callerList := by
  obtain ⟨samples, paths, profiled⟩ := FlatProfile.profiled_of_create returned
  refine ⟨takes_profile profiled.tree.indexed, fun func member => ?_⟩
  rw [profiled.functions] at member
  obtain ⟨entry, listed, rfl⟩ := List.mem_map.mp member
  obtain ⟨tree, known, ranTree, rest⟩ := Descendants.descendantTree_ok profiled listed
  obtain ⟨callerList, ranCallers, _⟩ := Callers.callerList_ok profiled listed
  exact ⟨tree, callerList, ranTree, ranCallers, takes_tree rest.trie.indexed, takes_callerList callerList⟩

theorem profile_freed_recursing : ∃ later maps' profile,
    profileCreate FlatProfile.locateStart FlatProfile.nameStart () FlatProfile.recursing 0 [] =
      .ok (later, maps', profile) ∧ Takes (profileObjects profile) fun heap => profileFree heap profile := by
  obtain ⟨later, maps', profile, _, returned, _, _⟩ := FlatProfile.exists_recursing
  exact ⟨later, maps', profile, returned, (profile_freed returned).1⟩

end Memprof.Freeing
