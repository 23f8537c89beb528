import Mathlib.Data.List.Range
import Memprof.Library.Forest

/-! # Every node once

A sweep of a forest meets the nodes of an array one after the other, and after each of them
what is below it.  From the roots it meets every node of the forest once.
-/

namespace Memprof.Library.Forest

variable {ν σ : Type} [TreeNode ν σ]

inductive Sweep (forest : Forest ν) : List ℕ → List ℕ → Prop
  | nil : Sweep forest [] []
  | cons {i : ℕ} {node : ν} {ids below beside : List ℕ} (held : forest.nodes[i]? = some node)
      (down : Sweep forest (TreeNode.children node) below) (next : Sweep forest ids beside) :
      Sweep forest (i :: ids) (i :: (below ++ beside))

variable {forest : Forest ν} {paths : List (List σ)}

/-- The children of a node are the nodes whose path is one symbol longer. -/
theorem Indexed.mem_children (indexed : Indexed forest paths) {i : ℕ} {node : ν} (held : forest.nodes[i]? = some node)
    {path : List σ} (here : paths[i]? = some path) (c : ℕ) :
    c ∈ TreeNode.children node ↔ ∃ symbol, paths[c]? = some (path ++ [symbol]) := by
  have listed : forest.array (some i) = some (TreeNode.children node) := by rw [Forest.array, held, Option.map_some]
  rw [(indexed.array _ _ listed).2]
  constructor
  · rintro ⟨child, heldChild, owned⟩
    have there := indexed.path c child heldChild
    rw [owned, pathOf_some here] at there
    exact ⟨_, there⟩
  · rintro ⟨symbol, there⟩
    obtain ⟨child, heldChild⟩ := indexed.node_of_path there
    obtain ⟨_, upper⟩ := indexed.split heldChild there
    refine ⟨child, heldChild, indexed.owner_injective (indexed.parent_lt heldChild) ?_ ?_⟩
    · rintro j ⟨⟩
      exact (List.getElem?_eq_some_iff.mp held).1
    · rw [upper, pathOf_some here]

/-- Children come later in the arena, so a sweep ends. -/
theorem Indexed.exists_sweep (indexed : Indexed forest paths) {ids : List ℕ}
    (inside : ∀ i ∈ ids, i < forest.nodes.length) : ∃ met, Sweep forest ids met := by
  have bounded : ∀ bound : ℕ, ∀ ids : List ℕ, (∀ i ∈ ids, i < forest.nodes.length ∧ forest.nodes.length - i ≤ bound) →
      ∃ met, Sweep forest ids met := by
    intro bound
    induction bound with
    | zero =>
      intro ids within
      cases ids with
      | nil => exact ⟨[], .nil⟩
      | cons i ids =>
        have := within i (by simp)
        omega
    | succ bound inductionHypothesis =>
      intro ids within
      induction ids with
      | nil => exact ⟨[], .nil⟩
      | cons i ids restHypothesis =>
        obtain ⟨here, close⟩ := within i (by simp)
        have held : forest.nodes[i]? = some forest.nodes[i] := List.getElem?_eq_getElem here
        have listed : forest.array (some i) = some (TreeNode.children forest.nodes[i]) := by
          rw [Forest.array, held, Option.map_some]
        have later : ∀ c ∈ TreeNode.children forest.nodes[i],
            c < forest.nodes.length ∧ forest.nodes.length - c ≤ bound := by
          intro c member
          obtain ⟨child, heldChild, owned⟩ := ((indexed.array _ _ listed).2 c).mp member
          have after := indexed.older c child i heldChild owned
          have := (List.getElem?_eq_some_iff.mp heldChild).1
          omega
        obtain ⟨below, down⟩ := inductionHypothesis _ later
        obtain ⟨beside, next⟩ := restHypothesis fun j member => within j (by simp [member])
        exact ⟨_, .cons held down next⟩
  exact bounded forest.nodes.length ids fun i member => ⟨inside i member, Nat.sub_le _ _⟩

/-- A sweep meets what is at or below its nodes. -/
theorem Indexed.mem_sweep (indexed : Indexed forest paths) {ids met : List ℕ} (sweep : Sweep forest ids met) (j : ℕ) :
    j ∈ met ↔ ∃ i ∈ ids, ∃ upper path, paths[i]? = some upper ∧ paths[j]? = some path ∧ upper <+: path := by
  induction sweep with
  | nil => simp
  | @cons i node ids below beside held down next downHypothesis nextHypothesis =>
    have here := indexed.path i node held
    generalize pathOf paths (TreeNode.parent node) ++ [TreeNode.symbol node] = own at here
    have under : j ∈ i :: below ↔ ∃ path, paths[j]? = some path ∧ own <+: path := by
      rw [List.mem_cons, downHypothesis]
      constructor
      · rintro (rfl | ⟨c, member, upper, path, there, spelled, within⟩)
        · exact ⟨own, here, List.prefix_refl own⟩
        · obtain ⟨symbol, longer⟩ := (indexed.mem_children held here c).mp member
          rw [there, Option.some.injEq] at longer
          have below : own <+: upper := (List.prefix_append own [symbol]).trans (longer ▸ List.prefix_refl upper)
          exact ⟨path, spelled, below.trans within⟩
      · rintro ⟨path, spelled, rest, rfl⟩
        cases rest with
        | nil =>
          rw [List.append_nil] at spelled
          exact .inl (indexed.injective spelled here)
        | cons symbol rest =>
          have within : own ++ [symbol] <+: own ++ symbol :: rest := ⟨rest, by simp⟩
          have known := indexed.prefix_mem (List.mem_of_getElem? spelled) within (by simp)
          obtain ⟨c, there⟩ := List.mem_iff_getElem?.mp known
          exact .inr ⟨c, (indexed.mem_children held here c).mpr ⟨symbol, there⟩, _, _, there, spelled, within⟩
    rw [← List.cons_append, List.mem_append, under, nextHypothesis]
    constructor
    · rintro (⟨path, spelled, within⟩ | ⟨k, member, facts⟩)
      · exact ⟨i, by simp, own, path, here, spelled, within⟩
      · exact ⟨k, by simp [member], facts⟩
    · rintro ⟨k, member, upper, path, there, spelled, within⟩
      rcases List.mem_cons.mp member with rfl | later
      · rw [there, Option.some.injEq] at here
        exact .inl ⟨path, spelled, here ▸ within⟩
      · exact .inr ⟨k, later, upper, path, there, spelled, within⟩

/-- Nodes of one array have paths of one length, and so nothing is below two of them. -/
theorem Indexed.nodup_sweep (indexed : Indexed forest paths) {ids met : List ℕ} (sweep : Sweep forest ids met)
    (distinct : ids.Nodup) {length : ℕ} (level : ∀ i ∈ ids, ∀ path, paths[i]? = some path → path.length = length) :
    met.Nodup := by
  induction sweep generalizing length with
  | nil => exact List.nodup_nil
  | @cons i node ids below beside held down next downHypothesis nextHypothesis =>
    have here := indexed.path i node held
    generalize pathOf paths (TreeNode.parent node) ++ [TreeNode.symbol node] = own at here
    obtain ⟨fresh, distinct⟩ := List.nodup_cons.mp distinct
    have listed : forest.array (some i) = some (TreeNode.children node) := by
      rw [Forest.array, held, Option.map_some]
    have nodupBelow : below.Nodup := by
      refine @downHypothesis (indexed.array _ _ listed).1 (own.length + 1) fun c member path there => ?_
      obtain ⟨symbol, longer⟩ := (indexed.mem_children held here c).mp member
      rw [there, Option.some.injEq] at longer
      simp [longer]
    have nodupBeside : beside.Nodup := nextHypothesis distinct fun k member => level k (by simp [member])
    -- Whatever is at or below the first node is not below the others.
    have apart : ∀ path j, paths[j]? = some path → own <+: path → j ∉ beside := by
      intro path j spelled within member
      obtain ⟨k, later, upper, path', there, spelled', within'⟩ := (indexed.mem_sweep next j).mp member
      rw [spelled, Option.some.injEq] at spelled'
      subst spelled'
      have same : own = upper := by
        refine List.IsPrefix.eq_of_length (List.prefix_of_prefix_length_le within within' ?_) ?_
        all_goals rw [level i (by simp) own here, level k (by simp [later]) upper there]
      exact fresh (indexed.injective here (same ▸ there) ▸ later)
    have belowPath : ∀ j ∈ below, ∃ path, paths[j]? = some path ∧ own <+: path ∧ own.length < path.length := by
      intro j member
      obtain ⟨c, child, upper, path, there, spelled, within⟩ := (indexed.mem_sweep down j).mp member
      obtain ⟨symbol, longer⟩ := (indexed.mem_children held here c).mp child
      rw [there, Option.some.injEq] at longer
      subst longer
      have fits := within.length_le
      rw [List.length_append, List.length_singleton] at fits
      exact ⟨path, spelled, (List.prefix_append own [symbol]).trans within, fits⟩
    refine List.nodup_cons.mpr ⟨?_, List.nodup_append.mpr ⟨nodupBelow, nodupBeside, ?_⟩⟩
    · rw [List.mem_append, not_or]
      refine ⟨fun member => ?_, apart own i here (List.prefix_refl own)⟩
      obtain ⟨path, spelled, _, longer⟩ := belowPath i member
      rw [here, Option.some.injEq] at spelled
      exact Nat.ne_of_lt longer (congrArg List.length spelled)
    · rintro j inBelow k inBeside rfl
      obtain ⟨path, spelled, within, _⟩ := belowPath j inBelow
      exact apart path j spelled within inBeside

/-- A sweep from the roots meets every node once. -/
theorem Indexed.sweep_perm (indexed : Indexed forest paths) {met : List ℕ} (sweep : Sweep forest forest.roots met) :
    met.Perm (List.range forest.nodes.length) := by
  have short : ∀ i ∈ forest.roots, ∀ path, paths[i]? = some path → path.length = 1 := by
    intro i member path here
    obtain ⟨symbol, spelled⟩ := indexed.mem_roots.mp member
    rw [here, Option.some.injEq] at spelled
    rw [spelled, List.length_singleton]
  have distinct := indexed.nodup_sweep sweep (indexed.array none _ rfl).1 short
  refine (List.perm_ext_iff_of_nodup distinct List.nodup_range).mpr fun j => ?_
  rw [indexed.mem_sweep sweep, List.mem_range, ← indexed.length]
  constructor
  · rintro ⟨_, _, _, _, _, spelled, _⟩
    exact (List.getElem?_eq_some_iff.mp spelled).1
  · intro inside
    have spelled : paths[j]? = some paths[j] := List.getElem?_eq_getElem inside
    obtain ⟨symbol, rest, whole⟩ := List.exists_cons_of_ne_nil (indexed.ne_nil spelled)
    have within : [symbol] <+: paths[j] := ⟨rest, whole.symm⟩
    obtain ⟨i, here⟩ := List.mem_iff_getElem?.mp (indexed.prefix_mem (List.mem_of_getElem? spelled) within (by simp))
    exact ⟨i, indexed.mem_roots.mpr ⟨symbol, here⟩, _, _, here, spelled, within⟩

end Memprof.Library.Forest
