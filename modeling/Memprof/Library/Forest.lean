import Mathlib.Data.List.Infix
import Mathlib.Data.List.Nodup
import Memprof.Library.Links

/-! # Forests of labelled nodes

The nodes of a forest stand in an arena and know their parent and the array of their
children; the roots have an array of their own.  Each node is at the end of a path, the
symbols from its root to it.  `Indexed` says that the nodes and the paths correspond: then
to look for a symbol among the children is to look for a path, and a new node adds its
path to the others.
-/

namespace Memprof.Library

class TreeNode (ν : Type) (σ : outParam Type) where
  symbol : ν → σ
  parent : ν → Option ℕ
  children : ν → List ℕ
  /-- The node with one more child. -/
  adopt : ℕ → ν → ν
  symbol_adopt : ∀ i node, symbol (adopt i node) = symbol node
  parent_adopt : ∀ i node, parent (adopt i node) = parent node
  children_adopt : ∀ i node, children (adopt i node) = children node ++ [i]

structure Forest (ν : Type) where
  nodes : List ν := []
  roots : List ℕ := []

namespace Forest

variable {ν σ : Type} [TreeNode ν σ]

/-- The children of a node, or the roots. -/
def array (forest : Forest ν) : Option ℕ → Option (List ℕ)
  | none => some forest.roots
  | some i => forest.nodes[i]?.map TreeNode.children

/-- A loop over an array of nodes that remembers the last one with the symbol. -/
def find [DecidableEq σ] (forest : Forest ν) (symbol : σ) (ids : List ℕ) : Option (Option ℕ) :=
  ids.foldlM (fun found i => forest.nodes[i]?.map fun node => if TreeNode.symbol node = symbol then some i else found)
    none

def set (forest : Forest ν) (i : ℕ) (node : ν) : Forest ν := { forest with nodes := forest.nodes.set i node }

/-- A new node, which is put at the end of the array it belongs to. -/
def add (forest : Forest ν) (node : ν) : Forest ν × ℕ :=
  let fresh := forest.nodes.length
  match TreeNode.parent node with
  | none => (⟨forest.nodes ++ [node], forest.roots ++ [fresh]⟩, fresh)
  | some p => (⟨forest.nodes.modify p (TreeNode.adopt fresh) ++ [node], forest.roots⟩, fresh)

/-- The path of a node, the empty one above the roots. -/
def pathOf (paths : List (List σ)) : Option ℕ → List σ
  | none => []
  | some i => paths.getD i []

structure Indexed (forest : Forest ν) (paths : List (List σ)) : Prop where
  length : paths.length = forest.nodes.length
  path : ∀ (i : ℕ) (node : ν), forest.nodes[i]? = some node →
    paths[i]? = some (pathOf paths (TreeNode.parent node) ++ [TreeNode.symbol node])
  older : Older forest.nodes TreeNode.parent
  distinct : paths.Nodup
  array : ∀ (owner : Option ℕ) (ids : List ℕ), forest.array owner = some ids →
    ids.Nodup ∧ ∀ (i : ℕ), i ∈ ids ↔ ∃ node, forest.nodes[i]? = some node ∧ TreeNode.parent node = owner

theorem indexed_empty : Indexed ({} : Forest ν) [] where
  length := rfl
  path _ _ held := by cases held
  older _ _ _ held := by cases held
  distinct := List.nodup_nil
  array owner ids listed := by
    cases owner with
    | none => cases listed; exact ⟨List.nodup_nil, fun i => by simp⟩
    | some i => cases listed

section Indexed

variable {forest : Forest ν} {paths : List (List σ)}

theorem Indexed.node_of_path (indexed : Indexed forest paths) {i : ℕ} {path : List σ}
    (located : paths[i]? = some path) : ∃ node, forest.nodes[i]? = some node := by
  have inside := (List.getElem?_eq_some_iff.mp located).1
  rw [indexed.length] at inside
  exact ⟨_, List.getElem?_eq_getElem inside⟩

theorem Indexed.injective (indexed : Indexed forest paths) {i j : ℕ} {path : List σ} (left : paths[i]? = some path)
    (right : paths[j]? = some path) : i = j := by
  obtain ⟨insideI, hereI⟩ := List.getElem?_eq_some_iff.mp left
  obtain ⟨insideJ, hereJ⟩ := List.getElem?_eq_some_iff.mp right
  exact (indexed.distinct.getElem_inj_iff).mp (hereI.trans hereJ.symm)

theorem Indexed.ne_nil (indexed : Indexed forest paths) {i : ℕ} {path : List σ} (located : paths[i]? = some path) :
    path ≠ [] := by
  obtain ⟨node, held⟩ := indexed.node_of_path located
  rw [indexed.path i node held] at located
  cases located
  simp

theorem pathOf_some {i : ℕ} {path : List σ} (located : paths[i]? = some path) : pathOf paths (some i) = path := by
  rw [pathOf, List.getD_eq_getElem?_getD, located, Option.getD_some]

/-- The path of a node is its symbol after the path of its parent. -/
theorem Indexed.split (indexed : Indexed forest paths) {i : ℕ} {node : ν} (held : forest.nodes[i]? = some node)
    {outer : List σ} {symbol : σ} (located : paths[i]? = some (outer ++ [symbol])) :
    TreeNode.symbol node = symbol ∧ pathOf paths (TreeNode.parent node) = outer := by
  have spelled := indexed.path i node held
  rw [located, Option.some.injEq] at spelled
  obtain ⟨left, right⟩ := List.append_inj' spelled rfl
  exact ⟨(List.singleton_inj.mp right).symm, left.symm⟩

/-- A node is known by the path of its owner and itself. -/
theorem Indexed.owner_injective (indexed : Indexed forest paths) {left right : Option ℕ}
    (insideLeft : ∀ i ∈ left, i < forest.nodes.length) (insideRight : ∀ i ∈ right, i < forest.nodes.length)
    (same : pathOf paths left = pathOf paths right) : left = right := by
  have spelled : ∀ i, i < forest.nodes.length → ∃ path, paths[i]? = some path := fun i inside =>
    ⟨_, List.getElem?_eq_getElem (show i < paths.length by rw [indexed.length]; exact inside)⟩
  cases left with
  | none =>
    cases right with
    | none => rfl
    | some j =>
      obtain ⟨path, here⟩ := spelled j (insideRight j rfl)
      rw [pathOf_some here] at same
      exact absurd same.symm (indexed.ne_nil here)
  | some i =>
    obtain ⟨path, here⟩ := spelled i (insideLeft i rfl)
    cases right with
    | none =>
      rw [pathOf_some here] at same
      exact absurd same (indexed.ne_nil here)
    | some j =>
      obtain ⟨path', here'⟩ := spelled j (insideRight j rfl)
      rw [pathOf_some here, pathOf_some here'] at same
      rw [indexed.injective here (same ▸ here')]

theorem Indexed.parent_lt (indexed : Indexed forest paths) {i : ℕ} {node : ν} (held : forest.nodes[i]? = some node) :
    ∀ p ∈ TreeNode.parent node, p < forest.nodes.length := by
  intro p isParent
  have before := indexed.older i node p held isParent
  have inside := (List.getElem?_eq_some_iff.mp held).1
  omega

theorem exists_array {owner : Option ℕ} (inside : ∀ i ∈ owner, i < forest.nodes.length) :
    ∃ ids, forest.array owner = some ids := by
  cases owner with
  | none => exact ⟨_, rfl⟩
  | some i =>
    rw [array, List.getElem?_eq_getElem (inside i rfl)]
    exact ⟨_, rfl⟩

theorem array_inside {owner : Option ℕ} {ids : List ℕ} (listed : forest.array owner = some ids) :
    ∀ i ∈ owner, i < forest.nodes.length := by
  rintro i rfl
  by_contra outside
  rw [array, List.getElem?_eq_none (Nat.le_of_not_lt outside)] at listed
  cases listed

/-- The loop finds nothing only where there is nothing. -/
theorem find_fold [DecidableEq σ] (forest : Forest ν) (symbol : σ) {ids : List ℕ}
    (held : ∀ i ∈ ids, ∃ node, forest.nodes[i]? = some node) (before : Option ℕ) :
    ∃ found, ids.foldlM (fun found i => forest.nodes[i]?.map fun node =>
        if TreeNode.symbol node = symbol then some i else found) before = some found ∧
      (∀ i, found = some i → before = some i ∨
        i ∈ ids ∧ ∃ node, forest.nodes[i]? = some node ∧ TreeNode.symbol node = symbol) ∧
      (found = none → before = none ∧
        ∀ i ∈ ids, ∀ node, forest.nodes[i]? = some node → TreeNode.symbol node ≠ symbol) := by
  induction ids generalizing before with
  | nil => exact ⟨before, rfl, fun i same => .inl same, fun nothing => ⟨nothing, by simp⟩⟩
  | cons i ids inductionHypothesis =>
    obtain ⟨node, here⟩ := held i (by simp)
    obtain ⟨found, ran, finds, misses⟩ := inductionHypothesis (fun j member => held j (by simp [member]))
      (if TreeNode.symbol node = symbol then some i else before)
    refine ⟨found, ?_, ?_, ?_⟩
    · rw [List.foldlM_cons, here]
      exact ran
    · intro j same
      rcases finds j same with earlier | ⟨member, later⟩
      · split at earlier
        next labelled =>
          cases earlier
          exact .inr ⟨by simp, node, here, labelled⟩
        next => exact .inl earlier
      · exact .inr ⟨by simp [member], later⟩
    · intro nothing
      obtain ⟨earlier, rest⟩ := misses nothing
      split at earlier
      next => cases earlier
      next different =>
        refine ⟨earlier, ?_⟩
        intro j member other there
        rcases List.mem_cons.mp member with rfl | later
        · rw [here] at there
          cases there
          exact different
        · exact rest j later other there

/-- To look for a symbol in an array is to look for a path. -/
theorem Indexed.find_ok [DecidableEq σ] (indexed : Indexed forest paths) {owner : Option ℕ} {ids : List ℕ}
    (listed : forest.array owner = some ids) (symbol : σ) :
    ∃ found, forest.find symbol ids = some found ∧
      ∀ i, found = some i ↔ paths[i]? = some (pathOf paths owner ++ [symbol]) := by
  have listing := (indexed.array owner ids listed).2
  have held : ∀ i ∈ ids, ∃ node, forest.nodes[i]? = some node := fun i member =>
    ((listing i).mp member).imp fun _ facts => facts.1
  obtain ⟨found, ran, finds, misses⟩ := find_fold forest symbol held none
  have sound : ∀ i, found = some i → paths[i]? = some (pathOf paths owner ++ [symbol]) := by
    intro i same
    obtain ⟨member, node, here, labelled⟩ := (finds i same).resolve_left nofun
    obtain ⟨node', here', owned⟩ := (listing i).mp member
    rw [here] at here'
    cases here'
    rw [indexed.path i node here, owned, labelled]
  refine ⟨found, ran, fun i => ⟨sound i, ?_⟩⟩
  intro here
  cases found with
  | some j => rw [indexed.injective (sound j rfl) here]
  | none =>
    obtain ⟨node, held⟩ := indexed.node_of_path here
    obtain ⟨labelled, outer⟩ := indexed.split held here
    have owned := indexed.owner_injective (indexed.parent_lt held) (array_inside listed) outer
    exact absurd labelled ((misses rfl).2 i ((listing i).mpr ⟨node, held, owned⟩) node held)

theorem getElem?_set {i : ℕ} {node : ν} (held : forest.nodes[i]? = some node) (node' : ν) (j : ℕ) :
    (forest.set i node').nodes[j]? = if j = i then some node' else forest.nodes[j]? := by
  have inside := (List.getElem?_eq_some_iff.mp held).1
  split
  next same => rw [same, set, List.getElem?_set_self inside]
  next other => rw [set, List.getElem?_set_ne (Ne.symm other)]

/-- The node that was written, or one with another path, which is as before. -/
theorem Indexed.set_cases (indexed : Indexed forest paths) {i j : ℕ} {node node' other : ν} {path there : List σ}
    (held : forest.nodes[i]? = some node) (here : paths[i]? = some path)
    (found : (forest.set i node').nodes[j]? = some other) (spelled : paths[j]? = some there) :
    (other = node' ∧ there = path) ∨ (there ≠ path ∧ forest.nodes[j]? = some other) := by
  rw [getElem?_set held] at found
  split at found
  next same =>
    rw [same, here, Option.some.injEq] at spelled
    exact .inl ⟨(Option.some.inj found).symm, spelled.symm⟩
  next elsewhere =>
    refine .inr ⟨?_, found⟩
    rintro rfl
    exact elsewhere (indexed.injective spelled here)

/-- What the path of a node is does not depend on the rest of what it holds. -/
theorem Indexed.set (indexed : Indexed forest paths) {i : ℕ} {node node' : ν} (held : forest.nodes[i]? = some node)
    (symbol : TreeNode.symbol node' = TreeNode.symbol node) (parent : TreeNode.parent node' = TreeNode.parent node)
    (children : TreeNode.children node' = TreeNode.children node) : Indexed (forest.set i node') paths where
  length := by rw [indexed.length, Forest.set, List.length_set]
  path j other found := by
    rw [getElem?_set held] at found
    split at found
    next same =>
      cases found
      rw [same, symbol, parent]
      exact indexed.path i node held
    next => exact indexed.path j other found
  older := indexed.older.set held parent
  distinct := indexed.distinct
  array owner ids listed := by
    have same : forest.array owner = some ids := by
      cases owner with
      | none => exact listed
      | some j =>
        rw [Forest.array, getElem?_set held] at listed
        split at listed
        next here => rw [Forest.array, here, held, ← listed, Option.map_some, Option.map_some, children]
        next => exact listed
    obtain ⟨distinct, listing⟩ := indexed.array owner ids same
    refine ⟨distinct, fun j => (listing j).trans ?_⟩
    rw [getElem?_set held]
    split
    next here =>
      subst here
      simp only [held, Option.some.injEq, exists_eq_left', parent]
    next => rfl

/-- Everything but the array it is put in is as before. -/
theorem getElem?_add (forest : Forest ν) (node : ν) (i : ℕ) :
    (forest.add node).1.nodes[i]? =
      if i = forest.nodes.length then some node
      else if TreeNode.parent node = some i then forest.nodes[i]?.map (TreeNode.adopt forest.nodes.length)
      else forest.nodes[i]? := by
  have appended : ∀ nodes : List ν, nodes.length = forest.nodes.length →
      (nodes ++ [node])[i]? = if i = forest.nodes.length then some node else nodes[i]? := by
    intro nodes length
    rw [← length]
    split
    next fresh => simp [fresh]
    next other =>
      rcases Nat.lt_or_gt_of_ne other with inside | outside
      · rw [List.getElem?_append_left inside]
      · rw [List.getElem?_eq_none (by simp; omega), List.getElem?_eq_none (by omega)]
  unfold add
  cases TreeNode.parent node with
  | none =>
    simp only [appended forest.nodes rfl, reduceCtorEq, if_false]
  | some p =>
    simp only [appended _ (List.length_modify ..), List.getElem?_modify, Option.some.injEq]
    by_cases here : p = i <;> simp [here]

theorem add_snd (forest : Forest ν) (node : ν) : (forest.add node).2 = forest.nodes.length := by
  unfold add
  split <;> rfl

theorem length_add (forest : Forest ν) (node : ν) : (forest.add node).1.nodes.length = forest.nodes.length + 1 := by
  unfold add
  split <;> simp

/-- What is at a place after the addition: the new node, or what was there, perhaps with
one more child. -/
theorem getElem?_add_cases {node other : ν} {i : ℕ} (held : (forest.add node).1.nodes[i]? = some other) :
    i = forest.nodes.length ∧ other = node ∨
      i < forest.nodes.length ∧ ∃ before, forest.nodes[i]? = some before ∧
        other = if TreeNode.parent node = some i then TreeNode.adopt forest.nodes.length before else before := by
  rw [getElem?_add] at held
  split at held
  next fresh => cases held; exact .inl ⟨fresh, rfl⟩
  next old =>
    right
    split at held
    next owner =>
      obtain ⟨before, here, rfl⟩ := Option.map_eq_some_iff.mp held
      exact ⟨(List.getElem?_eq_some_iff.mp here).1, before, here, by rw [if_pos owner]⟩
    next notOwner => exact ⟨(List.getElem?_eq_some_iff.mp held).1, other, held, by rw [if_neg notOwner]⟩

theorem getElem?_add_of_lt (node : ν) {i : ℕ} {before : ν} (held : forest.nodes[i]? = some before) :
    (forest.add node).1.nodes[i]? =
      some (if TreeNode.parent node = some i then TreeNode.adopt forest.nodes.length before else before) := by
  have inside := (List.getElem?_eq_some_iff.mp held).1
  rw [getElem?_add, if_neg (Nat.ne_of_lt inside), held, Option.map_some]
  split <;> rfl

theorem array_add {node : ν} (childless : TreeNode.children node = []) {owner : Option ℕ} {ids : List ℕ}
    (listed : (forest.add node).1.array owner = some ids) :
    owner = some forest.nodes.length ∧ ids = [] ∨
      ∃ old, forest.array owner = some old ∧
        ids = if TreeNode.parent node = owner then old ++ [forest.nodes.length] else old := by
  cases owner with
  | none =>
    right
    refine ⟨forest.roots, rfl, ?_⟩
    unfold add at listed
    cases parent : TreeNode.parent node with
    | none => rw [parent] at listed; cases listed; rfl
    | some p => rw [parent] at listed; cases listed; rfl
  | some i =>
    obtain ⟨other, held, rfl⟩ := Option.map_eq_some_iff.mp listed
    rcases getElem?_add_cases held with ⟨rfl, rfl⟩ | ⟨_, before, here, rfl⟩
    · exact .inl ⟨rfl, childless⟩
    · refine .inr ⟨TreeNode.children before, by rw [array, here, Option.map_some], ?_⟩
      split
      · exact TreeNode.children_adopt _ _
      · rfl

theorem pathOf_append {owner : Option ℕ} (inside : ∀ i ∈ owner, i < paths.length) (path : List σ) :
    pathOf (paths ++ [path]) owner = pathOf paths owner := by
  cases owner with
  | none => rfl
  | some i => rw [pathOf, pathOf, List.getD_eq_getElem?_getD, List.getD_eq_getElem?_getD,
      List.getElem?_append_left (inside i rfl)]

/-- What an old node is called and hangs under does not depend on its children. -/
theorem place_add_cases {node other : ν} {i : ℕ} (held : (forest.add node).1.nodes[i]? = some other) :
    i = forest.nodes.length ∧ other = node ∨
      ∃ before, forest.nodes[i]? = some before ∧ TreeNode.parent other = TreeNode.parent before ∧
        TreeNode.symbol other = TreeNode.symbol before := by
  rcases getElem?_add_cases held with new | ⟨_, before, here, rfl⟩
  · exact .inl new
  · refine .inr ⟨before, here, ?_⟩
    split
    · exact ⟨TreeNode.parent_adopt _ _, TreeNode.symbol_adopt _ _⟩
    · exact ⟨rfl, rfl⟩

/-- The nodes after the addition that have some property, if a child more does not matter. -/
theorem exists_add_iff {α : Type} {field : ν → α} (kept : ∀ i node, field (TreeNode.adopt i node) = field node)
    {node : ν} {value : α} {i : ℕ} :
    (∃ after, (forest.add node).1.nodes[i]? = some after ∧ field after = value) ↔
      i = forest.nodes.length ∧ field node = value ∨ ∃ before, forest.nodes[i]? = some before ∧
        field before = value := by
  constructor
  · rintro ⟨after, held, same⟩
    rcases getElem?_add_cases held with ⟨rfl, rfl⟩ | ⟨_, before, heldBefore, rfl⟩
    · exact .inl ⟨rfl, same⟩
    · refine .inr ⟨before, heldBefore, ?_⟩
      split at same
      · rwa [kept] at same
      · exact same
  · rintro (⟨rfl, same⟩ | ⟨before, held, same⟩)
    · exact ⟨node, by rw [getElem?_add, if_pos rfl], same⟩
    · refine ⟨_, getElem?_add_of_lt node held, ?_⟩
      split
      · rwa [kept]
      · exact same

/-- A new node, at a new path. -/
theorem Indexed.add (indexed : Indexed forest paths) {node : ν} (childless : TreeNode.children node = [])
    (inside : ∀ p ∈ TreeNode.parent node, p < forest.nodes.length)
    (fresh : pathOf paths (TreeNode.parent node) ++ [TreeNode.symbol node] ∉ paths) :
    Indexed (forest.add node).1 (paths ++ [pathOf paths (TreeNode.parent node) ++ [TreeNode.symbol node]]) where
  length := by rw [length_add, List.length_append, indexed.length, List.length_singleton]
  path i other held := by
    have insidePaths : ∀ {owner : Option ℕ}, (∀ p ∈ owner, p < forest.nodes.length) → ∀ p ∈ owner, p < paths.length :=
      fun bound p isOwner => indexed.length ▸ bound p isOwner
    rcases place_add_cases held with ⟨rfl, rfl⟩ | ⟨before, here, parent, symbol⟩
    · rw [pathOf_append (insidePaths inside), ← indexed.length, List.getElem?_concat_length]
    · have old := indexed.path i before here
      rw [parent, symbol, pathOf_append (insidePaths (indexed.parent_lt here)),
        List.getElem?_append_left (List.getElem?_eq_some_iff.mp old).1, old]
  older i other p held isParent := by
    rcases place_add_cases held with ⟨rfl, rfl⟩ | ⟨before, here, parent, _⟩
    · exact inside p isParent
    · exact indexed.older i before p here (parent ▸ isParent)
  distinct := by
    rw [← List.concat_eq_append]
    exact indexed.distinct.concat fresh
  array owner ids listed := by
    have members : ∀ i, (∃ other, (forest.add node).1.nodes[i]? = some other ∧ TreeNode.parent other = owner) ↔
        i = forest.nodes.length ∧ TreeNode.parent node = owner ∨
          ∃ before, forest.nodes[i]? = some before ∧ TreeNode.parent before = owner :=
      fun i => exists_add_iff TreeNode.parent_adopt
    simp only [members]
    rcases array_add childless listed with ⟨rfl, rfl⟩ | ⟨old, listedOld, rfl⟩
    · -- Nothing hangs under the new node.
      refine ⟨List.nodup_nil, fun i => iff_of_false List.not_mem_nil ?_⟩
      rintro (⟨_, owned⟩ | ⟨before, here, owned⟩)
      · exact Nat.lt_irrefl _ (inside _ owned)
      · exact Nat.lt_irrefl _ (indexed.parent_lt here _ owned)
    · obtain ⟨distinct, listing⟩ := indexed.array owner old listedOld
      have oldInside : ∀ i ∈ old, i < forest.nodes.length := by
        intro i member
        obtain ⟨_, here, _⟩ := (listing i).mp member
        exact (List.getElem?_eq_some_iff.mp here).1
      split
      next owned =>
        constructor
        · rw [← List.concat_eq_append]
          exact distinct.concat fun member => Nat.lt_irrefl _ (oldInside _ member)
        · intro i
          rw [List.mem_append, List.mem_singleton, listing i, and_iff_left owned, or_comm]
      next other =>
        refine ⟨distinct, fun i => ?_⟩
        rw [listing i, or_iff_right fun both => other both.2]

/-! ## Other links between the nodes -/

/-- The nodes of a symbol, and the new one if it is its own. -/
theorem exists_symbol_add {node : ν} {symbol : σ} {i : ℕ} :
    (∃ after, (forest.add node).1.nodes[i]? = some after ∧ TreeNode.symbol after = symbol) ↔
      i = forest.nodes.length ∧ TreeNode.symbol node = symbol ∨
        ∃ before, forest.nodes[i]? = some before ∧ TreeNode.symbol before = symbol :=
  exists_add_iff TreeNode.symbol_adopt

theorem exists_symbol_set {i : ℕ} {node node' : ν} (held : forest.nodes[i]? = some node)
    (same : TreeNode.symbol node' = TreeNode.symbol node) {symbol : σ} {j : ℕ} :
    (∃ after, (forest.set i node').nodes[j]? = some after ∧ TreeNode.symbol after = symbol) ↔
      ∃ before, forest.nodes[j]? = some before ∧ TreeNode.symbol before = symbol := by
  rw [getElem?_set held]
  split
  next here =>
    subst here
    simp only [Option.some.injEq, exists_eq_left', same, held]
  next => rfl

/-- A link that is not about children is kept when a node is added. -/
theorem older_add {link : ν → Option ℕ} (keeps : ∀ i node, link (TreeNode.adopt i node) = link node)
    (older : Older forest.nodes link) {node : ν} (inside : ∀ j ∈ link node, j < forest.nodes.length) :
    Older (forest.add node).1.nodes link := by
  intro i other j held linked
  rcases getElem?_add_cases held with ⟨rfl, rfl⟩ | ⟨_, before, here, rfl⟩
  · exact inside j linked
  · refine older i before j here ?_
    rw [← linked]
    split
    · exact (keeps _ _).symm
    · rfl

theorem chain_add {link : ν → Option ℕ} (keeps : ∀ i node, link (TreeNode.adopt i node) = link node)
    {start : Option ℕ} {list : List ℕ} (chain : Chain forest.nodes link start list) (node : ν) :
    Chain (forest.add node).1.nodes link start list := by
  refine chain.congr fun i _ before held => ⟨_, getElem?_add_of_lt node held, ?_⟩
  split
  · exact keeps _ _
  · rfl

theorem chain_set {link : ν → Option ℕ} {i : ℕ} {node node' : ν} (held : forest.nodes[i]? = some node)
    (same : link node' = link node) {start : Option ℕ} {list : List ℕ} (chain : Chain forest.nodes link start list) :
    Chain (forest.set i node').nodes link start list := by
  refine chain.congr fun j _ before here => ?_
  rw [getElem?_set held]
  split
  next at_i =>
    rw [at_i, held] at here
    cases here
    exact ⟨node', rfl, same⟩
  next => exact ⟨before, here, rfl⟩

/-! ## Ancestors -/

/-- The path of a node that has a parent. -/
theorem Indexed.parent_path (indexed : Indexed forest paths) {i p : ℕ} {node : ν} (held : forest.nodes[i]? = some node)
    (isParent : TreeNode.parent node = some p) :
    ∃ outer, paths[p]? = some outer ∧ paths[i]? = some (outer ++ [TreeNode.symbol node]) := by
  have inside := indexed.parent_lt held p isParent
  rw [← indexed.length] at inside
  have here := indexed.path i node held
  rw [isParent, pathOf_some (List.getElem?_eq_getElem inside)] at here
  exact ⟨_, List.getElem?_eq_getElem inside, here⟩

theorem Indexed.root_path (indexed : Indexed forest paths) {i : ℕ} {node : ν} (held : forest.nodes[i]? = some node)
    (isRoot : TreeNode.parent node = none) : paths[i]? = some [TreeNode.symbol node] := by
  have here := indexed.path i node held
  rwa [isRoot] at here

/-- The roots are the nodes with a path of one step. -/
theorem Indexed.mem_roots (indexed : Indexed forest paths) {i : ℕ} :
    i ∈ forest.roots ↔ ∃ symbol, paths[i]? = some [symbol] := by
  rw [(indexed.array none forest.roots rfl).2]
  constructor
  · rintro ⟨node, held, isRoot⟩
    exact ⟨_, indexed.root_path held isRoot⟩
  · rintro ⟨symbol, here⟩
    obtain ⟨node, held⟩ := indexed.node_of_path here
    rw [← List.nil_append [symbol]] at here
    exact ⟨node, held, indexed.owner_injective (indexed.parent_lt held) (by simp) (indexed.split held here).2⟩

theorem not_concat_prefix (path : List σ) (symbol : σ) : ¬ path ++ [symbol] <+: path := by
  intro below
  have fits := below.length_le
  rw [List.length_append, List.length_singleton] at fits
  omega

/-- A path comes with all its prefixes. -/
theorem Indexed.prefix_mem (indexed : Indexed forest paths) {path : List σ} (member : path ∈ paths) {outer : List σ}
    (below : outer <+: path) (nonempty : outer ≠ []) : outer ∈ paths := by
  obtain ⟨i, here⟩ := List.mem_iff_getElem?.mp member
  induction i using Nat.strongRecOn generalizing path with
  | ind i inductionHypothesis =>
    obtain ⟨node, held⟩ := indexed.node_of_path here
    cases isParent : TreeNode.parent node with
    | none =>
      rw [indexed.root_path held isParent, Option.some.injEq] at here
      rw [← here, ← List.nil_append [_]] at below
      rcases List.prefix_concat_iff.mp below with rfl | below
      · rwa [← here] at member
      · exact absurd (List.prefix_nil.mp below) nonempty
    | some p =>
      obtain ⟨upper, hereP, spelled⟩ := indexed.parent_path held isParent
      rw [here, Option.some.injEq] at spelled
      rw [spelled] at below
      rcases List.prefix_concat_iff.mp below with rfl | below
      · rwa [← spelled]
      · exact inductionHypothesis p (indexed.older i node p held isParent) (List.mem_of_getElem? hereP) below hereP

/-- From a node there is a way up to each node whose path its own begins with. -/
theorem Indexed.exists_segment (indexed : Indexed forest paths) {top : ℕ} {upper : List σ}
    (above : paths[top]? = some upper) {i : ℕ} {path : List σ} (here : paths[i]? = some path)
    (below : upper <+: path) : ∃ list, Segment forest.nodes TreeNode.parent top i list := by
  induction i using Nat.strongRecOn generalizing path with
  | ind i inductionHypothesis =>
    obtain ⟨node, held⟩ := indexed.node_of_path here
    by_cases same : upper = path
    · obtain rfl := indexed.injective here (same ▸ above)
      exact ⟨_, .single held⟩
    · cases isParent : TreeNode.parent node with
      | none =>
        -- Above the path of a root there is only the empty one.
        rw [indexed.root_path held isParent, Option.some.injEq] at here
        rw [← here, ← List.nil_append [_]] at below
        rcases List.prefix_concat_iff.mp below with equal | below
        · exact absurd (equal.trans here) same
        · exact absurd (List.prefix_nil.mp below) (indexed.ne_nil above)
      | some p =>
        obtain ⟨outer, hereP, spelled⟩ := indexed.parent_path held isParent
        rw [here, Option.some.injEq] at spelled
        rw [spelled] at below
        rcases List.prefix_concat_iff.mp below with equal | below
        · exact absurd (equal.trans spelled.symm) same
        · obtain ⟨list, onward⟩ := inductionHypothesis p (indexed.older i node p held isParent) hereP below
          exact ⟨_, .cons held isParent onward⟩

/-- Further down the paths are longer. -/
theorem Indexed.prefix_of_segment (indexed : Indexed forest paths) {top : ℕ} {upper : List σ}
    (above : paths[top]? = some upper) {i : ℕ} {list : List ℕ}
    (segment : Segment forest.nodes TreeNode.parent top i list) : ∃ path, paths[i]? = some path ∧ upper <+: path := by
  induction segment with
  | single held => exact ⟨upper, above, List.prefix_rfl⟩
  | @cons i j node rest held linked onward inductionHypothesis =>
    obtain ⟨outer, hereJ, spelled⟩ := indexed.parent_path held linked
    obtain ⟨path, at_j, below⟩ := inductionHypothesis
    rw [hereJ, Option.some.injEq] at at_j
    subst at_j
    exact ⟨_, spelled, below.trans (List.prefix_append ..)⟩

/-! ## Paths from the roots -/

/-- The node that the symbols of a path lead to, from the children of `owner` on. -/
inductive At (forest : Forest ν) : Option ℕ → List σ → ℕ → Prop
  | child {owner : Option ℕ} {ids : List ℕ} {i : ℕ} {node : ν} (listed : forest.array owner = some ids) (member : i ∈ ids)
      (held : forest.nodes[i]? = some node) : At forest owner [TreeNode.symbol node] i
  | descendant {owner : Option ℕ} {ids : List ℕ} {i j : ℕ} {node : ν} {path : List σ} (listed : forest.array owner = some ids)
      (member : i ∈ ids) (held : forest.nodes[i]? = some node) (rest : At forest (some i) path j) :
      At forest owner (TreeNode.symbol node :: path) j

theorem Indexed.path_of_at (indexed : Indexed forest paths) {owner : Option ℕ} {path : List σ} {i : ℕ}
    (reached : At forest owner path i) : path ≠ [] ∧ paths[i]? = some (pathOf paths owner ++ path) := by
  induction reached with
  | @child owner ids i node listed member held =>
    obtain ⟨other, heldOther, owned⟩ := ((indexed.array owner ids listed).2 i).mp member
    rw [held] at heldOther
    cases heldOther
    exact ⟨by simp, by rw [indexed.path i node held, owned]⟩
  | @descendant owner ids i j node path listed member held _ inductionHypothesis =>
    obtain ⟨other, heldOther, owned⟩ := ((indexed.array owner ids listed).2 i).mp member
    rw [held] at heldOther
    cases heldOther
    refine ⟨by simp, ?_⟩
    rw [inductionHypothesis.2, pathOf_some (indexed.path i node held), owned, List.append_assoc, List.singleton_append]

theorem Indexed.at_of_path (indexed : Indexed forest paths) {owner : Option ℕ}
    (inside : ∀ i ∈ owner, i < forest.nodes.length) {path : List σ} (nonempty : path ≠ []) {i : ℕ}
    (here : paths[i]? = some (pathOf paths owner ++ path)) : At forest owner path i := by
  induction path generalizing owner with
  | nil => exact absurd rfl nonempty
  | cons symbol rest inductionHypothesis =>
    have within : pathOf paths owner ++ [symbol] <+: pathOf paths owner ++ symbol :: rest := ⟨rest, by simp⟩
    have known := indexed.prefix_mem (List.mem_of_getElem? here) within (by simp)
    obtain ⟨j, there⟩ := List.mem_iff_getElem?.mp known
    obtain ⟨node, held⟩ := indexed.node_of_path there
    obtain ⟨rfl, upper⟩ := indexed.split held there
    have owned := indexed.owner_injective (indexed.parent_lt held) inside upper
    obtain ⟨ids, listed⟩ := exists_array inside
    have member : j ∈ ids := ((indexed.array owner ids listed).2 j).mpr ⟨node, held, owned⟩
    cases rest with
    | nil =>
      rw [indexed.injective here there]
      exact .child listed member held
    | cons next rest =>
      have insideJ : ∀ k ∈ some j, k < forest.nodes.length := by
        rintro k ⟨⟩
        exact (List.getElem?_eq_some_iff.mp held).1
      refine .descendant listed member held (inductionHypothesis insideJ (List.cons_ne_nil _ _) ?_)
      rw [here, pathOf_some there, List.append_assoc, List.singleton_append]

/-- From the roots the nodes are found at their paths. -/
theorem Indexed.at_iff (indexed : Indexed forest paths) {path : List σ} {i : ℕ} :
    At forest none path i ↔ paths[i]? = some path :=
  ⟨fun reached => (indexed.path_of_at reached).2,
    fun here => indexed.at_of_path (by simp) (indexed.ne_nil here) here⟩

end Indexed

end Forest

end Memprof.Library
