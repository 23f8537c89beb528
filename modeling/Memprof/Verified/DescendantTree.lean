import Memprof.Verified.Descendants

/-! # The traces of a function

The traces that `profile_func_create_descendant_tree` adds are those from a toplevel node of
the function down to a node with something of its own.  The loops meet each of them once, in
an order that depends on the tree; what is counted does not.
-/

namespace Memprof.Descendants

open Library Library.Forest CallTree FlatProfile

variable {σ : Type}

section Leaves

variable {forest : Forest (ProfileNode σ)} {paths : List (List σ)}

/-- A node with something of its own, at or beneath a path. -/
def IsLeaf (forest : Forest (ProfileNode σ)) (paths : List (List σ)) (upper : List σ) (i : ℕ) : Prop :=
  ∃ node here, forest.nodes[i]? = some node ∧ 0 < node.self ∧ paths[i]? = some here ∧ upper <+: here

/-- The leaves below some children of one node, one child after the other. -/
theorem leaves_children (indexed : Indexed forest paths)
    {step : List ℕ → ℕ → Except Fault (List ℕ)} {outer : List σ} {children : List ℕ} (distinct : children.Nodup)
    (placed : ∀ c ∈ children, ∃ symbol, paths[c]? = some (outer ++ [symbol]))
    (each : ∀ c ∈ children, ∀ here, paths[c]? = some here → ∀ leaves, ∃ found, step leaves c = .ok (found ++ leaves) ∧
      found.Nodup ∧ ∀ j, j ∈ found ↔ IsLeaf forest paths here j) (leaves : List ℕ) :
    ∃ found, children.foldlM step leaves = .ok (found ++ leaves) ∧ found.Nodup ∧
      ∀ j, j ∈ found ↔ ∃ c ∈ children, ∃ here, paths[c]? = some here ∧ IsLeaf forest paths here j := by
  induction children generalizing leaves with
  | nil => exact ⟨[], rfl, List.nodup_nil, fun j => by simp⟩
  | cons c children inductionHypothesis =>
    obtain ⟨fresh, distinctRest⟩ := List.nodup_cons.mp distinct
    obtain ⟨symbol, here⟩ := placed c (by simp)
    obtain ⟨first, ran, distinctFirst, members⟩ := each c (by simp) _ here leaves
    obtain ⟨others, ranRest, distinctOthers, membersRest⟩ := inductionHypothesis distinctRest
      (fun d member => placed d (by simp [member])) (fun d member => each d (by simp [member])) (first ++ leaves)
    refine ⟨others ++ first, ?_, ?_, fun j => ?_⟩
    · rw [List.foldlM_cons, ran, ok_bind, ranRest, List.append_assoc]
    · refine List.nodup_append.mpr ⟨distinctOthers, distinctFirst, ?_⟩
      rintro j memberRest _ memberFirst rfl
      -- Two children that lead to one leaf are the same child.
      obtain ⟨d, memberD, hereD, atD, node, leaf, held, _, spelled, below⟩ := (membersRest j).mp memberRest
      obtain ⟨_, leaf', _, _, spelled', below'⟩ := (members j).mp memberFirst
      rw [spelled] at spelled'
      cases spelled'
      obtain ⟨symbolD, atD'⟩ := placed d (by simp [memberD])
      rw [atD] at atD'
      cases atD'
      have same : outer ++ [symbolD] = outer ++ [symbol] := by
        cases List.prefix_or_prefix_of_prefix below below' with
        | inl within => exact within.eq_of_length (by simp)
        | inr within => exact (within.eq_of_length (by simp)).symm
      rw [same] at atD
      exact fresh (indexed.injective atD here ▸ memberD)
    · rw [List.mem_append, membersRest, members]
      constructor
      · rintro (⟨d, memberD, hereD, atD, leaf⟩ | leaf)
        · exact ⟨d, by simp [memberD], hereD, atD, leaf⟩
        · exact ⟨c, by simp, _, here, leaf⟩
      · rintro ⟨d, memberD, hereD, atD, leaf⟩
        cases List.mem_cons.mp memberD with
        | inl same =>
          rw [same, here] at atD
          cases atD
          exact .inr leaf
        | inr later => exact .inl ⟨d, later, hereD, atD, leaf⟩

section Children

variable {i : ℕ} {node : ProfileNode σ} {here : List σ}

/-- The children of a node, and no other nodes. -/
theorem children_iff (indexed : Indexed forest paths) (held : forest.nodes[i]? = some node) :
    node.children.Nodup ∧
      ∀ c, c ∈ node.children ↔ ∃ child, forest.nodes[c]? = some child ∧ TreeNode.parent child = some i := by
  have listed : forest.array (some i) = some node.children := by
    rw [Forest.array, held]
    rfl
  exact indexed.array (some i) node.children listed

theorem path_of_child (indexed : Indexed forest paths) (held : forest.nodes[i]? = some node)
    (at_i : paths[i]? = some here) {c : ℕ} (member : c ∈ node.children) :
    ∃ symbol, paths[c]? = some (here ++ [symbol]) := by
  obtain ⟨child, heldC, isParent⟩ := ((children_iff indexed held).2 c).mp member
  have path := indexed.path c child heldC
  rw [isParent, pathOf_some at_i] at path
  exact ⟨_, path⟩

theorem isLeaf_self (held : forest.nodes[i]? = some node) (at_i : paths[i]? = some here) :
    IsLeaf forest paths here i ↔ 0 < node.self := by
  constructor
  · rintro ⟨leaf, _, heldLeaf, positive, _, _⟩
    rw [held] at heldLeaf
    cases heldLeaf
    exact positive
  · exact fun positive => ⟨node, here, held, positive, at_i, List.prefix_rfl⟩

/-- The other leaves below a node are those below its children. -/
theorem isLeaf_children (indexed : Indexed forest paths) (held : forest.nodes[i]? = some node)
    (at_i : paths[i]? = some here) (j : ℕ) :
    (∃ c ∈ node.children, ∃ there, paths[c]? = some there ∧ IsLeaf forest paths there j) ↔
      IsLeaf forest paths here j ∧ j ≠ i := by
  constructor
  · rintro ⟨c, member, there, at_c, leaf, path, heldJ, positive, spelled, within⟩
    obtain ⟨symbol, at_c'⟩ := path_of_child indexed held at_i member
    rw [at_c] at at_c'
    cases at_c'
    refine ⟨⟨leaf, path, heldJ, positive, spelled, (List.prefix_append _ _).trans within⟩, ?_⟩
    rintro rfl
    rw [at_i] at spelled
    cases spelled
    exact not_concat_prefix here symbol within
  · rintro ⟨⟨leaf, path, heldJ, positive, spelled, inner, rfl⟩, different⟩
    cases inner with
    | nil =>
      rw [List.append_nil] at spelled
      exact absurd (indexed.injective spelled at_i) different
    | cons symbol inner =>
      -- The first step down to the leaf leads to a child.
      have within : here ++ [symbol] <+: here ++ symbol :: inner := ⟨inner, by simp⟩
      obtain ⟨c, at_c⟩ := List.mem_iff_getElem?.mp (indexed.prefix_mem (List.mem_of_getElem? spelled) within (by simp))
      obtain ⟨child, heldC⟩ := indexed.node_of_path at_c
      have owned : TreeNode.parent child = some i := by
        refine indexed.owner_injective (indexed.parent_lt heldC) ?_ ?_
        · rintro k ⟨⟩
          exact (List.getElem?_eq_some_iff.mp held).1
        · rw [(indexed.split heldC at_c).2, pathOf_some at_i]
      have isChild : c ∈ node.children := ((children_iff indexed held).2 c).mpr ⟨child, heldC, owned⟩
      exact ⟨c, isChild, _, at_c, leaf, _, heldJ, positive, spelled, within⟩

end Children

theorem nodeListLeaves_ok (indexed : Indexed forest paths) {fuel i : ℕ}
    (enough : forest.nodes.length ≤ i + fuel) {here : List σ} (at_i : paths[i]? = some here) (leaves : List ℕ) :
    ∃ found, nodeListLeaves forest fuel i leaves = .ok (found ++ leaves) ∧ found.Nodup ∧
      ∀ j, j ∈ found ↔ IsLeaf forest paths here j := by
  induction fuel generalizing i here leaves with
  | zero =>
    have inside := (List.getElem?_eq_some_iff.mp at_i).1
    rw [indexed.length] at inside
    omega
  | succ fuel inductionHypothesis =>
    obtain ⟨node, held⟩ := indexed.node_of_path at_i
    have later : ∀ c ∈ node.children, forest.nodes.length ≤ c + fuel := by
      intro c member
      obtain ⟨child, heldC, isParent⟩ := ((children_iff indexed held).2 c).mp member
      have older := indexed.older c child i heldC isParent
      omega
    obtain ⟨found, ran, distinctFound, membersFound⟩ := leaves_children indexed (children_iff indexed held).1
      (fun c member => path_of_child indexed held at_i member)
      (fun c member there at_c leaves => inductionHypothesis (later c member) at_c leaves)
      (if 0 < node.self then i :: leaves else leaves)
    have fresh : i ∉ found := fun member =>
      ((isLeaf_children indexed held at_i i).mp ((membersFound i).mp member)).2 rfl
    simp only [nodeListLeaves, fetch, held, ok_bind, ran]
    by_cases positive : 0 < node.self
    · refine ⟨found ++ [i], by rw [if_pos positive, List.append_assoc, List.singleton_append], ?_, fun j => ?_⟩
      · rw [← List.concat_eq_append]
        exact distinctFound.concat fresh
      · rw [List.mem_append, membersFound, isLeaf_children indexed held at_i, List.mem_singleton]
        by_cases same : j = i
        · subst same
          simp [isLeaf_self held at_i, positive]
        · simp [same]
    · refine ⟨found, by rw [if_neg positive], distinctFound, fun j => ?_⟩
      rw [membersFound, isLeaf_children indexed held at_i]
      refine and_iff_left_of_imp fun leaf same => positive ?_
      rw [same] at leaf
      exact (isLeaf_self held at_i).mp leaf

/-- Up to `stop` the trace is what comes after its path. -/
theorem leafTrace_ok (indexed : Indexed forest paths) {stop : Option ℕ} {outer whole : List σ}
    (insideStop : ∀ i ∈ stop, i < forest.nodes.length) (at_stop : pathOf paths stop = outer) {fuel : ℕ}
    {start : Option ℕ} (enough : ∀ i ∈ start, i < fuel) (inside : ∀ i ∈ start, i < forest.nodes.length)
    (within : pathOf paths start <+: whole) (below : outer <+: pathOf paths start) {trace : List (ProfileNode σ)}
    (walked : trace.map ProfileNode.symbol = whole.drop (pathOf paths start).length) :
    ∃ later, leafTrace forest stop fuel start trace = .ok later ∧
      later.map ProfileNode.symbol = whole.drop outer.length := by
  induction fuel generalizing start trace with
  | zero =>
    cases start with
    | some i => exact absurd (enough i rfl) (Nat.not_lt_zero i)
    | none =>
      have empty : outer = [] := List.prefix_nil.mp below
      exact ⟨trace, rfl, by rw [walked, empty]; rfl⟩
  | succ fuel inductionHypothesis =>
    cases start with
    | none =>
      have empty : outer = [] := List.prefix_nil.mp below
      exact ⟨trace, rfl, by rw [walked, empty]; rfl⟩
    | some i =>
      rw [leafTrace]
      by_cases ended : some i = stop
      · rw [if_pos ended]
        exact ⟨trace, rfl, by rw [walked, ended, at_stop]⟩
      · obtain ⟨node, held⟩ : ∃ node, forest.nodes[i]? = some node := ⟨_, List.getElem?_eq_getElem (inside i rfl)⟩
        have spelled : pathOf paths (some i) = pathOf paths node.parent ++ [node.symbol] :=
          pathOf_some (indexed.path i node held)
        rw [if_neg ended]
        simp only [fetch, held, ok_bind]
        have enoughParent : ∀ p ∈ node.parent, p < fuel := by
          intro p isParent
          have before := indexed.older i node p held isParent
          have := enough i rfl
          omega
        have withinParent : pathOf paths node.parent <+: whole := by
          rw [spelled] at within
          exact (List.prefix_append _ _).trans within
        have belowParent : outer <+: pathOf paths node.parent := by
          have same := below
          rw [spelled] at same
          cases List.prefix_concat_iff.mp same with
          | inr inner => exact inner
          | inl equal =>
            rw [← spelled, ← at_stop] at equal
            exact absurd (indexed.owner_injective inside insideStop equal.symm) ended
        refine inductionHypothesis enoughParent (indexed.parent_lt held) withinParent belowParent ?_
        obtain ⟨inner, rfl⟩ := within
        rw [spelled] at walked ⊢
        have onward : (pathOf paths node.parent ++ [node.symbol] ++ inner).drop (pathOf paths node.parent).length =
            node.symbol :: inner := by
          rw [List.append_assoc, List.drop_left, List.singleton_append]
        rw [List.map_cons, walked, List.drop_left, onward]

end Leaves

/-! ## All of them -/

section Traces

variable [DecidableEq σ] {forest : Forest (ProfileNode σ)} {paths : List (List σ)}

instance (upper : List σ) (i : ℕ) : Decidable (IsLeaf forest paths upper i) :=
  decidable_of_iff (∃ node ∈ forest.nodes[i]?, 0 < node.self ∧ ∃ here ∈ paths[i]?, upper <+: here) (by
    constructor
    · rintro ⟨node, held, positive, here, spelled, below⟩
      exact ⟨node, here, held, positive, spelled, below⟩
    · rintro ⟨node, here, held, positive, spelled, below⟩
      exact ⟨node, held, positive, here, spelled, below⟩)

/-- A toplevel node of a symbol. -/
def IsTop (forest : Forest (ProfileNode σ)) (symbol : σ) (t : ℕ) : Prop :=
  ∃ node ∈ forest.nodes[t]?, node.symbol = symbol ∧ node.toplevel = true

instance (symbol : σ) (t : ℕ) : Decidable (IsTop forest symbol t) := by
  unfold IsTop
  infer_instance

/-- What is added for the leaf `i` below `t`: the path from the one to the other. -/
def leafSample (forest : Forest (ProfileNode σ)) (paths : List (List σ)) (t i : ℕ) : Sample σ :=
  ((paths.getD i []).drop ((paths.getD t []).length - 1), (forest.nodes[i]?).elim 0 ProfileNode.self)

/-- The paths from one node to each node with something of its own at or beneath it. -/
def topTraces (forest : Forest (ProfileNode σ)) (paths : List (List σ)) (t : ℕ) : List (Sample σ) :=
  ((List.range forest.nodes.length).filter (IsLeaf forest paths (paths.getD t []))).map (leafSample forest paths t)

/-- Those from each toplevel node of a symbol. -/
def traces (forest : Forest (ProfileNode σ)) (paths : List (List σ)) (symbol : σ) : List (Sample σ) :=
  ((List.range forest.nodes.length).filter (IsTop forest symbol)).flatMap (topTraces forest paths)

/-- A leaf below a toplevel node is one trace more. -/
theorem addLeafToTree_ok (indexed : Indexed forest paths) {t i : ℕ} {top : ProfileNode σ}
    (held : forest.nodes[t]? = some top) (leaf : IsLeaf forest paths (paths.getD t []) i)
    {tree : ProfileDescendantTree σ} {known : List (List σ)} {done : List (Sample σ)} (rest : Rest tree known done) :
    ∃ later known', addLeafToTree forest top tree i = .ok later ∧
      Rest later known' (done ++ [leafSample forest paths t i]) := by
  obtain ⟨node, here, heldLeaf, _, spelled, below⟩ := leaf
  have at_t : paths.getD t [] = pathOf paths top.parent ++ [top.symbol] := pathOf_some (indexed.path t top held)
  have at_i : pathOf paths (some i) = here := pathOf_some spelled
  have insideLeaf : i < forest.nodes.length := (List.getElem?_eq_some_iff.mp heldLeaf).1
  rw [at_t] at below
  obtain ⟨trace, ran, symbols⟩ := @leafTrace_ok _ forest paths indexed top.parent _ here (indexed.parent_lt held) rfl
    forest.nodes.length (some i) (by rintro _ ⟨⟩; exact insideLeaf) (by rintro _ ⟨⟩; exact insideLeaf)
    (by rw [at_i]) (by rw [at_i]; exact (List.prefix_append _ _).trans below) [] (by rw [at_i]; simp)
  have nonempty : here.drop (pathOf paths top.parent).length ≠ [] := by
    obtain ⟨inner, rfl⟩ := below
    rw [List.append_assoc, List.drop_left]
    simp
  obtain ⟨later, known', ranLater, restLater⟩ := addTraceToTree_ok rest symbols nonempty node.self
  refine ⟨later, known', ?_, ?_⟩
  · simp only [addLeafToTree, ran, ok_bind, fetch, heldLeaf, ranLater]
  · have spelledSample : leafSample forest paths t i = (here.drop (pathOf paths top.parent).length, node.self) := by
      have at_leaf : paths.getD i [] = here := at_i
      rw [leafSample, at_leaf, at_t, heldLeaf, List.length_append, List.length_singleton, Nat.add_sub_cancel]
      rfl
    rw [spelledSample]
    exact restLater

theorem addLeavesToTree_ok (indexed : Indexed forest paths) {t : ℕ} {top : ProfileNode σ}
    (held : forest.nodes[t]? = some top) {leaves : List ℕ} (below : ∀ i ∈ leaves, IsLeaf forest paths (paths.getD t []) i)
    {tree : ProfileDescendantTree σ} {known : List (List σ)} {done : List (Sample σ)} (rest : Rest tree known done) :
    ∃ later known', leaves.foldlM (addLeafToTree forest top) tree = .ok later ∧
      Rest later known' (done ++ leaves.map (leafSample forest paths t)) := by
  induction leaves generalizing tree known done with
  | nil => exact ⟨tree, known, rfl, by simpa using rest⟩
  | cons i leaves inductionHypothesis =>
    obtain ⟨next, knownNext, ran, restNext⟩ := addLeafToTree_ok indexed held (below i (by simp)) rest
    obtain ⟨later, known', ranLater, restLater⟩ :=
      inductionHypothesis (fun j member => below j (by simp [member])) restNext
    refine ⟨later, known', by rw [List.foldlM_cons, ran, ok_bind, ranLater], ?_⟩
    rw [List.append_assoc, List.singleton_append] at restLater
    exact restLater

theorem addTopToTree_ok (indexed : Indexed forest paths) {t : ℕ} {top : ProfileNode σ}
    (held : forest.nodes[t]? = some top) {tree : ProfileDescendantTree σ} {known : List (List σ)}
    {done : List (Sample σ)} (rest : Rest tree known done) :
    ∃ later known' added, addTopToTree forest tree t = .ok later ∧ Rest later known' (done ++ added) ∧
      added.Perm (if top.toplevel then topTraces forest paths t else []) := by
  cases outermost : top.toplevel with
  | false =>
    refine ⟨tree, known, [], ?_, by simpa using rest, .refl _⟩
    simp [addTopToTree, fetch, held, ok_bind, outermost]
  | true =>
    have at_t := indexed.path t top held
    obtain ⟨leaves, ran, distinct, members⟩ := nodeListLeaves_ok indexed (Nat.le_add_left _ _) at_t []
    have spelled : paths.getD t [] = pathOf paths (TreeNode.parent top) ++ [TreeNode.symbol top] := pathOf_some at_t
    rw [← spelled] at members
    obtain ⟨later, known', ranLater, restLater⟩ :=
      addLeavesToTree_ok indexed held (fun i member => (members i).mp member) rest
    refine ⟨later, known', _, ?_, restLater, ?_⟩
    · rw [List.append_nil] at ran
      simp only [addTopToTree, fetch, held, ok_bind, outermost, if_true, ran, ranLater]
    · -- The order in which the leaves are met does not matter.
      rw [if_pos rfl]
      refine List.Perm.map _ ?_
      rw [List.perm_ext_iff_of_nodup distinct (List.nodup_range.filter _)]
      intro i
      rw [members, List.mem_filter, List.mem_range, decide_eq_true_iff]
      refine (and_iff_right_of_imp fun leaf => ?_).symm
      obtain ⟨node, _, heldLeaf, _⟩ := leaf
      exact (List.getElem?_eq_some_iff.mp heldLeaf).1

/-- The nodes of the chain, one after the other. -/
theorem addTopsToTree_ok (indexed : Indexed forest paths) {symbol : σ} {list : List ℕ}
    (labelled : ∀ t ∈ list, ∃ top, forest.nodes[t]? = some top ∧ top.symbol = symbol)
    {tree : ProfileDescendantTree σ} {known : List (List σ)} {done : List (Sample σ)} (rest : Rest tree known done) :
    ∃ later known' added, list.foldlM (addTopToTree forest) tree = .ok later ∧ Rest later known' (done ++ added) ∧
      added.Perm ((list.filter (IsTop forest symbol)).flatMap (topTraces forest paths)) := by
  induction list generalizing tree known done with
  | nil => exact ⟨tree, known, [], rfl, by simpa using rest, .refl _⟩
  | cons t list inductionHypothesis =>
    obtain ⟨top, held, isSymbol⟩ := labelled t (by simp)
    obtain ⟨next, knownNext, added, ran, restNext, perm⟩ := addTopToTree_ok indexed held rest
    obtain ⟨later, known', others, ranLater, restLater, permOthers⟩ :=
      inductionHypothesis (fun u member => labelled u (by simp [member])) restNext
    refine ⟨later, known', added ++ others, by rw [List.foldlM_cons, ran, ok_bind, ranLater], ?_, ?_⟩
    · rw [← List.append_assoc]
      exact restLater
    · have isTop : IsTop forest symbol t ↔ top.toplevel = true := by simp [IsTop, held, isSymbol]
      by_cases outermost : top.toplevel = true
      · rw [if_pos outermost] at perm
        rw [List.filter_cons_of_pos (by simpa using isTop.mpr outermost), List.flatMap_cons]
        exact perm.append permOthers
      · rw [if_neg outermost, List.perm_nil] at perm
        rw [List.filter_cons_of_neg (by simpa using fun top => outermost (isTop.mp top)), perm]
        exact permOthers

/-! ## The tree -/

/-- The trie of the erased traces. -/
structure ErasedTrie (tree : ProfileDescendantTree σ) (traces : List (Sample σ)) : Prop where
  exists_iff : ∀ path, (∃ i, At tree none path i) ↔ path ≠ [] ∧ ∃ trace ∈ traces, Visits trace.1 path
  unique : ∀ path i j, At tree none path i → At tree none path j → i = j
  counts : ∀ path i, At tree none path i → ∃ node, tree.nodes[i]? = some node ∧
    node.self = weight traces (fun trace => loopErasure trace = path) ∧
    node.nonRecursion = weight traces (fun trace => path <+: loopErasure trace) ∧
    node.total = weight traces (fun trace => Visits trace path)
  distinct : ∀ path i, At tree none path i → path.Nodup
  siblings : ∀ owner children, tree.array owner = some children →
    (children.map fun i => (tree.nodes[i]?).map ProfileDescendantTreeNode.symbol).Nodup

theorem Rest.perm {tree : ProfileDescendantTree σ} {known : List (List σ)} {done done' : List (Sample σ)}
    (rest : Rest tree known done) (perm : done.Perm done') : Rest tree known done' where
  trie := by
    refine ⟨rest.trie.indexed, fun i node here held found => ?_⟩
    obtain ⟨self, nonRecursion, total, markedNonRecursive, markedTotal⟩ := rest.trie.counted i node here held found
    exact ⟨by rw [self, weight_perm _ perm], by rw [nonRecursion, weight_perm _ perm], by rw [total, weight_perm _ perm],
      markedNonRecursive, markedTotal⟩
  covers here := by
    rw [rest.covers]
    simp only [perm.mem_iff]

theorem Rest.erasedTrie {tree : ProfileDescendantTree σ} {known : List (List σ)} {done : List (Sample σ)}
    (rest : Rest tree known done) : ErasedTrie tree done where
  exists_iff path := by
    have located : (∃ i, At tree none path i) ↔ path ∈ known := by
      rw [List.mem_iff_getElem?]
      exact exists_congr fun i => rest.trie.indexed.at_iff
    rw [located, rest.covers]
    refine and_congr_right fun nonempty => or_iff_left fun visits => nonempty (visits_nil.mp visits)
  unique path i j left right := by
    rw [rest.trie.indexed.at_iff] at left right
    exact rest.trie.indexed.injective left right
  counts path i located := by
    rw [rest.trie.indexed.at_iff] at located
    obtain ⟨node, held⟩ := rest.trie.indexed.node_of_path located
    obtain ⟨self, nonRecursion, total, _, _⟩ := rest.trie.counted i node path held located
    simp only [ite_self, add_zero] at nonRecursion total
    exact ⟨node, held, self, nonRecursion, total⟩
  distinct path i located := by
    rw [rest.trie.indexed.at_iff] at located
    exact rest.covers.nodup (List.mem_of_getElem? located)
  siblings owner children listed := by
    obtain ⟨distinct, members⟩ := rest.trie.indexed.array owner children listed
    refine distinct.map_on ?_
    intro i memberI j memberJ same
    obtain ⟨left, heldLeft, parentLeft⟩ := (members i).mp memberI
    obtain ⟨right, heldRight, parentRight⟩ := (members j).mp memberJ
    rw [heldLeft, heldRight, Option.map_some, Option.map_some, Option.some.injEq] at same
    -- Two children of one node with one symbol have one path.
    have pathLeft := rest.trie.indexed.path i left heldLeft
    have pathRight := rest.trie.indexed.path j right heldRight
    rw [parentLeft] at pathLeft
    rw [parentRight] at pathRight
    have symbols : TreeNode.symbol left = TreeNode.symbol right := same
    rw [symbols] at pathLeft
    exact rest.trie.indexed.injective pathLeft pathRight

theorem rest_empty : Rest ({} : ProfileDescendantTree σ) [] [] where
  trie := ⟨indexed_empty, fun _ _ _ held => by cases held⟩
  covers here := by
    simp only [List.not_mem_nil, false_iff]
    rintro ⟨nonempty, ⟨_, member, _⟩ | visits⟩
    · cases member
    · exact nonempty (visits_nil.mp visits)

theorem descendantTree_ok {profile : Profile σ} {paths : List (List σ)} {samples : List (Sample σ)}
    (profiled : Profiled profile paths samples) {entry : Sigma fun _ : σ => ℕ}
    (listed : entry ∈ profile.nodesBySymbol.entries) :
    ∃ tree known, profileFuncCreateDescendantTree profile (flatFunc samples entry) = .ok tree ∧
      Rest tree known (traces profile.forest paths entry.1) := by
  obtain ⟨symbol, i⟩ := entry
  obtain ⟨list, chain, listing⟩ := profiled.tree.chains symbol
  rw [HashTable.mem_entries_iff.mp listed] at chain
  have walked : walk profile.forest.nodes ProfileNode.next profile.forest.nodes.length (some i) = some list :=
    walk_eq chain chain.length_le
  obtain ⟨tree, known, added, ran, rest, perm⟩ :=
    addTopsToTree_ok profiled.tree.indexed (fun t member => (listing t).mp member) rest_empty
  refine ⟨tree, known, ?_, rest.perm (perm.trans ?_)⟩
  · simp only [profileFuncCreateDescendantTree, flatFunc, walked, ran]
  · refine List.Perm.flatMap_right _ ?_
    rw [List.perm_ext_iff_of_nodup (chain.nodup.filter _) (List.nodup_range.filter _)]
    intro t
    rw [List.mem_filter, List.mem_filter, listing, List.mem_range, decide_eq_true_iff]
    constructor
    · rintro ⟨⟨node, held, _⟩, top⟩
      exact ⟨(List.getElem?_eq_some_iff.mp held).1, top⟩
    · rintro ⟨_, top⟩
      have isTop := top
      obtain ⟨node, held, isSymbol, _⟩ := isTop
      exact ⟨⟨node, held, isSymbol⟩, top⟩

/-- The descendant tree of a function of any profile. -/
theorem profileFuncCreateDescendantTree_correct {τ : Type} {locate : τ → Addr → Option σ × τ} {name : σ → String}
    {skipFuncs : List String} {world later : World} {p : ProcId} {maps maps' : τ} {profile : Profile σ}
    (returned : profileCreate locate name maps world p skipFuncs = .ok (later, maps', profile)) {func : ProfileFunc}
    (member : func ∈ profile.functions) :
    ∃ symbol paths tree, funcSymbol profile func = some symbol ∧ Indexed profile.forest paths ∧
      profileFuncCreateDescendantTree profile func = .ok tree ∧
      ErasedTrie tree (traces profile.forest paths symbol) := by
  obtain ⟨samples, paths, profiled⟩ := profiled_of_create returned
  rw [profiled.functions] at member
  obtain ⟨entry, listed, rfl⟩ := List.mem_map.mp member
  obtain ⟨tree, _, ran, rest⟩ := descendantTree_ok profiled listed
  exact ⟨entry.1, paths, tree, profiled.funcSymbol_eq listed, profiled.tree.indexed, ran, rest.erasedTrie⟩

/-- `f` that calls itself. -/
theorem profileFuncCreateDescendantTree_correct_recursing : ∃ later maps' profile func symbol paths tree,
    profileCreate locateStart nameStart () recursing 0 [] = .ok (later, maps', profile) ∧ func ∈ profile.functions ∧
      funcSymbol profile func = some symbol ∧ Indexed profile.forest paths ∧
      profileFuncCreateDescendantTree profile func = .ok tree ∧
      ErasedTrie tree (traces profile.forest paths symbol) := by
  obtain ⟨later, maps', profile, func, returned, member, _⟩ := exists_recursing
  obtain ⟨symbol, paths, tree, named, indexed, ran, trie⟩ := profileFuncCreateDescendantTree_correct returned member
  exact ⟨later, maps', profile, func, symbol, paths, tree, returned, member, named, indexed, ran, trie⟩

end Traces

end Memprof.Descendants
