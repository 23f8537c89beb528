import Memprof.Verified.DescendantTree

/-! # The root of a descendant tree

Whoever shows the descendants of a function takes the first root of its tree.  All traces
begin with the function, so there is one root and what it counts is the function's total;
but where nothing below the function has anything of its own, there is no trace.
-/

namespace Memprof.Descendants

open Library Library.Forest CallTree FlatProfile

variable {σ : Type} [DecidableEq σ]

/-! ## What the traces weigh -/

section Weights

variable {profile : Profile σ} {paths : List (List σ)} {samples : List (Sample σ)}

/-- A toplevel node is the first one of its symbol on its path. -/
theorem isTop_iff (tree : Tree profile paths samples samples) {symbol : σ} {t : ℕ} :
    IsTop profile.forest symbol t ↔ ∃ outer, paths[t]? = some (outer ++ [symbol]) ∧ symbol ∉ outer := by
  constructor
  · rintro ⟨node, held, rfl, outermost⟩
    have here := tree.indexed.path t node held
    have first := (tree.counts t node _ held here).toplevel.mp outermost
    rw [List.dropLast_concat] at first
    exact ⟨_, here, first⟩
  · rintro ⟨outer, here, first⟩
    obtain ⟨node, held⟩ := tree.indexed.node_of_path here
    obtain ⟨_, _, toplevel⟩ := tree.counts t node _ held here
    have labelled : node.symbol = symbol := (tree.indexed.split held here).1
    rw [List.dropLast_concat, labelled] at toplevel
    exact ⟨node, held, labelled, toplevel.mpr first⟩

theorem path_of_inside (tree : Tree profile paths samples samples) {i : ℕ} (inside : i < profile.forest.nodes.length) :
    paths[i]? = some (paths.getD i []) := by
  rw [← tree.indexed.length] at inside
  rw [List.getD_eq_getElem?_getD, List.getElem?_eq_getElem inside, Option.getD_some]

/-- A node has the stacks that end at it for its own. -/
theorem self_eq (tree : Tree profile paths samples samples) {i : ℕ} {node : ProfileNode σ}
    (held : profile.forest.nodes[i]? = some node) : node.self = weight samples (paths.getD i [] = ·) :=
  (tree.counts i node _ held (path_of_inside tree (List.getElem?_eq_some_iff.mp held).1)).self

theorem isLeaf_iff (tree : Tree profile paths samples samples) {upper : List σ} {i : ℕ}
    (inside : i < profile.forest.nodes.length) :
    IsLeaf profile.forest paths upper i ↔ upper <+: paths.getD i [] ∧ weight samples (paths.getD i [] = ·) ≠ 0 := by
  have here := path_of_inside tree inside
  constructor
  · rintro ⟨node, _, held, positive, spelled, below⟩
    rw [here] at spelled
    cases spelled
    rw [← self_eq tree held]
    exact ⟨below, UInt32.pos_iff_ne_zero.mp positive⟩
  · rintro ⟨below, positive⟩
    obtain ⟨node, held⟩ := tree.indexed.node_of_path here
    rw [← self_eq tree held] at positive
    exact ⟨node, _, held, UInt32.pos_iff_ne_zero.mpr positive, here, below⟩

theorem inside_of_path (tree : Tree profile paths samples samples) {i : ℕ} {path : List σ}
    (here : paths[i]? = some path) : i < profile.forest.nodes.length := by
  rw [← tree.indexed.length]
  exact (List.getElem?_eq_some_iff.mp here).1

/-- The nodes that `traces` goes through. -/
theorem mem_tops_iff (tree : Tree profile paths samples samples) {symbol : σ} {t : ℕ} :
    t ∈ (List.range profile.forest.nodes.length).filter (IsTop profile.forest symbol) ↔
      ∃ outer, paths[t]? = some (outer ++ [symbol]) ∧ symbol ∉ outer := by
  rw [List.mem_filter, decide_eq_true_eq, isTop_iff tree, List.mem_range, and_iff_right_iff_imp]
  rintro ⟨_, here, _⟩
  exact inside_of_path tree here

/-- The leaves that `topTraces` goes through; a node with nothing of its own is none. -/
theorem mem_leaves_iff (tree : Tree profile paths samples samples) {upper : List σ} {i : ℕ} :
    i ∈ (List.range profile.forest.nodes.length).filter (IsLeaf profile.forest paths upper) ↔
      i < profile.forest.nodes.length ∧ upper <+: paths.getD i [] ∧ weight samples (paths.getD i [] = ·) ≠ 0 := by
  rw [List.mem_filter, decide_eq_true_eq, List.mem_range]
  exact and_congr_right fun inside => isLeaf_iff tree inside

/-- The stacks through a path end at one node below it each. -/
theorem sum_below (tree : Tree profile paths samples samples) (covers : Covers paths samples) {upper : List σ}
    (nonempty : upper ≠ []) :
    ∑ i ∈ (Finset.range profile.forest.nodes.length).filter (upper <+: paths.getD · []),
      weight samples (paths.getD i [] = ·) = weight samples (upper <+: ·) := by
  apply sum_weight
  · intro sample member below
    have known : sample.1 ∈ paths := (covers _).mpr
      ⟨fun empty => nonempty (List.prefix_nil.mp (empty ▸ below)), sample, member, List.prefix_rfl⟩
    obtain ⟨i, here⟩ := List.mem_iff_getElem?.mp known
    have spelled : paths.getD i [] = sample.1 := pathOf_some here
    refine ⟨i, Finset.mem_filter.mpr ⟨Finset.mem_range.mpr (inside_of_path tree here), by rwa [spelled]⟩, spelled, ?_⟩
    intro j memberJ same
    have there := path_of_inside tree (Finset.mem_range.mp (Finset.mem_filter.mp memberJ).1)
    rw [same] at there
    exact tree.indexed.injective there here
  · intro sample _ i member same
    rw [← same]
    exact (Finset.mem_filter.mp member).2

/-- From one node on the traces weigh what the stacks through it do. -/
theorem weight_topTraces (tree : Tree profile paths samples samples) (covers : Covers paths samples) {t : ℕ}
    (nonempty : paths.getD t [] ≠ []) :
    weight (topTraces profile.forest paths t) (fun _ => True) = weight samples (paths.getD t [] <+: ·) := by
  have selfs : weight (topTraces profile.forest paths t) (fun _ => True) =
      (((List.range profile.forest.nodes.length).filter (IsLeaf profile.forest paths (paths.getD t []))).map
        fun i => weight samples (paths.getD i [] = ·)).sum := by
    rw [weight_true, topTraces, List.map_map]
    congr 1
    apply List.map_congr_left
    intro i member
    have held := List.getElem?_eq_getElem ((mem_leaves_iff tree).mp member).1
    rw [← self_eq tree held, Function.comp_apply, leafSample, held, Option.elim_some]
  rw [selfs, ← List.sum_toFinset _ (List.nodup_range.filter _), ← sum_below tree covers nonempty]
  apply Finset.sum_subset
  · intro i member
    obtain ⟨inside, below, _⟩ := (mem_leaves_iff tree).mp (List.mem_toFinset.mp member)
    exact Finset.mem_filter.mpr ⟨Finset.mem_range.mpr inside, below⟩
  · intro i member notLeaf
    obtain ⟨inside, below⟩ := Finset.mem_filter.mp member
    by_contra positive
    exact notLeaf (List.mem_toFinset.mpr ((mem_leaves_iff tree).mpr ⟨Finset.mem_range.mp inside, below, positive⟩))

/-- All traces of a function weigh its total. -/
theorem weight_traces (tree : Tree profile paths samples samples) (covers : Covers paths samples) (symbol : σ) :
    weight (traces profile.forest paths symbol) (fun _ => True) = weight samples (symbol ∈ ·) := by
  obtain ⟨list, chain, listing⟩ := Tree.exists_nodes tree symbol
  rw [← sum_totals tree covers chain.nodup listing, traces, weight_flatMap,
    ← List.sum_toFinset _ (List.nodup_range.filter _), ← List.sum_toFinset _ chain.nodup]
  have tops : ((List.range profile.forest.nodes.length).filter (IsTop profile.forest symbol)).toFinset ⊆ list.toFinset := by
    intro t member
    obtain ⟨outer, here, _⟩ := (mem_tops_iff tree).mp (List.mem_toFinset.mp member)
    exact List.mem_toFinset.mpr ((listing t).mpr ⟨outer, here⟩)
  rw [← Finset.sum_subset tops]
  · apply Finset.sum_congr rfl
    intro t member
    obtain ⟨outer, here, first⟩ := (mem_tops_iff tree).mp (List.mem_toFinset.mp member)
    have spelled : paths.getD t [] = outer ++ [symbol] := pathOf_some here
    rw [weight_topTraces tree covers (by rw [spelled]; exact List.concat_ne_nil _ _)]
    apply weight_congr
    intro _ _
    rw [spelled, List.dropLast_concat]
    exact (and_iff_right first).symm
  · intro t member notTop
    obtain ⟨outer, here⟩ := (listing t).mp (List.mem_toFinset.mp member)
    have spelled : paths.getD t [] = outer ++ [symbol] := pathOf_some here
    apply weight_eq_zero
    rintro _ _ ⟨first, _⟩
    rw [spelled, List.dropLast_concat] at first
    exact notTop (List.mem_toFinset.mpr ((mem_tops_iff tree).mpr ⟨outer, here, first⟩))

end Weights

/-! ## Where there is a trace -/

section Traces

variable {profile : Profile σ} {paths : List (List σ)} {samples : List (Sample σ)}

theorem traces_start (tree : Tree profile paths samples samples) {symbol : σ} {trace : Sample σ}
    (member : trace ∈ traces profile.forest paths symbol) : ∃ rest, trace.1 = symbol :: rest := by
  obtain ⟨t, isTop, below⟩ := List.mem_flatMap.mp member
  obtain ⟨i, leaf, rfl⟩ := List.mem_map.mp below
  obtain ⟨outer, here, _⟩ := (mem_tops_iff tree).mp isTop
  obtain ⟨_, path, _, _, spelled, within⟩ := of_decide_eq_true (List.mem_filter.mp leaf).2
  have at_t : paths.getD t [] = outer ++ [symbol] := pathOf_some here
  have at_i : paths.getD i [] = path := pathOf_some spelled
  rw [at_t] at within
  obtain ⟨rest, rfl⟩ := within
  refine ⟨rest, ?_⟩
  rw [leafSample, at_t, at_i, List.length_append, List.length_singleton, Nat.add_sub_cancel, List.append_assoc,
    List.drop_left, List.singleton_append]

/-- Something of its own, at or below a node of the symbol. -/
def HasLeaf (profile : Profile σ) (symbol : σ) : Prop :=
  ∃ path i node, At profile.forest none path i ∧ symbol ∈ path ∧ profile.forest.nodes[i]? = some node ∧ 0 < node.self

theorem traces_ne_nil (tree : Tree profile paths samples samples) {symbol : σ} :
    traces profile.forest paths symbol ≠ [] ↔ HasLeaf profile symbol := by
  constructor
  · intro nonempty
    obtain ⟨trace, member⟩ := List.exists_mem_of_ne_nil _ nonempty
    obtain ⟨t, isTop, below⟩ := List.mem_flatMap.mp member
    obtain ⟨i, leaf, rfl⟩ := List.mem_map.mp below
    obtain ⟨outer, here, _⟩ := (mem_tops_iff tree).mp isTop
    obtain ⟨node, path, held, positive, spelled, within⟩ := of_decide_eq_true (List.mem_filter.mp leaf).2
    have at_t : paths.getD t [] = outer ++ [symbol] := pathOf_some here
    rw [at_t] at within
    exact ⟨path, i, node, tree.indexed.at_iff.mpr spelled, within.subset (by simp), held, positive⟩
  · rintro ⟨path, i, node, located, occurs, held, positive⟩
    have spelled := tree.indexed.at_iff.mp located
    -- The first occurrence of the symbol on the path is at a toplevel node.
    obtain ⟨outer, inner, rfl, first⟩ := List.eq_append_cons_of_mem occurs
    have within : outer ++ [symbol] <+: outer ++ symbol :: inner := ⟨inner, by simp⟩
    obtain ⟨t, here⟩ := List.mem_iff_getElem?.mp
      (tree.indexed.prefix_mem (List.mem_of_getElem? spelled) within (List.concat_ne_nil _ _))
    have at_t : paths.getD t [] = outer ++ [symbol] := pathOf_some here
    have leaf : IsLeaf profile.forest paths (paths.getD t []) i := ⟨node, _, held, positive, spelled, by rwa [at_t]⟩
    have inside := List.mem_range.mpr (inside_of_path tree spelled)
    exact List.ne_nil_of_mem (List.mem_flatMap.mpr ⟨t, (mem_tops_iff tree).mpr ⟨outer, here, first⟩,
      List.mem_map_of_mem (List.mem_filter.mpr ⟨inside, decide_eq_true leaf⟩)⟩)

end Traces

/-! ## The root -/

section Root

variable {tree : ProfileDescendantTree σ} {known : List (List σ)} {done : List (Sample σ)} {symbol : σ}

/-- Where all traces begin with one symbol, the roots have its path. -/
theorem Rest.mem_roots (rest : Rest tree known done) (starts : ∀ trace ∈ done, ∃ inner, trace.1 = symbol :: inner)
    {i : ℕ} : i ∈ tree.roots ↔ known[i]? = some [symbol] := by
  rw [rest.trie.indexed.mem_roots]
  refine ⟨fun ⟨other, here⟩ => ?_, fun here => ⟨symbol, here⟩⟩
  obtain ⟨_, ⟨trace, member, visits⟩ | visits⟩ := (rest.covers _).mp (List.mem_of_getElem? here)
  · obtain ⟨inner, begun⟩ := starts trace member
    rw [begun, visits_singleton] at visits
    rw [here, visits]
  · cases visits_nil.mp visits

theorem Rest.roots_nil (rest : Rest tree known []) : tree.roots = [] := by
  rw [List.eq_nil_iff_forall_not_mem]
  intro i member
  obtain ⟨symbol, here⟩ := rest.trie.indexed.mem_roots.mp member
  obtain ⟨_, ⟨_, none, _⟩ | visits⟩ := (rest.covers _).mp (List.mem_of_getElem? here)
  · cases none
  · cases visits_nil.mp visits

/-- The only root of a tree of `total` bytes. -/
def IsRoot (tree : ProfileDescendantTree σ) (symbol : σ) (total : UInt32) (i : ℕ) : Prop :=
  tree.roots = [i] ∧ ∃ root, tree.nodes[i]? = some root ∧ root.symbol = symbol ∧ root.total = total ∧
    root.nonRecursion = total

/-- All the traces are counted at the root. -/
theorem Rest.exists_root (rest : Rest tree known done) (starts : ∀ trace ∈ done, ∃ inner, trace.1 = symbol :: inner)
    (nonempty : done ≠ []) : ∃ i, IsRoot tree symbol (weight done fun _ => True) i := by
  obtain ⟨trace, member⟩ := List.exists_mem_of_ne_nil _ nonempty
  obtain ⟨inner, begun⟩ := starts trace member
  have found : [symbol] ∈ known :=
    (rest.covers _).mpr ⟨by simp, .inl ⟨trace, member, begun ▸ visits_singleton.mpr rfl⟩⟩
  obtain ⟨i, here⟩ := List.mem_iff_getElem?.mp found
  obtain ⟨root, held⟩ := rest.trie.indexed.node_of_path here
  obtain ⟨_, nonRecursion, total, _, _⟩ := rest.trie.counted i root _ held here
  simp only [ite_self, add_zero] at nonRecursion total
  refine ⟨i, ?_, root, held, ?_, ?_, ?_⟩
  · obtain ⟨distinct, _⟩ := rest.trie.indexed.array none tree.roots rfl
    rw [← List.perm_singleton, List.perm_ext_iff_of_nodup distinct (List.nodup_singleton i)]
    intro j
    rw [rest.mem_roots starts, List.mem_singleton]
    exact ⟨fun there => rest.trie.indexed.injective there here, fun same => same ▸ here⟩
  · rw [← List.nil_append [symbol]] at here
    exact (rest.trie.indexed.split held here).1
  · rw [total]
    refine weight_congr fun trace member => iff_of_true ?_ trivial
    obtain ⟨inner, begun⟩ := starts trace member
    rw [begun, visits_singleton]
  · rw [nonRecursion]
    refine weight_congr fun trace member => iff_of_true ?_ trivial
    obtain ⟨inner, begun⟩ := starts trace member
    rw [begun]
    exact first_below_loopErasure symbol inner

end Root

section Listed

variable {τ : Type} {locate : τ → Addr → Option σ × τ} {name : σ → String} {skipFuncs : List String}
  {world later : World} {p : ProcId} {maps maps' : τ} {profile : Profile σ}

/-- A descendant tree has its root, or none at all. -/
theorem descendantTree_root
    (returned : profileCreate locate name maps world p skipFuncs = .ok (later, maps', profile)) {func : ProfileFunc}
    (member : func ∈ profile.functions) :
    ∃ symbol tree known, funcSymbol profile func = some symbol ∧
      profileFuncCreateDescendantTree profile func = .ok tree ∧ Indexed tree known ∧
      ((∃ i, IsRoot tree symbol func.total i) ∧ HasLeaf profile symbol ∨
        tree.roots = [] ∧ ¬ HasLeaf profile symbol ∧ func.total = 0) := by
  obtain ⟨samples, paths, profiled⟩ := profiled_of_create returned
  rw [profiled.functions] at member
  obtain ⟨entry, listed, rfl⟩ := List.mem_map.mp member
  obtain ⟨tree, known, ran, rest⟩ := descendantTree_ok profiled listed
  refine ⟨entry.1, tree, known, profiled.funcSymbol_eq listed, ran, rest.trie.indexed, ?_⟩
  have total : weight (traces profile.forest paths entry.1) (fun _ => True) = (flatFunc samples entry).total :=
    weight_traces profiled.tree profiled.covers entry.1
  rw [← total]
  by_cases empty : traces profile.forest paths entry.1 = []
  · rw [empty] at rest ⊢
    exact .inr ⟨rest.roots_nil, fun leaf => (traces_ne_nil profiled.tree).mpr leaf empty, rfl⟩
  · exact .inl ⟨rest.exists_root (fun trace member => traces_start profiled.tree member) empty,
      (traces_ne_nil profiled.tree).mp empty⟩

/-- What those who take `roots->pdata[0]` rely on. -/
def HasDescendantRoot (profile : Profile σ) (func : ProfileFunc) : Prop :=
  ∃ symbol tree i, funcSymbol profile func = some symbol ∧ profileFuncCreateDescendantTree profile func = .ok tree ∧
    IsRoot tree symbol func.total i

/-- A function has its descendant root as soon as something at or below it has a self. -/
theorem hasDescendantRoot_iff
    (returned : profileCreate locate name maps world p skipFuncs = .ok (later, maps', profile)) {func : ProfileFunc}
    (member : func ∈ profile.functions) :
    HasDescendantRoot profile func ↔ ∃ symbol, funcSymbol profile func = some symbol ∧ HasLeaf profile symbol := by
  obtain ⟨symbol, tree, _, named, ran, _, cases⟩ := descendantTree_root returned member
  constructor
  · rintro ⟨_, tree', i, _, ran', isRoot, _⟩
    rw [ran] at ran'
    cases ran'
    rcases cases with ⟨_, leaf⟩ | ⟨none, _⟩
    · exact ⟨symbol, named, leaf⟩
    · rw [none] at isRoot
      cases isRoot
  · rintro ⟨_, named', leaf⟩
    rw [named] at named'
    cases named'
    rcases cases with ⟨⟨i, root⟩, _⟩ | ⟨_, noLeaf, _⟩
    · exact ⟨symbol, tree, i, named, ran, root⟩
    · exact absurd leaf noLeaf

end Listed

/-- `f` that calls itself. -/
theorem hasDescendantRoot_iff_recursing : ∃ later maps' profile func,
    profileCreate locateStart nameStart () recursing 0 [] = .ok (later, maps', profile) ∧ func ∈ profile.functions ∧
      (HasDescendantRoot profile func ↔ ∃ symbol, funcSymbol profile func = some symbol ∧ HasLeaf profile symbol) := by
  obtain ⟨later, maps', profile, func, returned, member, _⟩ := exists_recursing
  exact ⟨later, maps', profile, func, returned, member, hasDescendantRoot_iff returned member⟩

/-- `main` called `malloc (0)`. -/
def emptyHanded : World where
  blocks := ⟨[some { addr := 16, size := 0, stack := some ⟨0, 0⟩ }]⟩
  stashes := ⟨[some { nodes := [{ address := 1 }] }]⟩
  processes := [{ blockTable := some ((∅ : BlockTable).insert 16 0) }]

/-- Its profile lists `main`, and the tree of `main` is empty. -/
theorem no_root_emptyHanded : ∃ later maps' profile func tree,
    profileCreate locateStart nameStart () emptyHanded 0 [] = .ok (later, maps', profile) ∧ func ∈ profile.functions ∧
      profileFuncCreateDescendantTree profile func = .ok tree ∧ tree.roots = [] ∧ ¬ HasDescendantRoot profile func := by
  have found : emptyHanded.process 0 = .ok { blockTable := some ((∅ : BlockTable).insert 16 0) } := rfl
  have trace : Stash.Trace [{ address := 1 }] (some 0) [1] := @Stash.Trace.cons _ 0 { address := 1 } _ rfl .nil
  have recorded : List.Forall₂ (Recorded emptyHanded) [0] [([1], 0)] := .cons ⟨_, rfl, ⟨_, rfl, trace⟩, rfl⟩ .nil
  have kept : keptSamples nameStart [] id [([1], 0)] = [([1], 0)] := by decide
  obtain ⟨maps', profile, _, returned, profiled⟩ :=
    profileCreate_recorded found recorded (fixed_locateStart _) nameStart []
  rw [kept] at profiled
  have occurs : some 1 ∈ profile.functions.map (funcSymbol profile) :=
    (profiled.flat.listed 1).mpr ⟨([1], 0), by simp, by simp⟩
  obtain ⟨func, member, _⟩ := List.mem_map.mp occurs
  obtain ⟨symbol, tree, _, named, ran, _, ⟨_, path, i, node, located, _, held, positive⟩ | ⟨empty, _⟩⟩ :=
    descendantTree_root returned member
  · -- The only block weighs nothing.
    obtain ⟨node', held', _, _, self, _⟩ := profiled.denotes.counts path i located
    rw [held] at held'
    cases held'
    have nothing : node.self = 0 := by simp [self, weight]
    rw [nothing] at positive
    exact absurd positive (by decide)
  · refine ⟨_, maps', profile, func, tree, returned, member, ran, empty, ?_⟩
    rintro ⟨_, tree', i, _, ran', isRoot, _⟩
    rw [ran] at ran'
    cases ran'
    rw [empty] at isRoot
    cases isRoot

end Memprof.Descendants
