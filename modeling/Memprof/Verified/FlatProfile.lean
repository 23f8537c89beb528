import Memprof.Verified.CallTree

/-! # The flat profile

A function's node heads the chain of the nodes of its symbol.  Every stack that ends with
the symbol is the path of one of them, and every stack that contains it begins with the
path of one toplevel node among them.
-/

namespace Memprof.FlatProfile

open Library Library.Forest Serving CallTree

variable {σ : Type} [DecidableEq σ]

section Functions

variable {profile : Profile σ} {paths : List (List σ)} {totals selfs samples : List (Sample σ)}

/-- The chain of a symbol lists the paths that end with it. -/
theorem Tree.exists_nodes (tree : Tree profile paths totals selfs) (symbol : σ) :
    ∃ list, Chain profile.forest.nodes ProfileNode.next (profile.nodesBySymbol.lookup symbol) list ∧
      ∀ (i : ℕ), i ∈ list ↔ ∃ outer, paths[i]? = some (outer ++ [symbol]) := by
  obtain ⟨list, chain, listing⟩ := tree.chains symbol
  refine ⟨list, chain, fun i => (listing i).trans ⟨?_, ?_⟩⟩
  · rintro ⟨node, held, rfl⟩
    exact ⟨_, tree.indexed.path i node held⟩
  · rintro ⟨outer, here⟩
    obtain ⟨node, held⟩ := tree.indexed.node_of_path here
    exact ⟨node, held, (tree.indexed.split held here).1⟩

omit [DecidableEq σ] in
/-- A stack has one beginning that ends with the first occurrence of a symbol. -/
theorem first_unique {stack outer outer' : List σ} {symbol : σ} (below : outer ++ [symbol] <+: stack)
    (first : symbol ∉ outer) (below' : outer' ++ [symbol] <+: stack) (first' : symbol ∉ outer') : outer = outer' := by
  have notInside : ∀ {short long : List σ}, symbol ∉ long → short ++ [symbol] <+: long ++ [symbol] → short = long := by
    intro short long fresh within
    rcases List.prefix_concat_iff.mp within with same | within
    · exact List.append_cancel_right same
    · exact absurd (within.subset (by simp)) fresh
  rcases List.prefix_or_prefix_of_prefix below below' with within | within
  · exact notInside first' within
  · exact (notInside first within).symm

/-- What the node at `path` adds to the function of its symbol. -/
theorem countNodes_ok (tree : Tree profile paths samples samples) {symbol : σ} {list : List ℕ}
    (listing : ∀ i ∈ list, ∃ outer, paths[i]? = some (outer ++ [symbol])) (func : ProfileFunc) :
    list.foldlM (countNode profile.forest) func = .ok { func with
      self := func.self + (list.map fun i => weight samples (paths.getD i [] = ·)).sum
      total := func.total + (list.map fun i =>
        weight samples fun stack => symbol ∉ (paths.getD i []).dropLast ∧ paths.getD i [] <+: stack).sum } := by
  induction list generalizing func with
  | nil => simp [pure, Except.pure]
  | cons i list inductionHypothesis =>
    obtain ⟨outer, here⟩ := listing i (by simp)
    obtain ⟨node, held⟩ := tree.indexed.node_of_path here
    obtain ⟨total, self, toplevel⟩ := tree.counts i node _ held here
    have labelled : node.symbol = symbol := (tree.indexed.split held here).1
    have spelled : paths.getD i [] = outer ++ [symbol] := pathOf_some here
    rw [List.dropLast_concat, labelled] at toplevel
    rw [List.foldlM_cons]
    simp only [countNode, fetch, held, ok_bind]
    rw [inductionHypothesis fun j member => listing j (by simp [member])]
    simp only [List.map_cons, List.sum_cons, spelled, List.dropLast_concat, self, total]
    by_cases first : symbol ∈ outer
    · have inner : node.toplevel = false := by simpa [first] using toplevel
      have nothing : weight samples (fun stack => symbol ∉ outer ∧ outer ++ [symbol] <+: stack) = 0 :=
        weight_eq_zero fun _ _ holds => holds.1 first
      simp only [inner, nothing, Bool.false_eq_true, if_false, add_assoc, zero_add]
    · have outermost : node.toplevel = true := toplevel.mpr first
      simp only [outermost, if_true, first, not_false_eq_true, true_and, add_assoc]

/-- The stacks that end with the symbol, one node for each. -/
theorem sum_selfs (tree : Tree profile paths samples samples) (covers : Covers paths samples) {symbol : σ}
    {list : List ℕ} (distinct : list.Nodup) (listing : ∀ i, i ∈ list ↔ ∃ outer, paths[i]? = some (outer ++ [symbol])) :
    (list.map fun i => weight samples (paths.getD i [] = ·)).sum =
      weight samples (fun stack => stack.getLast? = some symbol) := by
  rw [← List.sum_toFinset _ distinct]
  apply sum_weight
  · intro sample member ended
    obtain ⟨outer, spelled⟩ := List.getLast?_eq_some_iff.mp ended
    have known : sample.1 ∈ paths := (covers _).mpr ⟨by simp [spelled], sample, member, List.prefix_rfl⟩
    obtain ⟨i, here⟩ := List.mem_iff_getElem?.mp known
    refine ⟨i, List.mem_toFinset.mpr ((listing i).mpr ⟨outer, spelled ▸ here⟩), pathOf_some here, ?_⟩
    intro j memberJ same
    obtain ⟨outer', there⟩ := (listing j).mp (List.mem_toFinset.mp memberJ)
    have spelledJ : paths.getD j [] = outer' ++ [symbol] := pathOf_some there
    rw [← spelledJ, same] at there
    exact tree.indexed.injective there here
  · intro sample _ i member same
    obtain ⟨outer, here⟩ := (listing i).mp (List.mem_toFinset.mp member)
    have spelled : paths.getD i [] = outer ++ [symbol] := pathOf_some here
    rw [← same, spelled, List.getLast?_concat]

/-- The stacks that contain the symbol, each at its first occurrence. -/
theorem sum_totals (tree : Tree profile paths samples samples) (covers : Covers paths samples) {symbol : σ}
    {list : List ℕ} (distinct : list.Nodup) (listing : ∀ i, i ∈ list ↔ ∃ outer, paths[i]? = some (outer ++ [symbol])) :
    (list.map fun i =>
        weight samples fun stack => symbol ∉ (paths.getD i []).dropLast ∧ paths.getD i [] <+: stack).sum =
      weight samples (symbol ∈ ·) := by
  rw [← List.sum_toFinset _ distinct]
  apply sum_weight
  · intro sample member occurs
    obtain ⟨outer, inner, spelled, first⟩ := List.eq_append_cons_of_mem occurs
    have below : outer ++ [symbol] <+: sample.1 := ⟨inner, by rw [spelled]; simp⟩
    -- of a recursive stack only the outermost occurrence of the symbol is counted
    have known : outer ++ [symbol] ∈ paths := (covers _).mpr ⟨by simp, sample, member, below⟩
    obtain ⟨i, here⟩ := List.mem_iff_getElem?.mp known
    have spelledI : paths.getD i [] = outer ++ [symbol] := pathOf_some here
    refine ⟨i, List.mem_toFinset.mpr ((listing i).mpr ⟨outer, here⟩), ?_, ?_⟩
    · rw [spelledI, List.dropLast_concat]
      exact ⟨first, below⟩
    · rintro j memberJ ⟨first', below'⟩
      obtain ⟨outer', there⟩ := (listing j).mp (List.mem_toFinset.mp memberJ)
      have spelledJ : paths.getD j [] = outer' ++ [symbol] := pathOf_some there
      rw [spelledJ] at first' below'
      rw [List.dropLast_concat] at first'
      rw [first_unique below' first' below first] at there
      exact tree.indexed.injective there here
  · rintro sample _ i member ⟨_, below⟩
    obtain ⟨outer, here⟩ := (listing i).mp (List.mem_toFinset.mp member)
    have spelled : paths.getD i [] = outer ++ [symbol] := pathOf_some here
    rw [spelled] at below
    exact below.subset (by simp)

/-- The function of an entry of `nodes_by_symbol`. -/
def flatFunc (samples : List (Sample σ)) (entry : Sigma fun _ : σ => ℕ) : ProfileFunc :=
  { node := some entry.2
    self := weight samples fun stack => stack.getLast? = some entry.1
    total := weight samples (entry.1 ∈ ·) }

theorem addFunction_ok (tree : Tree profile paths samples samples) (covers : Covers paths samples)
    {entry : Sigma fun _ : σ => ℕ} (listed : entry ∈ profile.nodesBySymbol.entries) :
    addFunction profile.forest entry.2 = .ok (flatFunc samples entry) := by
  obtain ⟨symbol, i⟩ := entry
  obtain ⟨list, chain, listing⟩ := Tree.exists_nodes tree symbol
  rw [HashTable.mem_entries_iff.mp listed] at chain
  unfold addFunction
  rw [walk_eq chain chain.length_le]
  simp only [countNodes_ok tree (fun j member => (listing j).mp member), sum_selfs tree covers chain.nodup listing,
    sum_totals tree covers chain.nodup listing, zero_add]
  rfl

end Functions

/-! ## `profile_create` -/

/-- A profile of `samples`, with its nodes at `paths`. -/
structure Profiled (profile : Profile σ) (paths : List (List σ)) (samples : List (Sample σ)) : Prop where
  tree : Tree profile paths samples samples
  covers : Covers paths samples
  functions : profile.functions = profile.nodesBySymbol.entries.map (flatFunc samples)

theorem Profiled.perm {profile : Profile σ} {paths : List (List σ)} {samples samples' : List (Sample σ)}
    (profiled : Profiled profile paths samples) (perm : samples.Perm samples') : Profiled profile paths samples' where
  tree := by
    obtain ⟨indexed, counts, newer, chains⟩ := profiled.tree
    refine ⟨indexed, fun i node path held here => ?_, newer, chains⟩
    obtain ⟨total, self, toplevel⟩ := counts i node path held here
    exact ⟨by rw [total, weight_perm _ perm], by rw [self, weight_perm _ perm], toplevel⟩
  covers path := by
    rw [profiled.covers]
    simp only [perm.mem_iff]
  functions := by
    rw [profiled.functions]
    apply List.map_congr_left
    intro entry _
    unfold flatFunc
    rw [weight_perm _ perm, weight_perm _ perm]

variable {τ : Type} {locate : τ → Addr → Option σ × τ} {name : σ → String} {skipFuncs : List String}

theorem profileCreate_ok {world : World} {p : ProcId} {process : MPProcess} (found : world.process p = .ok process)
    {blocks : List Block} (listed : addBlocksToList world.blocks process.held = .ok blocks) {maps maps' : τ}
    {samples : List (Sample σ)}
    (adds : Threaded (Adds locate name world.stashes (skipHash skipFuncs)) maps blocks samples maps') :
    ∃ profile paths, profileCreate locate name maps world p skipFuncs =
        .ok (world.setProcess p (getBlockTable process), maps', profile) ∧ Profiled profile paths samples := by
  obtain ⟨profile, paths, ran, tree, covers⟩ := addBlocks_ok adds tree_empty covers_empty
  rw [List.nil_append] at tree covers
  have counted : profile.nodesBySymbol.entries.mapM (fun entry => addFunction profile.forest entry.2) =
      .ok (profile.nodesBySymbol.entries.map (flatFunc samples)) :=
    mapM_ok fun entry member => addFunction_ok tree covers member
  refine ⟨{ profile with
      nBytes := blocks.foldl (fun nBytes block => nBytes + block.size) profile.nBytes
      functions := profile.nodesBySymbol.entries.map (flatFunc samples) }, paths, ?_,
    ⟨tree.indexed, tree.counts, tree.newer, tree.chains⟩, covers, rfl⟩
  simp only [profileCreate, profileBuildTree, found, ok_bind, World.setProcess, listed, ran, counted]

/-- A profile that is made is one of the samples that its blocks add. -/
theorem adds_of_create {world later : World} {p : ProcId} {maps maps' : τ} {profile : Profile σ}
    (returned : profileCreate locate name maps world p skipFuncs = .ok (later, maps', profile)) :
    ∃ process blocks samples paths, world.process p = .ok process ∧
      addBlocksToList world.blocks process.held = .ok blocks ∧
      Threaded (Adds locate name world.stashes (skipHash skipFuncs)) maps blocks samples maps' ∧
      Profiled profile paths samples := by
  obtain ⟨process, found, rest⟩ := ok_of_bind returned
  obtain ⟨blocks, listed, rest⟩ := ok_of_bind rest
  obtain ⟨⟨built, middle⟩, ran, _⟩ := ok_of_bind rest
  obtain ⟨samples, adds⟩ := adds_of_addBlocks ran
  obtain ⟨profile', paths, returned', profiled⟩ := profileCreate_ok found listed adds
  rw [returned] at returned'
  cases returned'
  exact ⟨process, blocks, samples, paths, found, listed, adds, profiled⟩

theorem profiled_of_create {world later : World} {p : ProcId} {maps maps' : τ} {profile : Profile σ}
    (returned : profileCreate locate name maps world p skipFuncs = .ok (later, maps', profile)) :
    ∃ samples paths, Profiled profile paths samples := by
  obtain ⟨_, _, samples, paths, _, _, _, profiled⟩ := adds_of_create returned
  exact ⟨samples, paths, profiled⟩

/-- What a frame of the traces is. -/
def IsFrame (traces : List (List Addr × UInt32)) (address : Addr) : Prop := ∃ trace ∈ traces, address ∈ trace.1

theorem profileCreate_recorded {world : World} {p : ProcId} {process : MPProcess}
    (found : world.process p = .ok process) {traces : List (List Addr × UInt32)}
    (recorded : List.Forall₂ (Recorded world) process.held traces) {symbolOf : Addr → σ} {maps : τ}
    (fixed : Fixed locate (IsFrame traces) symbolOf maps) (name : σ → String) (skipFuncs : List String) :
    ∃ maps' profile paths, profileCreate locate name maps world p skipFuncs =
        .ok (world.setProcess p (getBlockTable process), maps', profile) ∧
      Profiled profile paths (keptSamples name skipFuncs symbolOf traces) := by
  obtain ⟨blocks, listed, traced⟩ := addBlocksToList_ok recorded
  have known : ∀ trace ∈ traces.reverse, ∀ address ∈ trace.1, IsFrame traces address :=
    fun trace member address frame => ⟨trace, List.mem_reverse.mp member, frame⟩
  obtain ⟨maps', adds, _⟩ := addsAll_of_fixed traced (lookup_skipHash skipFuncs) known fixed
  obtain ⟨profile, paths, returned, profiled⟩ := profileCreate_ok found listed adds
  refine ⟨maps', profile, paths, returned, profiled.perm ?_⟩
  unfold keptSamples
  rw [List.map_reverse]
  exact List.reverse_perm _

/-! ## What the functions are -/

section Profiled

variable {profile : Profile σ} {paths : List (List σ)} {samples : List (Sample σ)}

theorem Profiled.head (profiled : Profiled profile paths samples) {entry : Sigma fun _ : σ => ℕ}
    (listed : entry ∈ profile.nodesBySymbol.entries) : ∃ outer, paths[entry.2]? = some (outer ++ [entry.1]) := by
  obtain ⟨symbol, i⟩ := entry
  obtain ⟨list, chain, listing⟩ := Tree.exists_nodes profiled.tree symbol
  rw [HashTable.mem_entries_iff.mp listed] at chain
  cases chain with
  | cons held rest => exact (listing i).mp (by simp)

theorem Profiled.mem_keys (profiled : Profiled profile paths samples) (symbol : σ) :
    symbol ∈ profile.nodesBySymbol.keys ↔ ∃ sample ∈ samples, symbol ∈ sample.1 := by
  constructor
  · intro member
    obtain ⟨entry, listed, rfl⟩ := List.mem_map.mp member
    obtain ⟨outer, here⟩ := profiled.head listed
    obtain ⟨_, sample, memberSample, below⟩ := (profiled.covers _).mp (List.mem_of_getElem? here)
    exact ⟨sample, memberSample, below.subset (by simp)⟩
  · rintro ⟨sample, member, occurs⟩
    obtain ⟨outer, inner, spelled⟩ := List.append_of_mem occurs
    have known : outer ++ [symbol] ∈ paths :=
      (profiled.covers _).mpr ⟨by simp, sample, member, inner, by rw [spelled]; simp⟩
    obtain ⟨i, here⟩ := List.mem_iff_getElem?.mp known
    obtain ⟨list, chain, listing⟩ := Tree.exists_nodes profiled.tree symbol
    have nonempty : i ∈ list := (listing i).mpr ⟨outer, here⟩
    by_contra absent
    rw [AList.lookup_eq_none.mpr absent] at chain
    cases chain
    cases nonempty

/-- The symbol of a function is that of its node. -/
def funcSymbol (profile : Profile σ) (func : ProfileFunc) : Option σ :=
  func.node.bind fun i => (profile.forest.nodes[i]?).map ProfileNode.symbol

theorem Profiled.funcSymbol_eq (profiled : Profiled profile paths samples) {entry : Sigma fun _ : σ => ℕ}
    (listed : entry ∈ profile.nodesBySymbol.entries) : funcSymbol profile (flatFunc samples entry) = some entry.1 := by
  obtain ⟨outer, here⟩ := profiled.head listed
  obtain ⟨node, held⟩ := profiled.tree.indexed.node_of_path here
  have labelled : node.symbol = entry.1 := (profiled.tree.indexed.split held here).1
  simp only [funcSymbol, flatFunc, Option.bind_some, held, Option.map_some, labelled]

theorem Profiled.map_funcSymbol (profiled : Profiled profile paths samples) :
    profile.functions.map (funcSymbol profile) = profile.nodesBySymbol.keys.map some := by
  rw [profiled.functions, List.map_map, AList.keys, List.keys, List.map_map]
  apply List.map_congr_left
  intro entry listed
  exact profiled.funcSymbol_eq listed

/-- One function for every symbol of the samples, with the samples that end with it in its
self and those that contain it in its total. -/
structure Flat (profile : Profile σ) (samples : List (Sample σ)) : Prop where
  distinct : (profile.functions.map (funcSymbol profile)).Nodup
  listed : ∀ symbol, some symbol ∈ profile.functions.map (funcSymbol profile) ↔ ∃ sample ∈ samples, symbol ∈ sample.1
  counts : ∀ func ∈ profile.functions, ∃ symbol, funcSymbol profile func = some symbol ∧
    func.self = weight samples (fun stack => stack.getLast? = some symbol) ∧
    func.total = weight samples (fun stack => symbol ∈ stack)

theorem Profiled.flat (profiled : Profiled profile paths samples) : Flat profile samples where
  distinct := by
    rw [profiled.map_funcSymbol]
    exact profile.nodesBySymbol.nodupKeys.map (Option.some_injective σ)
  listed symbol := by
    rw [profiled.map_funcSymbol, List.mem_map_of_injective (Option.some_injective σ)]
    exact profiled.mem_keys symbol
  counts func member := by
    rw [profiled.functions] at member
    obtain ⟨entry, listed, rfl⟩ := List.mem_map.mp member
    exact ⟨entry.1, profiled.funcSymbol_eq listed, rfl, rfl⟩

end Profiled

/-- A profile of blocks whose traces are recorded is made, and is flat. -/
theorem profileCreate_flat {world : World} {p : ProcId} {process : MPProcess} (found : world.process p = .ok process)
    {traces : List (List Addr × UInt32)} (recorded : List.Forall₂ (Recorded world) process.held traces)
    {symbolOf : Addr → σ} {maps : τ} (fixed : Fixed locate (IsFrame traces) symbolOf maps) (name : σ → String)
    (skipFuncs : List String) :
    ∃ later maps' profile, profileCreate locate name maps world p skipFuncs = .ok (later, maps', profile) ∧
      Flat profile (keptSamples name skipFuncs symbolOf traces) := by
  obtain ⟨maps', profile, paths, returned, profiled⟩ := profileCreate_recorded found recorded fixed name skipFuncs
  exact ⟨_, maps', profile, returned, profiled.flat⟩

/-! ## What the tree is -/

/-- One node for every path that some sample begins with. -/
structure Denotes (profile : Profile σ) (samples : List (Sample σ)) : Prop where
  exists_iff : ∀ path, (∃ i, At profile.forest none path i) ↔ path ≠ [] ∧ ∃ sample ∈ samples, path <+: sample.1
  unique : ∀ path i j, At profile.forest none path i → At profile.forest none path j → i = j
  counts : ∀ path i, At profile.forest none path i → ∃ node, profile.forest.nodes[i]? = some node ∧
    path.getLast? = some node.symbol ∧ node.total = weight samples (fun stack => path <+: stack) ∧
    node.self = weight samples (fun stack => stack = path) ∧ (node.toplevel = true ↔ node.symbol ∉ path.dropLast)
  parent : ∀ path i node, At profile.forest none path i → profile.forest.nodes[i]? = some node →
    node.parent = none ∧ path.dropLast = [] ∨ ∃ p, node.parent = some p ∧ At profile.forest none path.dropLast p
  chains : ∀ symbol, ∃ list, Chain profile.forest.nodes ProfileNode.next (profile.nodesBySymbol.lookup symbol) list ∧
    list.Nodup ∧ ∀ i, i ∈ list ↔ ∃ outer, At profile.forest none (outer ++ [symbol]) i

theorem Profiled.denotes {profile : Profile σ} {paths : List (List σ)} {samples : List (Sample σ)}
    (profiled : Profiled profile paths samples) : Denotes profile samples where
  exists_iff path := by
    have located : (∃ i, At profile.forest none path i) ↔ path ∈ paths := by
      rw [List.mem_iff_getElem?]
      exact exists_congr fun i => profiled.tree.indexed.at_iff
    rw [located, profiled.covers]
  unique path i j left right := by
    rw [profiled.tree.indexed.at_iff] at left right
    exact profiled.tree.indexed.injective left right
  counts path i located := by
    rw [profiled.tree.indexed.at_iff] at located
    obtain ⟨node, held⟩ := profiled.tree.indexed.node_of_path located
    obtain ⟨total, self, toplevel⟩ := profiled.tree.counts i node path held located
    refine ⟨node, held, ?_, total, ?_, toplevel⟩
    · have spelled := profiled.tree.indexed.path i node held
      rw [located, Option.some.injEq] at spelled
      rw [spelled, List.getLast?_concat]
      rfl
    · rw [self]
      exact weight_congr fun _ _ => eq_comm
  parent path i node located held := by
    rw [profiled.tree.indexed.at_iff] at located
    have spelled := profiled.tree.indexed.path i node held
    rw [located, Option.some.injEq] at spelled
    have outer : path.dropLast = pathOf paths (TreeNode.parent node) := by rw [spelled, List.dropLast_concat]
    rw [outer]
    cases hasParent : node.parent with
    | none =>
      have owner : TreeNode.parent node = none := hasParent
      rw [owner]
      exact .inl ⟨rfl, rfl⟩
    | some p =>
      have owner : TreeNode.parent node = some p := hasParent
      -- a parent is older than its children, so its index is one of the forest
      have inside := profiled.tree.indexed.parent_lt held p owner
      obtain ⟨above, heldAbove⟩ : ∃ above, profile.forest.nodes[p]? = some above := ⟨_, List.getElem?_eq_getElem inside⟩
      have here := profiled.tree.indexed.path p above heldAbove
      rw [owner, pathOf_some here]
      exact .inr ⟨p, rfl, profiled.tree.indexed.at_iff.mpr here⟩
  chains symbol := by
    obtain ⟨list, chain, listing⟩ := Tree.exists_nodes profiled.tree symbol
    refine ⟨list, chain, chain.nodup, fun i => (listing i).trans (exists_congr fun outer => ?_)⟩
    exact profiled.tree.indexed.at_iff.symm

/-- A profile of blocks whose traces are recorded is made, and its tree denotes them. -/
theorem profileCreate_denotes {world : World} {p : ProcId} {process : MPProcess} (found : world.process p = .ok process)
    {traces : List (List Addr × UInt32)} (recorded : List.Forall₂ (Recorded world) process.held traces)
    {symbolOf : Addr → σ} {maps : τ} (fixed : Fixed locate (IsFrame traces) symbolOf maps) (name : σ → String)
    (skipFuncs : List String) :
    ∃ later maps' profile, profileCreate locate name maps world p skipFuncs = .ok (later, maps', profile) ∧
      Denotes profile (keptSamples name skipFuncs symbolOf traces) := by
  obtain ⟨maps', profile, paths, returned, profiled⟩ := profileCreate_recorded found recorded fixed name skipFuncs
  exact ⟨_, maps', profile, returned, profiled.denotes⟩

/-! ## A process that recurses -/

/-- `main` calls `f`, and `f` calls itself. -/
def recursion : StackStash where
  nodes := [{ address := 1 }, { address := 2, parent := some 0 }, { address := 2, parent := some 1 }]

/-- One block was allocated by the inner call of `f`, the other one by the outer call. -/
def recursing : World where
  blocks := ⟨[some { addr := 16, size := 24, stack := some ⟨0, 2⟩ },
    some { addr := 64, size := 8, stack := some ⟨0, 1⟩ }]⟩
  stashes := ⟨[some recursion]⟩
  processes := [{ blockTable := some ((∅ : BlockTable).insert 16 0 |>.insert 64 1) }]

def recursingTraces : List (List Addr × UInt32) := [([2, 1], 8), ([2, 2, 1], 24)]

/-- The mappings never change, and every frame is the start of its function. -/
def locateStart (maps : Unit) (address : Addr) : Option Addr × Unit := (some address, maps)

def nameStart (symbol : Addr) : String := if symbol = 1 then "main" else "f"

theorem trace_recursion : Stash.Trace recursion.nodes (some 1) [2, 1] ∧ Stash.Trace recursion.nodes (some 2)
    [2, 2, 1] := by
  have outermost : Stash.Trace recursion.nodes (some 0) [1] := @Stash.Trace.cons _ 0 { address := 1 } _ rfl .nil
  have outer : Stash.Trace recursion.nodes (some 1) [2, 1] :=
    @Stash.Trace.cons _ 1 { address := 2, parent := some 0 } _ rfl outermost
  exact ⟨outer, @Stash.Trace.cons _ 2 { address := 2, parent := some 1 } _ rfl outer⟩

theorem recursing_recorded : List.Forall₂ (Recorded recursing) [1, 0] recursingTraces :=
  .cons ⟨_, rfl, ⟨recursion, rfl, trace_recursion.1⟩, rfl⟩ (.cons ⟨_, rfl, ⟨recursion, rfl, trace_recursion.2⟩, rfl⟩ .nil)

theorem fixed_locateStart (isFrame : Addr → Prop) : Fixed locateStart isFrame id () := fun _ _ _ _ => rfl

theorem recursing_found :
    recursing.process 0 = .ok { blockTable := some ((∅ : BlockTable).insert 16 0 |>.insert 64 1) } := rfl

theorem kept_recursing : keptSamples nameStart [] id recursingTraces = [([1, 2], 8), ([1, 2, 2], 24)] := by decide

/-- With nothing to skip its profile lists `f`. -/
theorem exists_recursing : ∃ later maps' profile func,
    profileCreate locateStart nameStart () recursing 0 [] = .ok (later, maps', profile) ∧
      func ∈ profile.functions ∧ funcSymbol profile func = some 2 := by
  obtain ⟨maps', profile, _, returned, profiled⟩ :=
    profileCreate_recorded recursing_found recursing_recorded (fixed_locateStart _) nameStart []
  have occurs : some 2 ∈ profile.functions.map (funcSymbol profile) :=
    (profiled.flat.listed 2).mpr ⟨([1, 2], 8), by rw [kept_recursing]; simp, by simp⟩
  obtain ⟨func, member, named⟩ := List.mem_map.mp occurs
  exact ⟨_, maps', profile, func, returned, member, named⟩

theorem profileCreate_flat_recursing : ∃ later maps' profile,
    profileCreate locateStart nameStart () recursing 0 ["main"] = .ok (later, maps', profile) ∧
      Flat profile [([2], 8), ([2, 2], 24)] := by
  have kept : keptSamples nameStart ["main"] id recursingTraces = [([2], 8), ([2, 2], 24)] := by decide
  rw [← kept]
  exact profileCreate_flat recursing_found recursing_recorded (fixed_locateStart _) nameStart ["main"]

theorem profileCreate_denotes_recursing : ∃ later maps' profile,
    profileCreate locateStart nameStart () recursing 0 [] = .ok (later, maps', profile) ∧
      Denotes profile [([1, 2], 8), ([1, 2, 2], 24)] := by
  rw [← kept_recursing]
  exact profileCreate_denotes recursing_found recursing_recorded (fixed_locateStart _) nameStart []

end Memprof.FlatProfile
