import Mathlib.Data.UInt
import Memprof.Library.Outcome
import Memprof.Library.Weights
import Memprof.Profile
import Memprof.Verified.Serving

/-! # The call tree of a profile

Every node stands for a path of symbols.  What it counts are the stacks that begin with
its path, and of these as its own the stacks that are its path; it is toplevel if its
symbol is not on the path before; and all nodes of a symbol are on the chain of that
symbol.
-/

namespace Memprof.CallTree

open Library Library.Forest Serving

variable {σ : Type} [DecidableEq σ]

/-- A stack from the outermost frame and the bytes it accounts for. -/
abbrev Sample (σ : Type) := List σ × UInt32

/-- A node at `path`, with `totals` in its total and `selfs` in its self. -/
structure Counts (totals selfs : List (Sample σ)) (path : List σ) (node : ProfileNode σ) : Prop where
  total : node.total = weight totals (path <+: ·)
  self : node.self = weight selfs (path = ·)
  toplevel : node.toplevel = true ↔ node.symbol ∉ path.dropLast

/-- The nodes of `profile` stand at `paths`. -/
structure Tree (profile : Profile σ) (paths : List (List σ)) (totals selfs : List (Sample σ)) : Prop where
  indexed : Indexed profile.forest paths
  counts : ∀ (i : ℕ) (node : ProfileNode σ) (path : List σ), profile.forest.nodes[i]? = some node →
    paths[i]? = some path → Counts totals selfs path node
  newer : Older profile.forest.nodes ProfileNode.next
  chains : ∀ symbol, ∃ list, Chain profile.forest.nodes ProfileNode.next (profile.nodesBySymbol.lookup symbol) list ∧
    ∀ (i : ℕ), i ∈ list ↔ ∃ node, profile.forest.nodes[i]? = some node ∧ node.symbol = symbol

omit [DecidableEq σ] in
/-- There are paths for the stacks and for nothing else. -/
def Covers (paths : List (List σ)) (totals : List (Sample σ)) : Prop :=
  ∀ path, path ∈ paths ↔ path ≠ [] ∧ ∃ sample ∈ totals, path <+: sample.1

theorem tree_empty : Tree ({} : Profile σ) [] [] [] where
  indexed := indexed_empty
  counts _ _ _ held := by cases held
  newer _ _ _ held := by cases held
  chains symbol := ⟨[], .nil, fun i => by simp⟩

omit [DecidableEq σ] in
theorem covers_empty : Covers ([] : List (List σ)) [] := by
  intro path
  simp

section Node

variable {profile : Profile σ} {paths : List (List σ)} {totals selfs : List (Sample σ)}

/-- The new node heads the chain of its symbol and leaves the other chains alone. -/
theorem Tree.chains_add (tree : Tree profile paths totals selfs) {node : ProfileNode σ}
    (next : node.next = profile.nodesBySymbol.lookup node.symbol) (symbol : σ) :
    ∃ list, Chain (profile.forest.add node).1.nodes ProfileNode.next
        ((profile.nodesBySymbol.insert node.symbol profile.forest.nodes.length).lookup symbol) list ∧
      ∀ (i : ℕ), i ∈ list ↔ ∃ after, (profile.forest.add node).1.nodes[i]? = some after ∧ after.symbol = symbol := by
  have keeps : ∀ (i : ℕ) (other : ProfileNode σ), (TreeNode.adopt i other).next = other.next := fun _ _ => rfl
  have members : ∀ (i : ℕ), (∃ after, (profile.forest.add node).1.nodes[i]? = some after ∧ after.symbol = symbol) ↔
      i = profile.forest.nodes.length ∧ node.symbol = symbol ∨
        ∃ before, profile.forest.nodes[i]? = some before ∧ before.symbol = symbol := fun i => exists_symbol_add
  obtain ⟨list, chain, listing⟩ := tree.chains symbol
  by_cases same : symbol = node.symbol
  · subst same
    refine ⟨profile.forest.nodes.length :: list, ?_, fun i => ?_⟩
    · rw [AList.lookup_insert]
      refine .cons (by rw [getElem?_add, if_pos rfl]) ?_
      rw [next]
      exact chain_add keeps chain node
    · rw [members, List.mem_cons, listing]
      simp
  · refine ⟨list, ?_, fun i => ?_⟩
    · rw [AList.lookup_insert_ne same]
      exact chain_add keeps chain node
    · rw [members, listing]
      simp [Ne.symm same]

/-- A new node has nothing to count, and its symbol is on the path before if it was seen. -/
theorem Tree.counts_add (tree : Tree profile paths totals selfs) (covers : Covers paths totals)
    (included : ∀ sample ∈ selfs, sample ∈ totals) {node : ProfileNode σ} (empty : node.total = 0 ∧ node.self = 0)
    {fresh : List σ} (notYet : fresh ∉ paths) (nonempty : fresh ≠ [])
    (toplevel : node.toplevel = true ↔ node.symbol ∉ fresh.dropLast) {i : ℕ} {other : ProfileNode σ} {path : List σ}
    (held : (profile.forest.add node).1.nodes[i]? = some other) (here : (paths ++ [fresh])[i]? = some path) :
    Counts totals selfs path other := by
  rcases getElem?_add_cases held with ⟨rfl, rfl⟩ | ⟨old, before, heldBefore, rfl⟩
  · rw [← tree.indexed.length, List.getElem?_concat_length, Option.some.injEq] at here
    subst here
    have unknown : ∀ sample ∈ totals, ¬ fresh <+: sample.1 := fun sample member below =>
      notYet ((covers _).mpr ⟨nonempty, sample, member, below⟩)
    refine ⟨?_, ?_, toplevel⟩
    · rw [weight_eq_zero unknown, empty.1]
    · rw [weight_eq_zero fun sample member same => unknown sample (included sample member) (by rw [same]), empty.2]
  · rw [List.getElem?_append_left (by rw [tree.indexed.length]; exact old)] at here
    have counts := tree.counts i before path heldBefore here
    split
    · exact ⟨counts.total, counts.self, counts.toplevel⟩
    · exact counts

/-- `profile_add_stack_trace` makes a node where there was none. -/
theorem Tree.add (tree : Tree profile paths totals selfs) (covers : Covers paths totals)
    (included : ∀ sample ∈ selfs, sample ∈ totals) {parent : Option ℕ}
    (inside : ∀ p ∈ parent, p < profile.forest.nodes.length) {seen : HashTable σ Unit}
    (listed : ∀ other, (seen.lookup other).isSome = true ↔ other ∈ pathOf paths parent) {symbol : σ}
    (fresh : pathOf paths parent ++ [symbol] ∉ paths) :
    ∃ later i, addProfileNode profile parent seen symbol = (later, i) ∧
      Tree later (paths ++ [pathOf paths parent ++ [symbol]]) totals selfs ∧
      (paths ++ [pathOf paths parent ++ [symbol]])[i]? = some (pathOf paths parent ++ [symbol]) := by
  obtain ⟨node, spelled⟩ : ∃ node : ProfileNode σ, node =
      { symbol := symbol
        toplevel := (seen.lookup symbol).isNone
        next := profile.nodesBySymbol.lookup symbol
        parent := parent } := ⟨_, rfl⟩
  have symbolNode : node.symbol = symbol := by rw [spelled]
  have parentNode : TreeNode.parent node = parent := by rw [spelled]; rfl
  have nextNode : node.next = profile.nodesBySymbol.lookup node.symbol := by rw [spelled]
  have emptyNode : node.total = 0 ∧ node.self = 0 := by rw [spelled]; exact ⟨rfl, rfl⟩
  have toplevel : node.toplevel = true ↔ node.symbol ∉ (pathOf paths parent ++ [symbol]).dropLast := by
    rw [List.dropLast_concat, symbolNode, ← listed, spelled]
    simp
  have nextInside : ∀ j ∈ node.next, j < profile.forest.nodes.length := by
    intro j isNext
    obtain ⟨list, chain, _⟩ := tree.chains node.symbol
    rw [← nextNode, isNext] at chain
    cases chain with
    | cons held => exact (List.getElem?_eq_some_iff.mp held).1
  have indexed : Indexed (profile.forest.add node).1 (paths ++ [pathOf paths parent ++ [symbol]]) := by
    rw [← symbolNode, ← parentNode]
    exact tree.indexed.add (by rw [spelled]; rfl) (by rw [parentNode]; exact inside)
      (by rw [parentNode, show TreeNode.symbol node = symbol from symbolNode]; exact fresh)
  have chains := fun other => tree.chains_add nextNode other
  rw [symbolNode] at chains
  refine ⟨{ profile with
    forest := (profile.forest.add node).1
    nodesBySymbol := profile.nodesBySymbol.insert symbol profile.forest.nodes.length }, profile.forest.nodes.length,
    ?_, ⟨indexed, ?_, older_add (fun _ _ => rfl) tree.newer nextInside, chains⟩, ?_⟩
  · rw [← add_snd profile.forest node, spelled]
    rfl
  · intro i other path held here
    exact tree.counts_add covers included emptyNode fresh (List.concat_ne_nil _ _) toplevel held here
  · rw [← tree.indexed.length, List.getElem?_concat_length]

omit [DecidableEq σ] in
theorem prefix_concat_iff_of_ne {path outer : List σ} {symbol : σ} (other : path ≠ outer ++ [symbol]) :
    path <+: outer ++ [symbol] ↔ path <+: outer := by
  rw [List.prefix_concat_iff]
  simp [other]

/-- The node of one more frame is charged. -/
theorem Tree.charge {samples : List (Sample σ)} {outer : List σ} {size : UInt32}
    (tree : Tree profile paths (samples ++ [(outer, size)]) samples) {i : ℕ} {node : ProfileNode σ}
    (held : profile.forest.nodes[i]? = some node) {symbol : σ} (here : paths[i]? = some (outer ++ [symbol]))
    (last : Bool) :
    Tree { profile with forest := profile.forest.set i (chargeNode size last node) } paths
      (samples ++ [(outer ++ [symbol], size)]) (if last then samples ++ [(outer ++ [symbol], size)] else samples) where
  indexed := tree.indexed.set held rfl rfl rfl
  newer := tree.newer.set held rfl
  chains other := by
    obtain ⟨list, chain, listing⟩ := tree.chains other
    have sameNext : (chargeNode size last node).next = node.next := rfl
    have sameSymbol : TreeNode.symbol (chargeNode size last node) = TreeNode.symbol node := rfl
    exact ⟨list, chain_set held sameNext chain, fun j => (listing j).trans (exists_symbol_set held sameSymbol).symm⟩
  counts j other path found spelled := by
    rcases tree.indexed.set_cases held here found spelled with ⟨rfl, rfl⟩ | ⟨different, found⟩
    · obtain ⟨total, self, toplevel⟩ := tree.counts i node _ held here
      -- the sample was counted so far for the outer frames only, which the node's path is not a prefix of
      have longer := not_concat_prefix outer symbol
      rw [weight_concat, if_neg longer, add_zero] at total
      refine ⟨?_, ?_, toplevel⟩
      · rw [chargeNode, weight_concat, if_pos List.prefix_rfl, total]
      · cases last with
        | true => simp only [chargeNode, if_true, weight_concat, self]
        | false => exact self
    -- any other path is a prefix of the longer stack exactly when it is one of the shorter
    · obtain ⟨total, self, toplevel⟩ := tree.counts j other path found spelled
      rw [weight_concat] at total
      refine ⟨?_, ?_, toplevel⟩
      · rw [weight_concat, total]
        simp only [prefix_concat_iff_of_ne different]
      · split
        · rw [weight_concat, if_neg different, add_zero, self]
        · exact self

theorem Covers.known {samples : List (Sample σ)} {outer : List σ} {size : UInt32}
    (covers : Covers paths (samples ++ [(outer, size)])) {symbol : σ} (known : outer ++ [symbol] ∈ paths) :
    Covers paths (samples ++ [(outer ++ [symbol], size)]) := by
  intro path
  by_cases same : path = outer ++ [symbol]
  · subst same
    simp [known]
  · rw [covers]
    simp [prefix_concat_iff_of_ne same]

theorem Covers.concat {samples : List (Sample σ)} {outer : List σ} {size : UInt32}
    (covers : Covers paths (samples ++ [(outer, size)])) (symbol : σ) :
    Covers (paths ++ [outer ++ [symbol]]) (samples ++ [(outer ++ [symbol], size)]) := by
  intro path
  by_cases same : path = outer ++ [symbol]
  · subst same
    simp
  · rw [List.mem_append, covers]
    simp [prefix_concat_iff_of_ne same, same]

end Node

/-! ## A stack is added -/

variable {τ : Type} {locate : τ → Addr → Option σ × τ}

omit [DecidableEq σ] in
theorem matchChild_ok [DecidableEq σ] {ν : Type} [TreeNode ν σ] {forest : Forest ν} {paths : List (List σ)}
    (indexed : Indexed forest paths) {parent : Option ℕ} (inside : ∀ p ∈ parent, p < forest.nodes.length) (symbol : σ) :
    ∃ found, matchChild forest parent symbol = .ok found ∧
      ∀ i, found = some i ↔ paths[i]? = some (pathOf paths parent ++ [symbol]) := by
  obtain ⟨ids, listed⟩ := exists_array inside
  obtain ⟨found, ran, spec⟩ := indexed.find_ok listed symbol
  refine ⟨found, ?_, spec⟩
  unfold matchChild
  rw [listed, Option.bind_eq_bind, Option.bind_some, ran]

/-- The node of the next frame is there afterwards. -/
theorem matchNode_ok {samples : List (Sample σ)} {size : UInt32} {profile : Profile σ} {parent : Option ℕ}
    {seen : HashTable σ Unit} {paths : List (List σ)}
    (tree : Tree profile paths (samples ++ [(pathOf paths parent, size)]) samples)
    (covers : Covers paths (samples ++ [(pathOf paths parent, size)]))
    (inside : ∀ p ∈ parent, p < profile.forest.nodes.length)
    (listed : ∀ other, (seen.lookup other).isSome = true ↔ other ∈ pathOf paths parent) (symbol : σ) :
    ∃ later i paths', matchNode profile parent seen symbol = .ok (later, i) ∧
      Tree later paths' (samples ++ [(pathOf paths parent, size)]) samples ∧
      Covers paths' (samples ++ [(pathOf paths parent ++ [symbol], size)]) ∧
      paths'[i]? = some (pathOf paths parent ++ [symbol]) := by
  obtain ⟨found, ran, spec⟩ := matchChild_ok tree.indexed inside symbol
  unfold matchNode
  rw [ran, ok_bind]
  cases found with
  | some i =>
    have here := (spec i).mp rfl
    exact ⟨profile, i, paths, rfl, tree, covers.known (List.mem_of_getElem? here), here⟩
  | none =>
    have fresh : pathOf paths parent ++ [symbol] ∉ paths := by
      intro member
      obtain ⟨i, here⟩ := List.mem_iff_getElem?.mp member
      cases (spec i).mpr here
    obtain ⟨later, i, added, treeLater, here⟩ :=
      tree.add covers (fun sample member => List.mem_append_left _ member) inside listed fresh
    exact ⟨later, i, _, by simp only [added], treeLater, covers.concat symbol, here⟩

/-- What is found for a frame. -/
def Located (locate : τ → Addr → Option σ × τ) (maps : τ) (element : StackNode) (symbol : σ) (maps' : τ) : Prop :=
  locate maps element.address = (some symbol, maps')

/-- The loop over a stack whose outer frames have been added. -/
theorem addFrames_ok {maps maps' : τ} {stack : List StackNode} {symbols : List σ}
    (located : Threaded (Located locate) maps stack symbols maps') {samples : List (Sample σ)} {size : UInt32}
    {profile : Profile σ} {parent : Option ℕ} {seen : HashTable σ Unit} {paths : List (List σ)} {outer : List σ}
    (tree : Tree profile paths (samples ++ [(outer, size)]) samples)
    (covers : Covers paths (samples ++ [(outer, size)])) (inside : ∀ p ∈ parent, p < profile.forest.nodes.length)
    (here : pathOf paths parent = outer) (listed : ∀ other, (seen.lookup other).isSome = true ↔ other ∈ outer)
    (nonempty : symbols ≠ []) :
    ∃ later paths', profileAddFrames locate size maps profile parent seen stack = .ok (later, maps') ∧
      Tree later paths' (samples ++ [(outer ++ symbols, size)]) (samples ++ [(outer ++ symbols, size)]) ∧
      Covers paths' (samples ++ [(outer ++ symbols, size)]) := by
  induction located generalizing profile parent seen paths outer with
  | nil => exact absurd rfl nonempty
  | @cons maps _ _ element symbol rest symbols found located inductionHypothesis =>
    subst here
    obtain ⟨next, i, paths', ran, treeNext, coversNext, located'⟩ :=
      matchNode_ok tree covers inside listed symbol
    obtain ⟨node, held⟩ := treeNext.indexed.node_of_path located'
    have charged := treeNext.charge held located' rest.isEmpty
    have insideNext : ∀ p ∈ some i, p < next.forest.nodes.length := by
      rintro p ⟨⟩
      exact (List.getElem?_eq_some_iff.mp held).1
    -- the seen set is what the next node's toplevel bit reads
    have listedNext : ∀ other, ((seen.insert symbol ()).lookup other).isSome = true ↔
        other ∈ pathOf paths parent ++ [symbol] := by
      intro other
      by_cases same : other = symbol
      · subst same
        rw [AList.lookup_insert]
        simp
      · rw [AList.lookup_insert_ne same, listed]
        simp [same]
    rw [profileAddFrames, found]
    simp only [ran, ok_bind, fetch, held]
    -- the innermost frame is charged its self time as well, and ends the loop
    cases located with
    | nil =>
      simp only [List.isEmpty_nil, if_true] at charged
      exact ⟨_, paths', rfl, charged, coversNext⟩
    | cons found' located =>
      simp only [List.isEmpty_cons, Bool.false_eq_true, if_false] at charged
      obtain ⟨later, paths'', ranRest, treeLater, coversLater⟩ := inductionHypothesis charged coversNext
        (by rw [Forest.set, List.length_set]; exact insideNext) (pathOf_some located') listedNext (List.cons_ne_nil _ _)
      rw [List.append_assoc, List.singleton_append] at treeLater coversLater
      exact ⟨later, paths'', ranRest, treeLater, coversLater⟩

/-- A stack that is added has a symbol for each frame. -/
theorem located_of_addFrames {size : UInt32} {maps maps' : τ} {stack : List StackNode} {profile later : Profile σ}
    {parent : Option ℕ} {seen : HashTable σ Unit}
    (returned : profileAddFrames locate size maps profile parent seen stack = .ok (later, maps')) :
    ∃ symbols, Threaded (Located locate) maps stack symbols maps' := by
  induction stack generalizing maps profile parent seen with
  | nil =>
    cases returned
    exact ⟨[], .nil⟩
  | cons element rest inductionHypothesis =>
    rw [profileAddFrames] at returned
    split at returned
    next => cases returned
    next symbol next found =>
      obtain ⟨matched, _, returned⟩ := ok_of_bind returned
      obtain ⟨node, _, returned⟩ := ok_of_bind returned
      obtain ⟨symbols, located⟩ := inductionHypothesis returned
      exact ⟨symbol :: symbols, .cons found located⟩

omit [DecidableEq σ] in
theorem weight_emptyStack {samples : List (Sample σ)} {size : UInt32} (property : List σ → Prop)
    [DecidablePred property] (empty : ¬ property []) :
    weight (samples ++ [([], size)]) property = weight samples property := by
  rw [weight_concat, if_neg empty, add_zero]

/-- A stack without frames starts no path. -/
theorem Tree.emptyStack {profile : Profile σ} {paths : List (List σ)} {samples : List (Sample σ)}
    (tree : Tree profile paths samples samples) (size : UInt32) :
    Tree profile paths (samples ++ [([], size)]) samples ∧
      Tree profile paths (samples ++ [([], size)]) (samples ++ [([], size)]) := by
  have totals : ∀ {i : ℕ} {path : List σ}, paths[i]? = some path →
      weight (samples ++ [([], size)]) (path <+: ·) = weight samples (path <+: ·) := fun here =>
    weight_emptyStack _ fun below => tree.indexed.ne_nil here (List.prefix_nil.mp below)
  have selfs : ∀ {i : ℕ} {path : List σ}, paths[i]? = some path →
      weight (samples ++ [([], size)]) (path = ·) = weight samples (path = ·) := fun here =>
    weight_emptyStack _ (tree.indexed.ne_nil here)
  constructor
  · refine ⟨tree.indexed, fun i node path held here => ?_, tree.newer, tree.chains⟩
    obtain ⟨total, self, toplevel⟩ := tree.counts i node path held here
    exact ⟨total.trans (totals here).symm, self, toplevel⟩
  · refine ⟨tree.indexed, fun i node path held here => ?_, tree.newer, tree.chains⟩
    obtain ⟨total, self, toplevel⟩ := tree.counts i node path held here
    exact ⟨total.trans (totals here).symm, self.trans (selfs here).symm, toplevel⟩

omit [DecidableEq σ] in
theorem Covers.emptyStack {paths : List (List σ)} {samples : List (Sample σ)} (covers : Covers paths samples)
    (size : UInt32) : Covers paths (samples ++ [([], size)]) := by
  intro path
  rw [covers]
  constructor
  · rintro ⟨nonempty, sample, member, below⟩
    exact ⟨nonempty, sample, List.mem_append_left _ member, below⟩
  · rintro ⟨nonempty, sample, member, below⟩
    rcases List.mem_append.mp member with old | fresh
    · exact ⟨nonempty, sample, old, below⟩
    · rw [List.mem_singleton] at fresh
      subst fresh
      exact absurd (List.prefix_nil.mp below) nonempty

theorem addStackTrace_ok {samples : List (Sample σ)} {profile : Profile σ} {paths : List (List σ)}
    (tree : Tree profile paths samples samples) (covers : Covers paths samples) {maps maps' : τ}
    {stack : List StackNode} {symbols : List σ} (located : Threaded (Located locate) maps stack symbols maps')
    (size : UInt32) :
    ∃ later paths', profileAddStackTrace locate maps profile stack size = .ok (later, maps') ∧
      Tree later paths' (samples ++ [(symbols, size)]) (samples ++ [(symbols, size)]) ∧
      Covers paths' (samples ++ [(symbols, size)]) := by
  obtain ⟨started, whole⟩ := tree.emptyStack size
  unfold profileAddStackTrace
  cases located with
  | nil => exact ⟨profile, paths, rfl, whole, covers.emptyStack size⟩
  | cons found located =>
    exact addFrames_ok (.cons found located) started (covers.emptyStack size) (by simp) rfl (by simp) (List.cons_ne_nil _ _)

/-! ## All stacks are added -/

section Blocks

variable {name : σ → String} {stashes : Store StackStash} {skipHash : HashTable String String}

/-- What a block adds to a profile. -/
def Adds (locate : τ → Addr → Option σ × τ) (name : σ → String) (stashes : Store StackStash)
    (skipHash : HashTable String String) (maps : τ) (block : Block) (sample : Sample σ) (maps' : τ) : Prop :=
  ∃ stack middle, blockCreateStackList locate name stashes skipHash maps block = .ok (stack, middle) ∧
    Threaded (Located locate) middle stack sample.1 maps' ∧ sample.2 = block.size

theorem addBlock_ok {samples : List (Sample σ)} {profile : Profile σ} {paths : List (List σ)}
    (tree : Tree profile paths samples samples) (covers : Covers paths samples) {maps maps' : τ} {block : Block}
    {sample : Sample σ} (adds : Adds locate name stashes skipHash maps block sample maps') :
    ∃ later paths', profileAddBlock locate name stashes skipHash (profile, maps) block = .ok (later, maps') ∧
      Tree later paths' (samples ++ [sample]) (samples ++ [sample]) ∧ Covers paths' (samples ++ [sample]) := by
  obtain ⟨symbols, size⟩ := sample
  obtain ⟨stack, middle, created, located, rfl⟩ := adds
  obtain ⟨later, paths', ran, treeLater, coversLater⟩ := addStackTrace_ok tree covers located block.size
  refine ⟨later, paths', ?_, treeLater, coversLater⟩
  simp only [profileAddBlock, created, ok_bind]
  exact ran

theorem adds_of_addBlock {profile later : Profile σ} {maps maps' : τ} {block : Block}
    (returned : profileAddBlock locate name stashes skipHash (profile, maps) block = .ok (later, maps')) :
    ∃ sample, Adds locate name stashes skipHash maps block sample maps' := by
  obtain ⟨⟨stack, middle⟩, created, returned⟩ := ok_of_bind returned
  obtain ⟨symbols, located⟩ := located_of_addFrames returned
  exact ⟨(symbols, block.size), stack, middle, created, located, rfl⟩

theorem addBlocks_ok {maps maps' : τ} {blocks : List Block} {added : List (Sample σ)}
    (adds : Threaded (Adds locate name stashes skipHash) maps blocks added maps') {samples : List (Sample σ)}
    {profile : Profile σ} {paths : List (List σ)} (tree : Tree profile paths samples samples)
    (covers : Covers paths samples) :
    ∃ later paths', blocks.foldlM (profileAddBlock locate name stashes skipHash) (profile, maps) = .ok (later, maps') ∧
      Tree later paths' (samples ++ added) (samples ++ added) ∧ Covers paths' (samples ++ added) := by
  induction adds generalizing samples profile paths with
  | nil =>
    rw [List.append_nil]
    exact ⟨profile, paths, rfl, tree, covers⟩
  | cons first _ inductionHypothesis =>
    obtain ⟨next, paths', ran, treeNext, coversNext⟩ := addBlock_ok tree covers first
    obtain ⟨later, paths'', ranRest, treeLater, coversLater⟩ := inductionHypothesis treeNext coversNext
    rw [List.append_assoc, List.singleton_append] at treeLater coversLater
    rw [List.foldlM_cons, ran, ok_bind]
    exact ⟨later, paths'', ranRest, treeLater, coversLater⟩

theorem adds_of_addBlocks {blocks : List Block} {profile later : Profile σ} {maps maps' : τ}
    (returned : blocks.foldlM (profileAddBlock locate name stashes skipHash) (profile, maps) = .ok (later, maps')) :
    ∃ added, Threaded (Adds locate name stashes skipHash) maps blocks added maps' := by
  induction blocks generalizing profile maps with
  | nil =>
    cases returned
    exact ⟨[], .nil⟩
  | cons block blocks inductionHypothesis =>
    rw [List.foldlM_cons] at returned
    obtain ⟨⟨next, middle⟩, ran, returned⟩ := ok_of_bind returned
    obtain ⟨sample, first⟩ := adds_of_addBlock ran
    obtain ⟨added, rest⟩ := inductionHypothesis returned
    exact ⟨sample :: added, .cons first rest⟩

end Blocks

/-! ## Frames with a fixed symbol -/

/-- Whatever frames were asked about before, a frame has its symbol. -/
def Fixed (locate : τ → Addr → Option σ × τ) (isFrame : Addr → Prop) (symbolOf : Addr → σ) (maps : τ) : Prop :=
  ∀ asked : List Addr, (∀ address ∈ asked, isFrame address) → ∀ address, isFrame address →
    (locate (asked.foldl (fun maps address => (locate maps address).2) maps) address).1 = some (symbolOf address)

/-- The symbols of a trace from the outermost one, without those to skip. -/
def keptStack (name : σ → String) (skipFuncs : List String) (symbols : List σ) : List σ :=
  (symbols.filter fun symbol => name symbol ∉ skipFuncs).reverse

section Fixed

variable {name : σ → String} {isFrame : Addr → Prop} {symbolOf : Addr → σ}

omit [DecidableEq σ] in
theorem Fixed.found {maps : τ} (fixed : Fixed locate isFrame symbolOf maps) {address : Addr} (frame : isFrame address) :
    ∃ maps', locate maps address = (some (symbolOf address), maps') ∧ Fixed locate isFrame symbolOf maps' := by
  refine ⟨(locate maps address).2, Prod.ext (fixed [] (by simp) address frame) rfl, ?_⟩
  intro asked frames
  refine fixed (address :: asked) ?_
  rintro other (_ | ⟨_, member⟩)
  · exact frame
  · exact frames other member

theorem lookup_skipHash (skipFuncs : List String) (func : String) :
    ((skipHash skipFuncs).lookup func).isSome = true ↔ func ∈ skipFuncs := by
  suffices loop : ∀ hash : HashTable String String,
      ((skipFuncs.foldl (fun hash func => hash.insert func "") hash).lookup func).isSome = true ↔
        func ∈ skipFuncs ∨ (hash.lookup func).isSome = true by
    simpa [skipHash] using loop ∅
  induction skipFuncs with
  | nil => simp
  | cons skipped skipFuncs inductionHypothesis =>
    intro hash
    rw [List.foldl_cons, inductionHypothesis, List.mem_cons]
    by_cases same : func = skipped
    · subst same
      simp
    · simp [AList.lookup_insert_ne same, same]

theorem exists_chain_of_trace {nodes : List StackNode} {start : Option ℕ} {frames : List Addr}
    (trace : Stash.Trace nodes start frames) :
    ∃ list, Chain nodes StackNode.parent start list ∧
      List.Forall₂ (fun i address => ∃ node : StackNode, nodes[i]? = some node ∧ node.address = address) list frames := by
  induction trace with
  | nil => exact ⟨[], .nil, .nil⟩
  | cons held _ inductionHypothesis =>
    obtain ⟨list, chain, listing⟩ := inductionHypothesis
    exact ⟨_, .cons held chain, .cons ⟨_, held, rfl⟩ listing⟩

variable {skipHash : HashTable String String} {skipFuncs : List String}

omit [DecidableEq σ] in
theorem keepFrame_eq {stash : StackStash} {i : ℕ} {node : StackNode} (held : stash.nodes[i]? = some node)
    (stack : List StackNode) (maps : τ) : keepFrame locate name skipHash stash (stack, maps) i =
      .ok (if (locate maps node.address).1.any fun symbol => (skipHash.lookup (name symbol)).isSome then stack
        else node :: stack, (locate maps node.address).2) := by
  unfold keepFrame
  simp only [Stash.node_eq_ok.mpr held, ok_bind]
  split <;> rfl

omit [DecidableEq σ] in
/-- The loop of `block_create_stack_list` goes over the frames of the block. -/
theorem exists_keepFrames {stashes : Store StackStash} {block : Block} {frames : List Addr}
    (trace : StackTrace stashes block.stack frames) : ∃ (stash : StackStash) (list : List ℕ),
      List.Forall₂ (fun i address => ∃ node : StackNode, stash.nodes[i]? = some node ∧ node.address = address)
        list frames ∧
      ∀ maps, blockCreateStackList locate name stashes skipHash maps block =
        list.foldlM (keepFrame locate name skipHash stash) ([], maps) := by
  unfold blockCreateStackList
  cases pointer : block.stack with
  | none =>
    rw [pointer] at trace
    subst trace
    exact ⟨{}, [], .nil, fun _ => rfl⟩
  | some ref =>
    rw [pointer] at trace
    obtain ⟨stash, live, trace⟩ := trace
    obtain ⟨list, chain, listing⟩ := exists_chain_of_trace trace
    refine ⟨stash, list, listing, fun maps => ?_⟩
    simp only [live, walk_eq chain chain.length_le]

/-- A frame in a stack, and its symbol. -/
def IsKept (isFrame : Addr → Prop) (symbolOf : Addr → σ) (element : StackNode) (symbol : σ) : Prop :=
  isFrame element.address ∧ symbolOf element.address = symbol

omit [DecidableEq σ] in
/-- The loop over the frames, when those in `stack` have been kept. -/
theorem keepFrames_ok (skips : ∀ func, (skipHash.lookup func).isSome = true ↔ func ∈ skipFuncs) {stash : StackStash}
    {list : List ℕ} {frames : List Addr}
    (listing : List.Forall₂ (fun i address => ∃ node : StackNode, stash.nodes[i]? = some node ∧ node.address = address)
      list frames) (known : ∀ address ∈ frames, isFrame address) {maps : τ} (fixed : Fixed locate isFrame symbolOf maps)
    {stack : List StackNode} {symbols : List σ} (before : List.Forall₂ (IsKept isFrame symbolOf) stack symbols) :
    ∃ stack' maps', list.foldlM (keepFrame locate name skipHash stash) (stack, maps) = .ok (stack', maps') ∧
      List.Forall₂ (IsKept isFrame symbolOf) stack' (keptStack name skipFuncs (frames.map symbolOf) ++ symbols) ∧
      Fixed locate isFrame symbolOf maps' := by
  induction listing generalizing maps stack symbols with
  | nil => exact ⟨stack, maps, rfl, before, fixed⟩
  | @cons i address list frames here _ inductionHypothesis =>
    obtain ⟨node, held, rfl⟩ := here
    have knownNode := known node.address (by simp)
    have knownRest : ∀ address ∈ frames, isFrame address := fun other member => known other (by simp [member])
    obtain ⟨next, found, fixedNext⟩ := fixed.found knownNode
    rw [List.foldlM_cons, keepFrame_eq held, found, ok_bind, Option.any_some]
    simp only [skips]
    by_cases skipped : name (symbolOf node.address) ∈ skipFuncs
    · rw [if_pos skipped]
      obtain ⟨stack', maps', ran, kept, ended⟩ := inductionHypothesis knownRest fixedNext before
      refine ⟨stack', maps', ran, ?_, ended⟩
      simpa [keptStack, skipped] using kept
    · rw [if_neg skipped]
      obtain ⟨stack', maps', ran, kept, ended⟩ :=
        inductionHypothesis knownRest fixedNext (.cons ⟨knownNode, rfl⟩ before)
      refine ⟨stack', maps', ran, ?_, ended⟩
      simpa [keptStack, skipped] using kept

omit [DecidableEq σ] in
/-- The stack of a block is its kept stack. -/
theorem createStackList_ok (skips : ∀ func, (skipHash.lookup func).isSome = true ↔ func ∈ skipFuncs)
    {stashes : Store StackStash} {block : Block} {frames : List Addr}
    (trace : StackTrace stashes block.stack frames) (known : ∀ address ∈ frames, isFrame address) {maps : τ}
    (fixed : Fixed locate isFrame symbolOf maps) :
    ∃ stack maps', blockCreateStackList locate name stashes skipHash maps block = .ok (stack, maps') ∧
      List.Forall₂ (IsKept isFrame symbolOf) stack (keptStack name skipFuncs (frames.map symbolOf)) ∧
      Fixed locate isFrame symbolOf maps' := by
  obtain ⟨stash, list, listing, loop⟩ := exists_keepFrames trace
  obtain ⟨stack, maps', ran, kept, ended⟩ := keepFrames_ok skips listing known fixed .nil
  rw [List.append_nil] at kept
  exact ⟨stack, maps', (loop maps).trans ran, kept, ended⟩

omit [DecidableEq σ] in
theorem adds_of_fixed (skips : ∀ func, (skipHash.lookup func).isSome = true ↔ func ∈ skipFuncs)
    {stashes : Store StackStash} {block : Block} {frames : List Addr}
    (trace : StackTrace stashes block.stack frames) (known : ∀ address ∈ frames, isFrame address) {maps : τ}
    (fixed : Fixed locate isFrame symbolOf maps) :
    ∃ maps', Adds locate name stashes skipHash maps block
        (keptStack name skipFuncs (frames.map symbolOf), block.size) maps' ∧ Fixed locate isFrame symbolOf maps' := by
  obtain ⟨stack, middle, created, kept, fixedMiddle⟩ := createStackList_ok skips trace known fixed
  have found : ∀ state element symbol, IsKept isFrame symbolOf element symbol → Fixed locate isFrame symbolOf state →
      ∃ next, Located locate state element symbol next ∧ Fixed locate isFrame symbolOf next := by
    rintro state element symbol ⟨frame, rfl⟩ held
    exact held.found frame
  obtain ⟨maps', located, fixedLater⟩ := exists_threaded kept found fixedMiddle
  exact ⟨maps', ⟨stack, middle, created, located, rfl⟩, fixedLater⟩

end Fixed

/-! ## The blocks of a process -/

/-- The trace of a block and its size. -/
def BlockTrace (stashes : Store StackStash) (block : Block) (trace : List Addr × UInt32) : Prop :=
  StackTrace stashes block.stack trace.1 ∧ trace.2 = block.size

def Recorded (world : World) (b : BlockId) (trace : List Addr × UInt32) : Prop :=
  ∃ block, world.blocks.get b = some block ∧ BlockTrace world.stashes block trace

/-- The kept stacks of all blocks, and their sizes. -/
def keptSamples (name : σ → String) (skipFuncs : List String) (symbolOf : Addr → σ)
    (traces : List (List Addr × UInt32)) : List (Sample σ) :=
  traces.map fun trace => (keptStack name skipFuncs (trace.1.map symbolOf), trace.2)

theorem addBlocksToList_ok {world : World} {held : List BlockId} {traces : List (List Addr × UInt32)}
    (recorded : List.Forall₂ (Recorded world) held traces) :
    ∃ blocks, addBlocksToList world.blocks held = .ok blocks ∧
      List.Forall₂ (BlockTrace world.stashes) blocks traces.reverse := by
  suffices loop : ∀ {list : List Block} {above : List (List Addr × UInt32)},
      List.Forall₂ (BlockTrace world.stashes) list above →
      ∃ blocks, held.foldlM (fun list b => do
          let block ← deref world.blocks b
          .ok (block :: list)) list = .ok blocks ∧
        List.Forall₂ (BlockTrace world.stashes) blocks (traces.reverse ++ above) by
    obtain ⟨blocks, ran, traced⟩ := loop .nil
    rw [List.append_nil] at traced
    exact ⟨blocks, ran, traced⟩
  induction recorded with
  | nil => exact fun traced => ⟨_, rfl, traced⟩
  | @cons b trace held traces first _ inductionHypothesis =>
    intro list above traced
    obtain ⟨block, live, here⟩ := first
    obtain ⟨blocks, ran, rest⟩ := inductionHypothesis (.cons here traced)
    refine ⟨blocks, ?_, by simpa using rest⟩
    simp only [List.foldlM_cons, deref, live, ok_bind]
    exact ran

omit [DecidableEq σ] in
theorem addsAll_of_fixed {stashes : Store StackStash} {blocks : List Block} {traces : List (List Addr × UInt32)}
    (traced : List.Forall₂ (BlockTrace stashes) blocks traces) {name : σ → String} {isFrame : Addr → Prop}
    {symbolOf : Addr → σ} {skipHash : HashTable String String} {skipFuncs : List String}
    (skips : ∀ func, (skipHash.lookup func).isSome = true ↔ func ∈ skipFuncs)
    (known : ∀ trace ∈ traces, ∀ address ∈ trace.1, isFrame address) {maps : τ}
    (fixed : Fixed locate isFrame symbolOf maps) :
    ∃ maps', Threaded (Adds locate name stashes skipHash) maps blocks (keptSamples name skipFuncs symbolOf traces) maps' ∧
      Fixed locate isFrame symbolOf maps' := by
  induction traced generalizing maps with
  | nil => exact ⟨maps, .nil, fixed⟩
  | @cons block trace blocks traces first _ inductionHypothesis =>
    obtain ⟨stack, size⟩ := trace
    obtain ⟨trace, rfl⟩ := first
    obtain ⟨next, adds, fixedNext⟩ := adds_of_fixed skips trace (known _ (by simp)) fixed
    obtain ⟨maps', rest, fixedLater⟩ :=
      inductionHypothesis (fun other member => known other (by simp [member])) fixedNext
    exact ⟨maps', .cons adds rest, fixedLater⟩

end Memprof.CallTree
