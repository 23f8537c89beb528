import Memprof.Descendants
import Memprof.Library.LoopErasure
import Memprof.Verified.FlatProfile

/-! # The descendant tree of a function

While a trace is added it has been walked for a while and is on a path, the loop erasure of
what was walked.  The marks of a node say whether it is on the path and whether the walk has
been at it, and its counts are those of the traces before and, where it is marked, the size
of the one being added.
-/

namespace Memprof.Descendants

open Library Library.Forest CallTree FlatProfile

variable {σ : Type} [DecidableEq σ]

/-! ## A trace that is being added -/

/-- What a node at `here` has counted: the traces `done`, and the one that weighs `size`,
was walked along `walked` and is on `path`. -/
structure Counted (done selfs : List (Sample σ)) (size : UInt32) (path walked here : List σ)
    (node : ProfileDescendantTreeNode σ) : Prop where
  self : node.self = weight selfs (fun trace => loopErasure trace = here)
  nonRecursion : node.nonRecursion =
    weight done (fun trace => here <+: loopErasure trace) + if here <+: path then size else 0
  total : node.total = weight done (fun trace => Visits trace here) + if Visits walked here then size else 0
  markedNonRecursive : node.markedNonRecursive = if here <+: path then 1 else 0
  markedTotal : node.markedTotal = true ↔ Visits walked here

/-- The nodes of `tree` stand at `paths`. -/
structure Trie (tree : ProfileDescendantTree σ) (paths : List (List σ)) (done selfs : List (Sample σ)) (size : UInt32)
    (path walked : List σ) : Prop where
  indexed : Indexed tree paths
  counted : ∀ (i : ℕ) (node : ProfileDescendantTreeNode σ) (here : List σ), tree.nodes[i]? = some node →
    paths[i]? = some here → Counted done selfs size path walked here node

/-- There is a path for everything that was visited, and for nothing else. -/
def Walked (paths : List (List σ)) (done : List (Sample σ)) (walked : List σ) : Prop :=
  ∀ here, here ∈ paths ↔ here ≠ [] ∧ ((∃ trace ∈ done, Visits trace.1 here) ∨ Visits walked here)

theorem Walked.nodup {paths : List (List σ)} {done : List (Sample σ)} {walked here : List σ}
    (covers : Walked paths done walked) (member : here ∈ paths) : here.Nodup := by
  obtain ⟨_, ⟨trace, _, visits⟩ | visits⟩ := (covers here).mp member
  · exact visits.nodup
  · exact visits.nodup

section Trie

variable {tree : ProfileDescendantTree σ} {paths : List (List σ)} {done selfs : List (Sample σ)} {size : UInt32}
  {path walked : List σ}

/-- The path is left at its last node. -/
theorem Trie.takeBack {outer : List σ} {symbol : σ} (trie : Trie tree paths done selfs size (outer ++ [symbol]) walked)
    {i : ℕ} {node : ProfileDescendantTreeNode σ} (held : tree.nodes[i]? = some node)
    (here : paths[i]? = some (outer ++ [symbol])) :
    Trie (tree.set i { node with
      nonRecursion := node.nonRecursion - size
      markedNonRecursive := node.markedNonRecursive - 1 }) paths done selfs size outer walked where
  indexed := trie.indexed.set held rfl rfl rfl
  counted j other there found spelled := by
    have longer := not_concat_prefix outer symbol
    rcases trie.indexed.set_cases held here found spelled with ⟨rfl, rfl⟩ | ⟨different, found⟩
    · obtain ⟨self, nonRecursion, total, markedNonRecursive, markedTotal⟩ := trie.counted i node _ held here
      rw [if_pos List.prefix_rfl] at nonRecursion markedNonRecursive
      refine ⟨self, ?_, total, ?_, markedTotal⟩
      · rw [nonRecursion, if_neg longer, UInt32.add_sub_cancel, add_zero]
      · rw [markedNonRecursive, if_neg longer]
        rfl
    · obtain ⟨self, nonRecursion, total, markedNonRecursive, markedTotal⟩ := trie.counted j other there found spelled
      simp only [prefix_concat_iff_of_ne different] at nonRecursion markedNonRecursive
      exact ⟨self, nonRecursion, total, markedNonRecursive, markedTotal⟩

/-- The walk comes to the next node of its path. -/
theorem Trie.charge {outer : List σ} {symbol : σ} (trie : Trie tree paths done done size outer walked)
    (erased : loopErasure (walked ++ [symbol]) = outer ++ [symbol]) {i : ℕ} {node : ProfileDescendantTreeNode σ}
    (held : tree.nodes[i]? = some node) (here : paths[i]? = some (outer ++ [symbol])) (last : Bool) :
    Trie (tree.set i (chargeDescendant size last node)) paths done
      (if last then done ++ [(walked ++ [symbol], size)] else done) size (outer ++ [symbol]) (walked ++ [symbol]) where
  indexed := trie.indexed.set held rfl rfl rfl
  counted j other there found spelled := by
    rcases trie.indexed.set_cases held here found spelled with ⟨rfl, rfl⟩ | ⟨different, found⟩
    · have longer := not_concat_prefix outer symbol
      have arrived : Visits (walked ++ [symbol]) (outer ++ [symbol]) := visits_concat.mpr (.inr erased.symm)
      obtain ⟨self, nonRecursion, total, markedNonRecursive, markedTotal⟩ := trie.counted i node _ held here
      rw [if_neg longer] at nonRecursion markedNonRecursive
      rw [add_zero] at nonRecursion
      refine ⟨?_, ?_, ?_, ?_, ?_⟩
      · cases last with
        | true => simp only [chargeDescendant, if_true, weight_concat, self, erased]
        | false => exact self
      · simp only [chargeDescendant, markedNonRecursive, nonRecursion, List.prefix_rfl, if_true]
      · rw [if_pos arrived]
        by_cases again : Visits walked (outer ++ [symbol])
        · rw [if_pos again] at total
          simp only [chargeDescendant, markedTotal.mpr again, if_true, total]
        · have unmarked : ¬ node.markedTotal = true := fun marked => again (markedTotal.mp marked)
          rw [if_neg again, add_zero] at total
          simp only [chargeDescendant, unmarked, Bool.false_eq_true, if_false, total]
      · simp only [chargeDescendant, markedNonRecursive, List.prefix_rfl, if_true, zero_add]
      · simp only [chargeDescendant, arrived]
    · have visits : Visits (walked ++ [symbol]) there ↔ Visits walked there := by
        rw [visits_concat, erased]
        exact or_iff_left different
      obtain ⟨self, nonRecursion, total, markedNonRecursive, markedTotal⟩ := trie.counted j other there found spelled
      refine ⟨?_, ?_, ?_, ?_, ?_⟩
      · split
        · rw [weight_concat, if_neg (by rw [erased]; exact Ne.symm different), add_zero, self]
        · exact self
      · simp only [prefix_concat_iff_of_ne different, nonRecursion]
      · simp only [visits, total]
      · simp only [prefix_concat_iff_of_ne different, markedNonRecursive]
      · rw [visits, markedTotal]

/-- Nothing is above the roots. -/
theorem Trie.stop_of_root (trie : Trie tree paths done selfs size path walked) {stop : Option ℕ}
    (insideStop : ∀ i ∈ stop, i < tree.nodes.length) (inside : ∀ i ∈ (none : Option ℕ), i < tree.nodes.length)
    (at_start : pathOf paths none = path) (below : pathOf paths stop <+: path) : stop = none := by
  refine trie.indexed.owner_injective insideStop inside ?_
  rw [← at_start] at below
  exact List.prefix_nil.mp below

/-- The loop that leaves a path leaves the nodes below `stop`. -/
theorem takeBack_ok (trie : Trie tree paths done selfs size path walked) {fuel : ℕ} {start stop : Option ℕ}
    (enough : ∀ i ∈ start, i < fuel) (inside : ∀ i ∈ start, i < tree.nodes.length)
    (insideStop : ∀ i ∈ stop, i < tree.nodes.length) (at_start : pathOf paths start = path)
    (below : pathOf paths stop <+: path) :
    ∃ later, takeBack size stop fuel start tree = .ok later ∧ later.nodes.length = tree.nodes.length ∧
      Trie later paths done selfs size (pathOf paths stop) walked := by
  induction fuel generalizing start tree path with
  | zero =>
    cases start with
    | some i => exact absurd (enough i rfl) (Nat.not_lt_zero i)
    | none =>
      cases trie.stop_of_root insideStop inside at_start below
      exact ⟨tree, rfl, rfl, at_start.symm ▸ trie⟩
  | succ fuel inductionHypothesis =>
    cases start with
    | none =>
      cases trie.stop_of_root insideStop inside at_start below
      exact ⟨tree, rfl, rfl, at_start.symm ▸ trie⟩
    | some i =>
      by_cases ended : some i = stop
      · subst ended
        rw [takeBack, if_pos rfl]
        exact ⟨tree, rfl, rfl, at_start.symm ▸ trie⟩
      · -- The node at `i` is left, and the loop goes on from its parent.
        obtain ⟨node, held⟩ : ∃ node, tree.nodes[i]? = some node := ⟨_, List.getElem?_eq_getElem (inside i rfl)⟩
        have here := trie.indexed.path i node held
        have spelled : path = pathOf paths node.parent ++ [node.symbol] := by rw [← at_start, pathOf_some here]; rfl
        have belowParent : pathOf paths stop <+: pathOf paths node.parent := by
          rw [spelled] at below
          cases List.prefix_concat_iff.mp below with
          | inr inner => exact inner
          | inl whole =>
            refine absurd (trie.indexed.owner_injective inside insideStop ?_) ended
            rw [at_start, spelled, whole]
        have enoughParent : ∀ p ∈ node.parent, p < fuel := by
          intro p isParent
          have before := trie.indexed.older i node p held isParent
          have := enough i rfl
          omega
        subst spelled
        have left := trie.takeBack held here
        rw [takeBack, if_neg ended]
        simp only [fetch, held, ok_bind]
        have length : ∀ node' : ProfileDescendantTreeNode σ, (tree.set i node').nodes.length = tree.nodes.length :=
          fun node' => by rw [Forest.set, List.length_set]
        obtain ⟨later, ran, lengthLater, trieLater⟩ := inductionHypothesis left enoughParent
          (fun p isParent => by rw [length]; exact trie.indexed.parent_lt held p isParent)
          (fun p isStop => by rw [length]; exact insideStop p isStop) rfl belowParent
        exact ⟨later, ran, lengthLater.trans (length _), trieLater⟩

/-- The table of the symbols on a path. -/
def Listed (paths : List (List σ)) (path : List σ) (seenSymbols : HashTable σ ℕ) : Prop :=
  ∀ (symbol : σ) (i : ℕ), seenSymbols.lookup symbol = some i ↔
    ∃ outer, outer ++ [symbol] <+: path ∧ paths[i]? = some (outer ++ [symbol])

theorem pathSymbols_loop (indexed : Indexed tree paths) {start : Option ℕ} {list : List ℕ}
    (chain : Chain tree.nodes ProfileDescendantTreeNode.parent start list) (distinct : (pathOf paths start).Nodup)
    (seenSymbols : HashTable σ ℕ) :
    ∃ later, list.foldlM (fun seenSymbols j => do
        let node ← fetch tree j
        .ok (seenSymbols.insert node.symbol j)) seenSymbols = (.ok later : Except Fault (HashTable σ ℕ)) ∧
      ∀ (symbol : σ) (i : ℕ), later.lookup symbol = some i ↔
        (∃ outer, outer ++ [symbol] <+: pathOf paths start ∧ paths[i]? = some (outer ++ [symbol])) ∨
          symbol ∉ pathOf paths start ∧ seenSymbols.lookup symbol = some i := by
  induction chain generalizing seenSymbols with
  | nil => exact ⟨seenSymbols, rfl, fun symbol i => by simp [pathOf]⟩
  | @cons j node rest held _ inductionHypothesis =>
    have here := indexed.path j node held
    have spelled : pathOf paths (some j) = pathOf paths node.parent ++ [node.symbol] := pathOf_some here
    rw [spelled] at distinct ⊢
    obtain ⟨distinctParent, _, apart⟩ := List.nodup_append.mp distinct
    have fresh : node.symbol ∉ pathOf paths node.parent := fun member => apart _ member _ (by simp) rfl
    obtain ⟨later, ran, listing⟩ := inductionHypothesis distinctParent (seenSymbols.insert node.symbol j)
    refine ⟨later, ?_, fun symbol i => ?_⟩
    · simp only [List.foldlM_cons, fetch, held, ok_bind]
      exact ran
    · rw [listing]
      by_cases same : symbol = node.symbol
      · subst same
        rw [AList.lookup_insert]
        constructor
        · rintro (⟨outer, below, _⟩ | ⟨_, atI⟩)
          · exact absurd (below.subset (by simp)) fresh
          · cases atI
            exact .inl ⟨_, List.prefix_rfl, here⟩
        · rintro (⟨outer, below, atI⟩ | ⟨outside, _⟩)
          · cases List.prefix_concat_iff.mp below with
            | inl whole =>
              rw [whole] at atI
              rw [indexed.injective atI here]
              exact .inr ⟨fresh, rfl⟩
            | inr inner => exact absurd (inner.subset (by simp)) fresh
          · exact absurd (by simp) outside
      · rw [AList.lookup_insert_ne same]
        have outside : symbol ∉ pathOf paths node.parent ↔ symbol ∉ pathOf paths node.parent ++ [node.symbol] := by
          simp [same]
        rw [outside]
        refine or_congr_left (exists_congr fun outer => and_congr_left fun _ => ?_)
        have different : outer ++ [symbol] ≠ pathOf paths node.parent ++ [node.symbol] := fun whole =>
          same (List.singleton_inj.mp (List.append_inj' whole rfl).2)
        exact (prefix_concat_iff_of_ne different).symm

theorem pathSymbols_ok (indexed : Indexed tree paths) {i : ℕ} {here : List σ} (at_i : paths[i]? = some here)
    (distinct : here.Nodup) : ∃ seenSymbols, pathSymbols tree i = .ok seenSymbols ∧ Listed paths here seenSymbols := by
  obtain ⟨node, held⟩ := indexed.node_of_path at_i
  have inside : ∀ j ∈ some i, j < tree.nodes.length := by
    rintro j ⟨⟩
    exact (List.getElem?_eq_some_iff.mp held).1
  obtain ⟨list, chain, _⟩ := exists_chain indexed.older inside
  have spelled : pathOf paths (some i) = here := pathOf_some at_i
  rw [← spelled] at distinct
  obtain ⟨seenSymbols, ran, listing⟩ := pathSymbols_loop indexed chain distinct ∅
  have walkedUp : walk tree.nodes ProfileDescendantTreeNode.parent tree.nodes.length (some i) = some list :=
    walk_eq chain chain.length_le
  rw [spelled] at listing
  refine ⟨seenSymbols, ?_, fun symbol j => (listing symbol j).trans (or_iff_left fun both => ?_)⟩
  · simp only [pathSymbols, walkedUp]
    exact ran
  · rw [AList.lookup_empty] at both
    cases both.2

theorem loopErasure_ne_nil (walked : List σ) (symbol : σ) : loopErasure (walked ++ [symbol]) ≠ [] := by
  obtain ⟨outer, _, cut⟩ := exists_erase (loopErasure walked) symbol
  rw [loopErasure_concat, cut]
  simp

theorem Walked.known (covers : Walked paths done walked) {symbol : σ}
    (member : loopErasure (walked ++ [symbol]) ∈ paths) : Walked paths done (walked ++ [symbol]) := by
  intro here
  rw [visits_concat]
  constructor
  · intro listed
    obtain ⟨nonempty, before⟩ := (covers here).mp listed
    exact ⟨nonempty, before.imp_right .inl⟩
  · rintro ⟨nonempty, before | before | rfl⟩
    · exact (covers here).mpr ⟨nonempty, .inl before⟩
    · exact (covers here).mpr ⟨nonempty, .inr before⟩
    · exact member

theorem Walked.concat (covers : Walked paths done walked) (symbol : σ) :
    Walked (paths ++ [loopErasure (walked ++ [symbol])]) done (walked ++ [symbol]) := by
  intro here
  rw [visits_concat, List.mem_append, List.mem_singleton, covers]
  constructor
  · rintro (⟨nonempty, before⟩ | rfl)
    · exact ⟨nonempty, before.imp_right .inl⟩
    · exact ⟨loopErasure_ne_nil walked symbol, .inr (.inr rfl)⟩
  · rintro ⟨nonempty, before | before | same⟩
    · exact .inl ⟨nonempty, .inl before⟩
    · exact .inl ⟨nonempty, .inr before⟩
    · exact .inr same

/-- The lists of what is marked. -/
structure Marks (paths : List (List σ)) (path walked : List σ) (nodesToUnmark nodesToUnmarkRecursive : List ℕ) :
    Prop where
  nonRecursive : ∀ (i : ℕ) (here : List σ), paths[i]? = some here → here <+: path → i ∈ nodesToUnmark
  total : ∀ (i : ℕ) (here : List σ), paths[i]? = some here → Visits walked here → i ∈ nodesToUnmarkRecursive
  inside : ∀ i ∈ nodesToUnmark, i < paths.length
  insideRecursive : ∀ i ∈ nodesToUnmarkRecursive, i < paths.length

/-- The loop of `add_trace_to_tree` after it has walked along `walked`. -/
structure Walking (state : TraceState σ) (paths : List (List σ)) (done selfs : List (Sample σ)) (size : UInt32)
    (walked : List σ) : Prop where
  trie : Trie state.tree paths done selfs size (loopErasure walked) walked
  covers : Walked paths done walked
  inside : ∀ p ∈ state.parent, p < state.tree.nodes.length
  parent : pathOf paths state.parent = loopErasure walked
  listed : Listed paths (loopErasure walked) state.seenSymbols
  marks : Marks paths (loopErasure walked) walked state.nodesToUnmark state.nodesToUnmarkRecursive

/-- What there is of the node for the next symbol: it is at the end of the erased path, and
the other symbols on that path are in the table. -/
structure Matched (state : TraceState σ) (i : ℕ) (paths : List (List σ)) (done : List (Sample σ)) (size : UInt32)
    (walked outer : List σ) (symbol : σ) : Prop where
  erased : loopErasure (walked ++ [symbol]) = outer ++ [symbol]
  trie : Trie state.tree paths done done size outer walked
  covers : Walked paths done (walked ++ [symbol])
  here : paths[i]? = some (outer ++ [symbol])
  listed : ∀ (other : σ) (j : ℕ), other ≠ symbol → (state.seenSymbols.lookup other = some j ↔
    ∃ upper, upper ++ [other] <+: outer ∧ paths[j]? = some (upper ++ [other]))
  marks : Marks paths outer walked state.nodesToUnmark state.nodesToUnmarkRecursive

variable {state : TraceState σ} {symbol : σ}

/-- A child of the last node. -/
theorem Walking.child (walking : Walking state paths done done size walked) {i : ℕ}
    (here : paths[i]? = some (pathOf paths state.parent ++ [symbol])) :
    Matched state i paths done size walked (loopErasure walked) symbol := by
  rw [walking.parent] at here
  -- No path repeats a symbol.
  have distinct := walking.covers.nodup (List.mem_of_getElem? here)
  have fresh : symbol ∉ loopErasure walked := fun member =>
    (List.nodup_append.mp distinct).2.2 symbol member symbol (by simp) rfl
  have erased : loopErasure (walked ++ [symbol]) = loopErasure walked ++ [symbol] := by
    rw [loopErasure_concat, erase_of_notMem fresh]
  exact ⟨erased, walking.trie, walking.covers.known (erased ▸ List.mem_of_getElem? here), here,
    fun other j _ => walking.listed other j, walking.marks⟩

/-- A symbol that has not been seen is not on the path. -/
theorem Walking.notMem_of_unseen (walking : Walking state paths done done size walked)
    (unseen : state.seenSymbols.lookup symbol = none) : symbol ∉ loopErasure walked := by
  intro member
  obtain ⟨outer, inner, spelled⟩ := List.append_of_mem member
  have below : outer ++ [symbol] <+: loopErasure walked := ⟨inner, by rw [spelled]; simp⟩
  have known : outer ++ [symbol] ∈ paths := (walking.covers _).mpr ⟨by simp, .inr (visits_of_below below)⟩
  obtain ⟨j, here⟩ := List.mem_iff_getElem?.mp known
  rw [(walking.listed symbol j).mpr ⟨outer, below, here⟩] at unseen
  cases unseen

/-- Nothing has been where the tree has no node. -/
theorem Walking.not_visits (walking : Walking state paths done done size walked) {path : List σ} (nonempty : path ≠ [])
    (fresh : path ∉ paths) : (∀ trace ∈ done, ¬ Visits trace.1 path) ∧ ¬ Visits walked path :=
  ⟨fun trace member visits => fresh ((walking.covers path).mpr ⟨nonempty, .inl ⟨trace, member, visits⟩⟩),
    fun visits => fresh ((walking.covers path).mpr ⟨nonempty, .inr visits⟩)⟩

/-- No trace has been where there is no node, so the zeros of a new one are what it counts. -/
theorem Walking.counted_add (walking : Walking state paths done done size walked) {node : ProfileDescendantTreeNode σ}
    (empty : node = { symbol := node.symbol, parent := node.parent }) {new : List σ} (nonempty : new ≠ [])
    (fresh : new ∉ paths) (beyond : ¬ new <+: loopErasure walked) {i : ℕ} {other : ProfileDescendantTreeNode σ}
    {here : List σ} (held : (state.tree.add node).1.nodes[i]? = some other) (found : (paths ++ [new])[i]? = some here) :
    Counted done done size (loopErasure walked) walked here other := by
  obtain ⟨nothing, unvisited⟩ := walking.not_visits nonempty fresh
  rcases getElem?_add_cases held with ⟨rfl, rfl⟩ | ⟨inside, before, heldBefore, rfl⟩
  · rw [← walking.trie.indexed.length, List.getElem?_concat_length, Option.some.injEq] at found
    subst found
    rw [empty]
    refine ⟨?_, ?_, ?_, ?_, ?_⟩
    · have nothingErased : ∀ trace ∈ done, ¬ loopErasure trace.1 = new :=
        fun trace member same => nothing trace member (same ▸ visits_loopErasure trace.1)
      rw [weight_eq_zero nothingErased]
    · rw [weight_eq_zero fun trace member below => nothing trace member (visits_of_below below), if_neg beyond]
      rfl
    · rw [weight_eq_zero nothing, if_neg unvisited]
      rfl
    · rw [if_neg beyond]
    · simp [unvisited]
  · rw [List.getElem?_append_left (by rw [walking.trie.indexed.length]; exact inside)] at found
    obtain ⟨self, nonRecursion, total, markedNonRecursive, markedTotal⟩ :=
      walking.trie.counted i before here heldBefore found
    split
    · exact ⟨self, nonRecursion, total, markedNonRecursive, markedTotal⟩
    · exact ⟨self, nonRecursion, total, markedNonRecursive, markedTotal⟩

/-- A new child of the last node. -/
theorem Walking.newChild (walking : Walking state paths done done size walked)
    (unseen : state.seenSymbols.lookup symbol = none)
    (fresh : pathOf paths state.parent ++ [symbol] ∉ paths) :
    Matched { state with tree := (state.tree.add { symbol := symbol, parent := state.parent }).1 }
      (state.tree.add { symbol := symbol, parent := state.parent }).2 (paths ++ [loopErasure walked ++ [symbol]]) done
      size walked (loopErasure walked) symbol := by
  have erased : loopErasure (walked ++ [symbol]) = loopErasure walked ++ [symbol] := by
    rw [loopErasure_concat, erase_of_notMem (walking.notMem_of_unseen unseen)]
  rw [walking.parent] at fresh
  obtain ⟨node, spelled⟩ : ∃ node : ProfileDescendantTreeNode σ, node = { symbol := symbol, parent := state.parent } :=
    ⟨_, rfl⟩
  have symbolNode : TreeNode.symbol node = symbol := by rw [spelled]; rfl
  have parentNode : TreeNode.parent node = state.parent := by rw [spelled]; rfl
  have pathNode : pathOf paths (TreeNode.parent node) ++ [TreeNode.symbol node] = loopErasure walked ++ [symbol] := by
    rw [symbolNode, parentNode, walking.parent]
  have indexed : Indexed (state.tree.add node).1 (paths ++ [loopErasure walked ++ [symbol]]) := by
    rw [← pathNode]
    exact walking.trie.indexed.add (by rw [spelled]; rfl) (by rw [parentNode]; exact walking.inside)
      (by rw [pathNode]; exact fresh)
  have longer := not_concat_prefix (loopErasure walked) symbol
  obtain ⟨_, unvisited⟩ := walking.not_visits (by simp) fresh
  -- What is on the path or was visited is not new.
  have old : ∀ {j : ℕ} {there : List σ}, (paths ++ [loopErasure walked ++ [symbol]])[j]? = some there →
      there ≠ loopErasure walked ++ [symbol] → paths[j]? = some there := by
    intro j there found different
    cases getElem?_concat_iff.mp found with
    | inl here => exact here
    | inr last => exact absurd last.2.symm different
  rw [← spelled]
  refine ⟨erased, ⟨indexed, ?_⟩, ?_, ?_, ?_, ?_, ?_, ?_, ?_⟩
  · intro j other there held found
    exact walking.counted_add (by rw [spelled]) (List.concat_ne_nil _ _) fresh longer held found
  · rw [← erased]
    exact walking.covers.concat symbol
  · rw [add_snd, ← walking.trie.indexed.length, List.getElem?_concat_length]
  · intro other j different
    rw [walking.listed]
    refine exists_congr fun upper => and_congr_right fun below => ?_
    have notNew : upper ++ [other] ≠ loopErasure walked ++ [symbol] := by
      intro same
      rw [same] at below
      exact longer below
    exact ⟨fun here => by rw [getElem?_concat_iff]; exact .inl here, fun here => old here notNew⟩
  · exact fun j there found below =>
      walking.marks.nonRecursive j there (old found fun same => longer (same ▸ below)) below
  · exact fun j there found visits =>
      walking.marks.total j there (old found fun same => unvisited (same ▸ visits)) visits
  · exact fun j member => by
      rw [List.length_append]
      exact Nat.lt_add_right _ (walking.marks.inside j member)
  · exact fun j member => by
      rw [List.length_append]
      exact Nat.lt_add_right _ (walking.marks.insideRecursive j member)

/-- A symbol that is on the path. -/
theorem Walking.foldBack (walking : Walking state paths done done size walked) {seen : ℕ}
    (found : state.seenSymbols.lookup symbol = some seen) :
    ∃ later outer, foldBack size state seen = .ok later ∧ Matched later seen paths done size walked outer symbol := by
  obtain ⟨outer, below, here⟩ := (walking.listed symbol seen).mp found
  obtain ⟨inner, spelled⟩ := below
  have distinct : (outer ++ [symbol]).Nodup := walking.covers.nodup (List.mem_of_getElem? here)
  have fresh : symbol ∉ outer := fun member => (List.nodup_append.mp distinct).2.2 symbol member symbol (by simp) rfl
  have erased : loopErasure (walked ++ [symbol]) = outer ++ [symbol] := by
    rw [loopErasure_concat, ← spelled, List.append_assoc, List.singleton_append, erase_of_append fresh]
  obtain ⟨node, held⟩ := walking.trie.indexed.node_of_path here
  have upper : pathOf paths node.parent = outer := (walking.trie.indexed.split held here).2
  have within : outer <+: loopErasure walked := ⟨[symbol] ++ inner, by rw [← spelled, List.append_assoc]⟩
  have started : state.parent ≠ none := by
    intro empty
    have path := walking.parent
    rw [empty, ← spelled] at path
    simp [pathOf] at path
  have insideTree : ∀ p ∈ node.parent, p < state.tree.nodes.length := walking.trie.indexed.parent_lt held
  obtain ⟨tree, ran, length, trie⟩ :=
    takeBack_ok walking.trie walking.inside walking.inside insideTree walking.parent (by rw [upper]; exact within)
  obtain ⟨seenSymbols, ranSymbols, listed⟩ := pathSymbols_ok trie.indexed here distinct
  rw [upper] at trie
  refine ⟨{ state with
    tree := tree
    seenSymbols := seenSymbols }, outer, ?_, erased, trie, walking.covers.known (erased ▸ List.mem_of_getElem? here),
    here, ?_, ?_⟩
  · simp only [Memprof.foldBack, started, if_false, fetch, held, ok_bind, ran, ranSymbols]
  · intro other j different
    rw [listed other j]
    refine exists_congr fun upper => and_congr_left fun _ => prefix_concat_iff_of_ne fun same => ?_
    exact different (List.singleton_inj.mp (List.append_inj' same rfl).2)
  · exact ⟨fun j there found below => walking.marks.nonRecursive j there found (below.trans within), walking.marks.total,
      walking.marks.inside, walking.marks.insideRecursive⟩

theorem matchDescendant_ok (walking : Walking state paths done done size walked) (symbol : σ) :
    ∃ later i paths' outer, matchDescendant size state symbol = .ok (later, i) ∧
      Matched later i paths' done size walked outer symbol := by
  obtain ⟨found, ran, spec⟩ := matchChild_ok walking.trie.indexed walking.inside symbol
  unfold matchDescendant
  rw [ran, ok_bind]
  cases found with
  | some i => exact ⟨state, i, paths, _, rfl, walking.child ((spec i).mp rfl)⟩
  | none =>
    cases found : state.seenSymbols.lookup symbol with
    | some seen =>
      obtain ⟨later, outer, folded, matched⟩ := walking.foldBack found
      simp only [folded, ok_bind]
      exact ⟨later, seen, paths, outer, rfl, matched⟩
    | none =>
      have fresh : pathOf paths state.parent ++ [symbol] ∉ paths := by
        intro member
        obtain ⟨i, here⟩ := List.mem_iff_getElem?.mp member
        cases (spec i).mpr here
      exact ⟨_, _, _, _, rfl, walking.newChild found fresh⟩

/-- The table of the symbols on the path, with the new one. -/
theorem Matched.listed_concat {i : ℕ} {outer : List σ} (matched : Matched state i paths done size walked outer symbol)
    (other : σ) (j : ℕ) : (state.seenSymbols.insert symbol i).lookup other = some j ↔
      ∃ upper, upper ++ [other] <+: outer ++ [symbol] ∧ paths[j]? = some (upper ++ [other]) := by
  have distinct : (outer ++ [symbol]).Nodup := matched.erased ▸ nodup_loopErasure _
  by_cases same : other = symbol
  · subst same
    rw [AList.lookup_insert]
    constructor
    · rintro ⟨⟩
      exact ⟨outer, List.prefix_rfl, matched.here⟩
    · rintro ⟨upper, below, there⟩
      cases List.prefix_concat_iff.mp below with
      | inl whole =>
        rw [whole] at there
        rw [matched.trie.indexed.injective there matched.here]
      | inr inner =>
        exact absurd rfl ((List.nodup_append.mp distinct).2.2 other (inner.subset (by simp)) other (by simp))
  · rw [AList.lookup_insert_ne same, matched.listed other j same]
    refine exists_congr fun upper => and_congr_left fun _ => (prefix_concat_iff_of_ne fun whole => ?_).symm
    exact same (List.singleton_inj.mp (List.append_inj' whole rfl).2)

/-- The node is to be unmarked, and once only. -/
theorem Matched.marks_concat {i : ℕ} {outer : List σ} (matched : Matched state i paths done size walked outer symbol)
    {node : ProfileDescendantTreeNode σ} (held : state.tree.nodes[i]? = some node) :
    Marks paths (outer ++ [symbol]) (walked ++ [symbol]) (i :: state.nodesToUnmark)
      (if node.markedTotal = true then state.nodesToUnmarkRecursive else i :: state.nodesToUnmarkRecursive) := by
  have counted := matched.trie.counted i node _ held matched.here
  have insideI : i < paths.length := (List.getElem?_eq_some_iff.mp matched.here).1
  refine ⟨?_, ?_, ?_, ?_⟩
  · intro j there found below
    cases List.prefix_concat_iff.mp below with
    | inl whole => exact List.mem_cons.mpr (.inl (matched.trie.indexed.injective (whole ▸ found) matched.here))
    | inr inner => exact List.mem_cons_of_mem _ (matched.marks.nonRecursive j there found inner)
  · intro j there found visits
    rw [visits_concat, matched.erased] at visits
    by_cases marked : node.markedTotal = true
    · rw [if_pos marked]
      cases visits with
      | inl before => exact matched.marks.total j there found before
      | inr arrived =>
        subst arrived
        exact matched.marks.total j _ found (counted.markedTotal.mp marked)
    · rw [if_neg marked]
      cases visits with
      | inl before => exact List.mem_cons_of_mem _ (matched.marks.total j there found before)
      | inr arrived => exact List.mem_cons.mpr (.inl (matched.trie.indexed.injective (arrived ▸ found) matched.here))
  · intro j member
    cases List.mem_cons.mp member with
    | inl same => exact same ▸ insideI
    | inr old => exact matched.marks.inside j old
  · intro j member
    split at member
    · exact matched.marks.insideRecursive j member
    · cases List.mem_cons.mp member with
      | inl same => exact same ▸ insideI
      | inr old => exact matched.marks.insideRecursive j old

theorem addTraceNode_ok (walking : Walking state paths done done size walked) (symbol : σ) (last : Bool) :
    ∃ later paths', addTraceNode size state symbol last = .ok later ∧
      Walking later paths' done (if last then done ++ [(walked ++ [symbol], size)] else done) size
        (walked ++ [symbol]) := by
  obtain ⟨next, i, paths', outer, ran, matched⟩ := matchDescendant_ok walking symbol
  obtain ⟨node, held⟩ := matched.trie.indexed.node_of_path matched.here
  have counted := matched.trie.counted i node _ held matched.here
  have longer := not_concat_prefix outer symbol
  have unmarked : node.markedNonRecursive = 0 := by rw [counted.markedNonRecursive, if_neg longer]
  simp only [addTraceNode, ran, ok_bind, fetch, held, unmarked, if_true]
  refine ⟨_, paths', rfl, ?_, matched.covers, ?_, ?_, ?_, ?_⟩
  · rw [matched.erased]
    exact matched.trie.charge matched.erased held matched.here last
  · rintro p ⟨⟩
    rw [Forest.set, List.length_set]
    exact (List.getElem?_eq_some_iff.mp held).1
  · rw [matched.erased]
    exact pathOf_some matched.here
  · rw [matched.erased]
    exact matched.listed_concat
  · rw [matched.erased]
    exact matched.marks_concat held

theorem addTraceNodes_ok {symbols : List σ} (nonempty : symbols ≠ [])
    (walking : Walking state paths done done size walked) :
    ∃ later paths', addTraceNodes size state symbols = .ok later ∧
      Walking later paths' done (done ++ [(walked ++ symbols, size)]) size (walked ++ symbols) := by
  induction symbols generalizing state paths walked with
  | nil => exact absurd rfl nonempty
  | cons symbol rest inductionHypothesis =>
    obtain ⟨next, paths', ran, walkingNext⟩ := addTraceNode_ok walking symbol rest.isEmpty
    rw [addTraceNodes, ran, ok_bind]
    cases rest with
    | nil => exact ⟨next, paths', rfl, walkingNext⟩
    | cons symbol' rest =>
      obtain ⟨later, paths'', ranRest, walkingLater⟩ := inductionHypothesis (List.cons_ne_nil _ _) walkingNext
      rw [List.append_assoc, List.singleton_append] at walkingLater
      exact ⟨later, paths'', ranRest, walkingLater⟩

end Trie

/-! ## Traces that have been added -/

section Rest

variable {tree : ProfileDescendantTree σ} {paths : List (List σ)} {traces : List (Sample σ)}

/-- The tree between two traces: nothing is marked. -/
structure Rest (tree : ProfileDescendantTree σ) (paths : List (List σ)) (traces : List (Sample σ)) : Prop where
  trie : Trie tree paths traces traces 0 [] []
  covers : Walked paths traces []

omit [DecidableEq σ] in
/-- A loop that updates what the nodes of a list hold. -/
theorem updates_ok {step : ProfileDescendantTree σ → ℕ → Except Fault (ProfileDescendantTree σ)}
    {update : ProfileDescendantTreeNode σ → ProfileDescendantTreeNode σ}
    (once : ∀ tree i node, tree.nodes[i]? = some node → step tree i = .ok (tree.set i (update node)))
    (again : ∀ node, update (update node) = update node) (symbol : ∀ node, (update node).symbol = node.symbol)
    (parent : ∀ node, (update node).parent = node.parent) (children : ∀ node, (update node).children = node.children)
    (indexed : Indexed tree paths) {list : List ℕ} (inside : ∀ i ∈ list, i < paths.length) :
    ∃ later, list.foldlM step tree = .ok later ∧ Indexed later paths ∧
      ∀ (j : ℕ) (node : ProfileDescendantTreeNode σ), later.nodes[j]? = some node →
        ∃ before, tree.nodes[j]? = some before ∧ node = if j ∈ list then update before else before := by
  induction list generalizing tree with
  | nil => exact ⟨tree, rfl, indexed, fun j node held => ⟨node, held, by simp⟩⟩
  | cons i list inductionHypothesis =>
    have insideI := inside i (by simp)
    rw [indexed.length] at insideI
    obtain ⟨node, held⟩ : ∃ node, tree.nodes[i]? = some node := ⟨_, List.getElem?_eq_getElem insideI⟩
    have next := indexed.set held (symbol node) (parent node) (children node)
    obtain ⟨later, ran, indexedLater, nodes⟩ := inductionHypothesis next fun j member => inside j (by simp [member])
    rw [List.foldlM_cons, once tree i node held, ok_bind]
    refine ⟨later, ran, indexedLater, fun j other heldLater => ?_⟩
    obtain ⟨before, heldBefore, spelled⟩ := nodes j other heldLater
    rw [getElem?_set held] at heldBefore
    by_cases same : j = i
    · subst same
      rw [if_pos rfl, Option.some.injEq] at heldBefore
      subst heldBefore
      refine ⟨node, held, ?_⟩
      rw [spelled, if_pos (List.mem_cons_self ..)]
      split
      · exact again node
      · rfl
    · rw [if_neg same] at heldBefore
      refine ⟨before, heldBefore, ?_⟩
      rw [spelled]
      simp [same]

theorem Rest.walking (rest : Rest tree paths traces) (size : UInt32) :
    Walking { tree := tree } paths traces traces size [] := by
  have off : ∀ {i : ℕ} {here : List σ}, paths[i]? = some here → ¬ here <+: [] ∧ ¬ Visits [] here := by
    intro i here found
    have nonempty := rest.trie.indexed.ne_nil found
    exact ⟨fun below => nonempty (List.prefix_nil.mp below), fun visits => nonempty (visits_nil.mp visits)⟩
  refine ⟨⟨rest.trie.indexed, ?_⟩, rest.covers, by simp, rfl, ?_, ?_⟩
  · intro i node here held found
    obtain ⟨self, nonRecursion, total, markedNonRecursive, markedTotal⟩ := rest.trie.counted i node here held found
    rw [if_neg (off found).1] at nonRecursion markedNonRecursive
    rw [if_neg (off found).2] at total
    rw [loopErasure_nil]
    exact ⟨self, by rw [nonRecursion, if_neg (off found).1], by rw [total, if_neg (off found).2],
      by rw [markedNonRecursive, if_neg (off found).1], markedTotal⟩
  · intro symbol i
    simp
  · exact ⟨fun i here found below => absurd below (off found).1, fun i here found visits => absurd visits (off found).2,
      by simp, by simp⟩

theorem addTraceToTree_ok (rest : Rest tree paths traces) {trace : List (ProfileNode σ)} {symbols : List σ}
    (spelled : trace.map ProfileNode.symbol = symbols) (nonempty : symbols ≠ []) (size : UInt32) :
    ∃ later paths', addTraceToTree tree trace size = .ok later ∧ Rest later paths' (traces ++ [(symbols, size)]) := by
  obtain ⟨state, paths', ran, walkingLater⟩ := addTraceNodes_ok nonempty (rest.walking size)
  rw [List.nil_append] at walkingLater
  obtain ⟨trie, covers, _, _, _, marks⟩ := walkingLater
  obtain ⟨unmarked, ranUnmark, indexedUnmarked, nodesUnmarked⟩ :=
    @updates_ok _ state.tree paths' unmark (fun node => { node with markedNonRecursive := 0 })
      (fun tree i node held => by simp only [unmark, fetch, held, ok_bind]) (fun _ => rfl) (fun _ => rfl) (fun _ => rfl)
      (fun _ => rfl) trie.indexed state.nodesToUnmark marks.inside
  obtain ⟨later, ranRecursive, indexedLater, nodesLater⟩ :=
    @updates_ok _ unmarked paths' unmarkRecursive (fun node => { node with markedTotal := false })
      (fun tree i node held => by simp only [unmarkRecursive, fetch, held, ok_bind]) (fun _ => rfl) (fun _ => rfl)
      (fun _ => rfl) (fun _ => rfl) indexedUnmarked state.nodesToUnmarkRecursive marks.insideRecursive
  refine ⟨later, paths', ?_, ⟨indexedLater, ?_⟩, ?_⟩
  · simp only [addTraceToTree, spelled, ran, ok_bind, ranUnmark, ranRecursive]
  · intro i node here held found
    obtain ⟨middle, heldMiddle, spelledLater⟩ := nodesLater i node held
    obtain ⟨before, heldBefore, spelledMiddle⟩ := nodesUnmarked i middle heldMiddle
    obtain ⟨self, nonRecursion, total, markedNonRecursive, markedTotal⟩ := trie.counted i before here heldBefore found
    have off : ¬ here <+: [] ∧ ¬ Visits [] here :=
      ⟨fun below => trie.indexed.ne_nil found (List.prefix_nil.mp below),
        fun visits => trie.indexed.ne_nil found (visits_nil.mp visits)⟩
    -- What is not in the lists has no mark.
    have same : node.self = before.self ∧ node.nonRecursion = before.nonRecursion ∧ node.total = before.total ∧
        node.markedNonRecursive = 0 ∧ node.markedTotal = false := by
      have first : middle.self = before.self ∧ middle.nonRecursion = before.nonRecursion ∧ middle.total = before.total ∧
          middle.markedNonRecursive = 0 ∧ middle.markedTotal = before.markedTotal := by
        rw [spelledMiddle]
        split
        next => exact ⟨rfl, rfl, rfl, rfl, rfl⟩
        next unlisted =>
          have notBelow : ¬ here <+: loopErasure symbols := fun below =>
            unlisted (marks.nonRecursive i here found below)
          exact ⟨rfl, rfl, rfl, by rw [markedNonRecursive, if_neg notBelow], rfl⟩
      obtain ⟨selfMiddle, nonRecursionMiddle, totalMiddle, markedMiddle, markedTotalMiddle⟩ := first
      rw [spelledLater]
      split
      next => exact ⟨selfMiddle, nonRecursionMiddle, totalMiddle, markedMiddle, rfl⟩
      next unlisted =>
        have notVisited : ¬ before.markedTotal = true := fun marked =>
          unlisted (marks.total i here found (markedTotal.mp marked))
        exact ⟨selfMiddle, nonRecursionMiddle, totalMiddle, markedMiddle, by rw [markedTotalMiddle]; simpa using notVisited⟩
    obtain ⟨selfSame, nonRecursionSame, totalSame, unmarkedSame, unmarkedTotal⟩ := same
    refine ⟨selfSame.trans self, ?_, ?_, ?_, ?_⟩
    · rw [nonRecursionSame, nonRecursion, weight_concat, if_neg off.1, add_zero]
    · rw [totalSame, total, weight_concat, if_neg off.2, add_zero]
    · rw [unmarkedSame, if_neg off.1]
    · rw [unmarkedTotal]
      simp [off.2]
  · intro here
    rw [covers]
    refine and_congr_right fun nonempty => ?_
    have off : ¬ Visits [] here := fun visits => nonempty (visits_nil.mp visits)
    constructor
    · rintro (⟨trace, member, visits⟩ | visits)
      · exact .inl ⟨trace, List.mem_append_left _ member, visits⟩
      · exact .inl ⟨(symbols, size), by simp, visits⟩
    · rintro (⟨trace, member, visits⟩ | visits)
      · cases List.mem_append.mp member with
        | inl old => exact .inl ⟨trace, old, visits⟩
        | inr fresh =>
          rw [List.mem_singleton.mp fresh] at visits
          exact .inr visits
      · exact absurd visits off

end Rest

end Memprof.Descendants
