import Memprof.Library.Outcome
import Memprof.Library.Pool
import Memprof.NodeBlocks
import Memprof.Verified.Stash

/-! # What `stack_node_new` hands out

The `k`-th node that is handed out is at `place k`, whatever was in the memory, and nobody has
it then: the nodes of the blocks are those handed out and those of the list of cached ones.
-/

namespace Memprof.NodeBlocks

open Library StackStash

theorem nNodes_pos (model : DataModel) : 0 < nNodes model := by cases model <;> decide

/-- The place of the `k`-th node that is handed out. -/
def place (model : DataModel) : ℕ → ℕ := blockPlace (nNodes model)

theorem place_injective (model : DataModel) : Function.Injective (place model) :=
  blockPlace_injective (nNodes_pos model)

/-- The places of the nodes after the first `used` ones. -/
def freePlaces (model : DataModel) (used count : ℕ) : List ℕ := (List.range' used count).map (place model)

theorem mem_freePlaces {model : DataModel} {used count k : ℕ} :
    place model k ∈ freePlaces model used count ↔ used ≤ k ∧ k < used + count := by
  rw [freePlaces, List.mem_map_of_injective (place_injective model), List.mem_range'_1]

/-- `used` nodes are in use, and the rest of the blocks is the list of cached nodes. -/
structure Cached (model : DataModel) (used : ℕ) (memory : BlockStash) : Prop where
  blocks : memory.blocks = (List.range memory.blocks.length).map (· * nNodes model)
  length : memory.stash.nodes.length = memory.blocks.length * nNodes model
  fits : used ≤ memory.stash.nodes.length
  chain : Chain memory.stash.nodes StackNode.next memory.cachedNodes
    (freePlaces model used (memory.stash.nodes.length - used))

/-- What is not a node has not changed, nor any node that satisfies `kept`. -/
structure Keeps (kept : ℕ → Prop) (stash later : StackStash) : Prop where
  root : later.root = stash.root
  index : later.nodesByData = stash.nodesByData
  length : later.nodes.length = stash.nodes.length
  node : ∀ n, kept n → later.nodes[n]? = stash.nodes[n]?

/-! ## Making nodes -/

theorem cacheNodes_spec {memory : BlockStash} {places list : List ℕ} (distinct : places.Nodup)
    (inside : ∀ n ∈ places, n < memory.stash.nodes.length) (unused : ∀ n ∈ places, n ∉ list)
    (chain : Chain memory.stash.nodes StackNode.next memory.cachedNodes list) :
    ∃ later, places.foldlM cacheNode memory = .ok later ∧ later.blocks = memory.blocks ∧
      Keeps (· ∉ places) memory.stash later.stash ∧
      Chain later.stash.nodes StackNode.next later.cachedNodes (places.reverse ++ list) := by
  induction places generalizing memory list with
  | nil => exact ⟨memory, rfl, rfl, ⟨rfl, rfl, rfl, fun _ _ => rfl⟩, by simpa using chain⟩
  | cons n places inductionHypothesis =>
    obtain ⟨fresh, distinct⟩ := List.nodup_cons.mp distinct
    have here : n < memory.stash.nodes.length := inside n (by simp)
    have held : memory.stash.node n = .ok memory.stash.nodes[n] :=
      Stash.node_eq_ok.mpr (List.getElem?_eq_getElem here)
    have pushed := chain.push { memory.stash.nodes[n] with next := memory.cachedNodes } here (unused n (by simp)) rfl
    have apart : ∀ m ∈ places, m ∉ n :: list := by
      intro m member
      rw [List.mem_cons, not_or]
      exact ⟨fun same => fresh (same ▸ member), unused m (by simp [member])⟩
    obtain ⟨written, spelled⟩ : ∃ written : BlockStash, written = { memory with
        stash := memory.stash.setNode n { memory.stash.nodes[n] with next := memory.cachedNodes }
        cachedNodes := some n } := ⟨_, rfl⟩
    have length : written.stash.nodes.length = memory.stash.nodes.length := by simp [spelled, setNode]
    obtain ⟨later, ran, blocks, keeps, chained⟩ := @inductionHypothesis written (n :: list) distinct
      (fun m member => by rw [length]; exact inside m (by simp [member])) apart (by rw [spelled]; exact pushed)
    rw [spelled] at ran blocks keeps
    refine ⟨later, ?_, blocks, ⟨keeps.root, keeps.index, by simpa [setNode] using keeps.length, ?_⟩, ?_⟩
    · rw [List.foldlM_cons, cacheNode, held]
      exact ran
    · intro m outside
      rw [List.mem_cons, not_or] at outside
      rw [keeps.node m outside.2]
      exact List.getElem?_set_ne (Ne.symm outside.1)
    · rwa [List.reverse_cons, List.append_assoc]

/-- The list of cached nodes begins with the last node of a new block. -/
theorem reverse_block (model : DataModel) (count : ℕ) :
    (List.range' (count * nNodes model) (nNodes model)).reverse =
      freePlaces model (count * nNodes model) (nNodes model) := by
  have positive := nNodes_pos model
  refine List.ext_getElem (by simp [freePlaces]) fun i left right => ?_
  have inside : i < nNodes model := by simpa using left
  have placed := @blockPlace_block _ count _ inside
  simp only [List.getElem_reverse, List.getElem_range', List.length_range', freePlaces, List.getElem_map, place,
    Nat.one_mul, placed]

variable {model : DataModel} (garbage : ℕ → StackNode)

theorem newBlock_spec {used : ℕ} {memory : BlockStash} (cached : Cached model used memory)
    (empty : memory.cachedNodes = none) :
    ∃ later, newBlock model garbage memory = .ok later ∧ Cached model used later ∧
      later.stash.nodes.length = used + nNodes model ∧ later.stash.root = memory.stash.root ∧
      later.stash.nodesByData = memory.stash.nodesByData ∧
      ∀ k < used, later.stash.nodes[place model k]? = memory.stash.nodes[place model k]? := by
  have exhausted : memory.stash.nodes.length = used := by
    have chain := cached.chain
    rw [empty] at chain
    generalize spelled : freePlaces model used (memory.stash.nodes.length - used) = list at chain
    cases chain
    have count := congrArg List.length spelled
    have fits := cached.fits
    simp only [freePlaces, List.length_map, List.length_range', List.length_nil] at count
    omega
  have whole : used = memory.blocks.length * nNodes model := by rw [← exhausted, cached.length]
  have grown : Chain (memory.stash.nodes ++ (List.range' used (nNodes model)).map garbage) StackNode.next
      memory.cachedNodes [] := by rw [empty]; exact .nil
  have inside : ∀ n ∈ List.range' used (nNodes model),
      n < (memory.stash.nodes ++ (List.range' used (nNodes model)).map garbage).length := by
    intro n member
    have := (List.mem_range'_1.mp member).2
    simpa [exhausted] using this
  obtain ⟨later, ran, blocks, keeps, chain⟩ := @cacheNodes_spec
    { memory with
      stash := { memory.stash with nodes := memory.stash.nodes ++ (List.range' used (nNodes model)).map garbage } }
    _ _ (List.nodup_range' ..) inside (by simp) grown
  have length : later.stash.nodes.length = used + nNodes model := by
    rw [keeps.length]
    simp [exhausted]
  refine ⟨{ later with blocks := later.blocks ++ [used] }, ?_, ⟨?_, ?_, ?_, ?_⟩, length, keeps.root, keeps.index, ?_⟩
  · simp only [newBlock, exhausted, ran, ok_bind]
  · rw [blocks]
    simp only [List.length_append, List.length_singleton, List.range_succ, List.map_append, List.map_singleton]
    rw [← cached.blocks, ← whole]
  · rw [length, List.length_append, List.length_singleton, blocks, Nat.add_mul, Nat.one_mul, ← whole]
  · rw [length]
    exact Nat.le_add_right _ _
  · rw [length, Nat.add_sub_cancel_left]
    rw [List.append_nil] at chain
    rw [whole, reverse_block, ← whole] at chain
    exact chain
  · intro k inside
    have below : place model k < used := by
      rw [whole] at inside ⊢
      exact blockPlace_lt inside
    have outside : place model k ∉ List.range' used (nNodes model) := by
      rw [List.mem_range'_1]
      omega
    rw [keeps.node _ outside]
    exact List.getElem?_append_left (by omega)

/-- The node that is handed out is new: it is the next one, none before it has its place, and
all its fields but `toplevel` are cleared. -/
theorem stackNodeNew_spec {used : ℕ} {memory : BlockStash} (cached : Cached model used memory)
    (tight : memory.stash.nodes.length < used + nNodes model) :
    ∃ later, stackNodeNew model garbage memory = .ok (later, place model used) ∧ Cached model (used + 1) later ∧
      later.stash.nodes.length < used + 1 + nNodes model ∧ later.stash.root = memory.stash.root ∧
      later.stash.nodesByData = memory.stash.nodesByData ∧
      (∃ toplevel, later.stash.nodes[place model used]? = some { toplevel := toplevel }) ∧
      ∀ k < used, later.stash.nodes[place model k]? = memory.stash.nodes[place model k]? := by
  -- After the `if` there is a cached node.
  obtain ⟨filled, ran, cachedFilled, room, bound, root, index, kept⟩ : ∃ filled,
      ensureCached model garbage memory = .ok filled ∧
      Cached model used filled ∧ used < filled.stash.nodes.length ∧
      filled.stash.nodes.length < used + 1 + nNodes model ∧ filled.stash.root = memory.stash.root ∧
      filled.stash.nodesByData = memory.stash.nodesByData ∧
      ∀ k < used, filled.stash.nodes[place model k]? = memory.stash.nodes[place model k]? := by
    have positive := nNodes_pos model
    by_cases empty : memory.cachedNodes = none
    · obtain ⟨later, ran, cachedLater, length, root, index, kept⟩ := newBlock_spec garbage cached empty
      exact ⟨later, by rw [ensureCached, if_pos empty, ran], cachedLater, by omega, by omega, root, index, kept⟩
    · refine ⟨memory, by rw [ensureCached, if_neg empty], cached, ?_, by omega, rfl, rfl, fun _ _ => rfl⟩
      by_contra full
      have chain := cached.chain
      rw [Nat.sub_eq_zero_of_le (Nat.le_of_not_lt full)] at chain
      generalize spelled : freePlaces model used 0 = list at chain
      generalize memory.cachedNodes = start at chain empty
      cases chain with
      | nil => exact empty rfl
      | cons => cases spelled
  have chain := cachedFilled.chain
  obtain ⟨rest, count⟩ : ∃ rest, filled.stash.nodes.length - used = rest + 1 :=
    ⟨filled.stash.nodes.length - used - 1, by omega⟩
  rw [count, freePlaces, List.range'_succ, List.map_cons] at chain
  obtain ⟨n, head⟩ : ∃ n, filled.cachedNodes = some n := by
    generalize filled.cachedNodes = start at chain
    cases chain with
    | cons => exact ⟨_, rfl⟩
  rw [head] at chain
  obtain ⟨rfl, node, held, chained⟩ := chain.tail
  have unused : place model used ∉ freePlaces model (used + 1) rest := by
    rw [mem_freePlaces]
    omega
  have inside := (List.getElem?_eq_some_iff.mp held).1
  refine ⟨{ filled with
    stash := filled.stash.setNode (place model used) { toplevel := node.toplevel }
    cachedNodes := node.next }, ?_, ⟨?_, ?_, ?_, ?_⟩, ?_, root, index, ⟨node.toplevel, ?_⟩, ?_⟩
  · simp only [stackNodeNew, ran, ok_bind, head, Stash.node_eq_ok.mpr held]
  · exact cachedFilled.blocks
  · simpa [setNode] using cachedFilled.length
  · simpa [setNode] using Nat.succ_le_of_lt room
  · have remaining : filled.stash.nodes.length - (used + 1) = rest := by omega
    simp only [setNode, List.length_set, remaining]
    exact chained.set_outside _ unused
  · simpa [setNode] using bound
  · simp [setNode, List.getElem?_set_self inside]
  · intro k older
    have apart : place model used ≠ place model k := fun same => by
      have := place_injective model same
      omega
    rw [← kept k older]
    exact List.getElem?_set_ne apart

end Memprof.NodeBlocks
