import Memprof.StackStash

/-! # The stack stash is a trie of traces

Adding a trace returns a node from which the parent links list the trace, innermost
frame first, and leaves the trace of every older node as it was.
-/

namespace Memprof.Stash

open Library StackStash

/-- The frames from a node outwards. -/
inductive Trace (nodes : List StackNode) : Option ℕ → List Addr → Prop
  | nil : Trace nodes none []
  | cons {n : ℕ} {node : StackNode} {frames : List Addr} (held : nodes[n]? = some node)
      (outer : Trace nodes node.parent frames) : Trace nodes (some n) (node.address :: frames)

/-- The node that owns a location. -/
def owner : Location → Option ℕ
  | .root => none
  | .children n => some n

/-- Links lead to older nodes, and siblings have their owner as their parent. -/
structure Linked (stash : StackStash) : Prop where
  parents : Older stash.nodes StackNode.parent
  siblings : Older stash.nodes StackNode.siblings
  root : ∀ n ∈ stash.root, ∃ node : StackNode, stash.nodes[n]? = some node ∧ node.parent = none
  children : ∀ (m : ℕ) (parent : StackNode) (n : ℕ), stash.nodes[m]? = some parent → parent.children = some n →
    ∃ node : StackNode, stash.nodes[n]? = some node ∧ node.parent = some m
  alike : ∀ (n : ℕ) (node : StackNode) (s : ℕ), stash.nodes[n]? = some node → node.siblings = some s →
    ∃ sibling : StackNode, stash.nodes[s]? = some sibling ∧ sibling.parent = node.parent

/-- Nodes keep their address and their parent. -/
structure Grows (stash later : StackStash) : Prop where
  refCount : later.refCount = stash.refCount
  node : ∀ (n : ℕ) (node : StackNode), stash.nodes[n]? = some node →
    ∃ node' : StackNode, later.nodes[n]? = some node' ∧ node'.address = node.address ∧ node'.parent = node.parent

theorem Grows.refl (stash : StackStash) : Grows stash stash := ⟨rfl, fun _ node held => ⟨node, held, rfl, rfl⟩⟩

theorem Grows.trans {first second third : StackStash} (left : Grows first second) (right : Grows second third) :
    Grows first third where
  refCount := right.refCount.trans left.refCount
  node n node held := by
    obtain ⟨node', held', address, parent⟩ := left.node n node held
    obtain ⟨node'', held'', address', parent'⟩ := right.node n node' held'
    exact ⟨node'', held'', address'.trans address, parent'.trans parent⟩

theorem Trace.kept {nodes nodes' : List StackNode} (kept : ∀ (n : ℕ) (node : StackNode), nodes[n]? = some node →
      ∃ node', nodes'[n]? = some node' ∧ node'.address = node.address ∧ node'.parent = node.parent)
    {start : Option ℕ} {frames : List Addr} (trace : Trace nodes start frames) : Trace nodes' start frames := by
  induction trace with
  | nil => exact .nil
  | @cons n node frames held _ inductionHypothesis =>
    obtain ⟨node', held', address, parent⟩ := kept n node held
    rw [← address]
    rw [← parent] at inductionHypothesis
    exact .cons held' inductionHypothesis

theorem Trace.grows {stash later : StackStash} (grows : Grows stash later) {start : Option ℕ} {frames : List Addr}
    (trace : Trace stash.nodes start frames) : Trace later.nodes start frames := trace.kept grows.node

theorem linked_empty : Linked {} where
  parents _ _ _ held := by cases held
  siblings _ _ _ held := by cases held
  root _ member := by cases member
  children _ _ _ held := by cases held
  alike _ _ _ held := by cases held

theorem node_eq_ok {stash : StackStash} {n : ℕ} {node : StackNode} :
    stash.node n = .ok node ↔ stash.nodes[n]? = some node := by
  unfold StackStash.node
  cases stash.nodes[n]? <;> simp

theorem getElem?_setNode {stash : StackStash} {n : ℕ} {node : StackNode} (held : stash.nodes[n]? = some node)
    (node' : StackNode) (m : ℕ) :
    (stash.setNode n node').nodes[m]? = if m = n then some node' else stash.nodes[m]? := by
  have inside := (List.getElem?_eq_some_iff.mp held).1
  by_cases same : m = n
  · subst same
    simp [setNode, inside]
  · rw [if_neg same, setNode, List.getElem?_set_ne (Ne.symm same)]

/-- A node may change that keeps its address, its parent and its siblings, and whose
children, if it gets others, are its own. -/
theorem Linked.setNode {stash : StackStash} (linked : Linked stash) {n : ℕ} {node node' : StackNode}
    (held : stash.nodes[n]? = some node) (address : node'.address = node.address) (parent : node'.parent = node.parent)
    (siblings : node'.siblings = node.siblings)
    (children : ∀ c ∈ node'.children, ∃ child : StackNode, stash.nodes[c]? = some child ∧ child.parent = some n) :
    Linked (stash.setNode n node') ∧ Grows stash (stash.setNode n node') := by
  have back : ∀ (m : ℕ) (other : StackNode), (stash.setNode n node').nodes[m]? = some other →
      ∃ original : StackNode, stash.nodes[m]? = some original ∧ other.parent = original.parent ∧
        other.siblings = original.siblings := by
    intro m other found
    rw [getElem?_setNode held] at found
    split at found
    next same => cases found; exact ⟨node, same ▸ held, parent, siblings⟩
    next => exact ⟨other, found, rfl, rfl⟩
  have grows : Grows stash (stash.setNode n node') := by
    refine ⟨rfl, fun m other found => ?_⟩
    rw [getElem?_setNode held]
    split
    next same =>
      subst same
      rw [held] at found
      cases found
      exact ⟨node', rfl, address, parent⟩
    next => exact ⟨other, found, rfl, rfl⟩
  refine ⟨⟨?_, ?_, ?_, ?_, ?_⟩, grows⟩
  · intro m other j found up
    obtain ⟨original, kept, same, _⟩ := back m other found
    exact linked.parents m original j kept (same ▸ up)
  · intro m other j found next
    obtain ⟨original, kept, _, same⟩ := back m other found
    exact linked.siblings m original j kept (same ▸ next)
  · intro r rooted
    obtain ⟨first, found, orphan⟩ := linked.root r rooted
    obtain ⟨first', found', _, same⟩ := grows.node r first found
    exact ⟨first', found', same.trans orphan⟩
  · intro m other c found down
    have owned : ∃ child : StackNode, stash.nodes[c]? = some child ∧ child.parent = some m := by
      rw [getElem?_setNode held] at found
      split at found
      next same => cases found; exact same ▸ children c down
      next => exact linked.children m other c found down
    obtain ⟨child, held', up⟩ := owned
    obtain ⟨child', held'', _, same'⟩ := grows.node c child held'
    exact ⟨child', held'', same'.trans up⟩
  · intro m other s found next
    obtain ⟨original, kept, sameParent, same⟩ := back m other found
    obtain ⟨sibling, held', alike⟩ := linked.alike m original s kept (same ▸ next)
    obtain ⟨sibling', held'', _, same'⟩ := grows.node s sibling held'
    exact ⟨sibling', held'', by rw [same', alike, sameParent]⟩

/-- A location of the stash: its owner is there, and what it holds is owned by it. -/
theorem Linked.load {stash : StackStash} (linked : Linked stash) (location : Location)
    (owned : ∀ m ∈ owner location, m < stash.nodes.length) :
    ∃ head, stash.load location = .ok head ∧
      ∀ n ∈ head, ∃ node : StackNode, stash.nodes[n]? = some node ∧ node.parent = owner location := by
  cases location with
  | root => exact ⟨stash.root, rfl, linked.root⟩
  | children m =>
    obtain ⟨node, held⟩ : ∃ node, stash.nodes[m]? = some node := ⟨_, List.getElem?_eq_getElem (owned m rfl)⟩
    exact ⟨node.children, by simp [StackStash.load, held], fun n down => linked.children m _ n held down⟩

/-- The loop over siblings finds one with the address, if at all, of the same owner. -/
theorem Linked.find {stash : StackStash} (linked : Linked stash) (address : Addr) {head parent : Option ℕ}
    (heads : ∀ n ∈ head, ∃ node : StackNode, stash.nodes[n]? = some node ∧ node.parent = parent) :
    ∃ found, stash.find StackNode.siblings address head = .ok found ∧
      ∀ n ∈ found, ∃ node : StackNode, stash.nodes[n]? = some node ∧ node.address = address ∧ node.parent = parent := by
  have inside : ∀ n ∈ head, n < stash.nodes.length := by
    intro n member
    obtain ⟨node, held, _⟩ := heads n member
    exact (List.getElem?_eq_some_iff.mp held).1
  obtain ⟨list, chain, _, short⟩ := exists_chain linked.siblings inside
  have owned := chain.forall heads fun n node s held next ⟨node', held', same⟩ => by
    rw [held] at held'
    cases held'
    obtain ⟨sibling, found, alike⟩ := linked.alike n node s held next
    exact ⟨sibling, found, alike.trans same⟩
  refine ⟨_, by rw [StackStash.find, search_eq chain _ short], ?_⟩
  intro n found
  obtain ⟨node, held, parentEqual⟩ := owned n (List.mem_of_find?_eq_some found)
  have tested := List.find?_some found
  rw [held] at tested
  exact ⟨node, held, by simpa using tested, parentEqual⟩

/-! ## Adding a trace -/

theorem stackNodeNew_setNode (stash : StackStash) (node : StackNode) :
    (stackNodeNew stash).1.setNode stash.nodes.length node = { stash with nodes := stash.nodes ++ [node] } := by
  simp [stackNodeNew, setNode]

theorem grows_append (stash : StackStash) (node : StackNode) :
    Grows stash { stash with nodes := stash.nodes ++ [node] } := by
  refine ⟨rfl, fun n other held => ?_⟩
  have inside := (List.getElem?_eq_some_iff.mp held).1
  exact ⟨other, by rw [List.getElem?_append_left inside, held], rfl, rfl⟩

/-- A node without children in front of the siblings that have its parent. -/
theorem Linked.append {stash : StackStash} (linked : Linked stash) {node : StackNode}
    (parent : ∀ m ∈ node.parent, m < stash.nodes.length) (childless : node.children = none)
    (siblings : ∀ s ∈ node.siblings,
      ∃ sibling : StackNode, stash.nodes[s]? = some sibling ∧ sibling.parent = node.parent) :
    Linked { stash with nodes := stash.nodes ++ [node] } := by
  have grows := grows_append stash node
  have cases_node : ∀ (m : ℕ) (other : StackNode), (stash.nodes ++ [node])[m]? = some other →
      stash.nodes[m]? = some other ∨ other = node := by
    intro m other held
    rcases Nat.lt_or_ge m stash.nodes.length with old | fresh
    · rw [List.getElem?_append_left old] at held; exact .inl held
    · rw [List.getElem?_append_right fresh] at held
      exact .inr (by simpa using List.mem_of_getElem? held)
  refine ⟨linked.parents.append parent, linked.siblings.append fun s member => ?_, ?_, ?_, ?_⟩
  · obtain ⟨sibling, held, _⟩ := siblings s member
    exact (List.getElem?_eq_some_iff.mp held).1
  · intro r rooted
    obtain ⟨first, held, orphan⟩ := linked.root r rooted
    obtain ⟨first', held', _, same⟩ := grows.node r first held
    exact ⟨first', held', same.trans orphan⟩
  · intro m other c held down
    rcases cases_node m other held with old | rfl
    · obtain ⟨child, held', up⟩ := linked.children m other c old down
      obtain ⟨child', held'', _, same⟩ := grows.node c child held'
      exact ⟨child', held'', same.trans up⟩
    · rw [childless] at down; cases down
  · intro m other s held next
    have alike : ∃ sibling : StackNode, stash.nodes[s]? = some sibling ∧ sibling.parent = other.parent := by
      rcases cases_node m other held with old | rfl
      · exact linked.alike m other s old next
      · exact siblings s next
    obtain ⟨sibling, held', same⟩ := alike
    obtain ⟨sibling', held'', _, same'⟩ := grows.node s sibling held'
    exact ⟨sibling', held'', same'.trans same⟩

theorem Linked.store {stash : StackStash} (linked : Linked stash) {location : Location} {n : ℕ} {node : StackNode}
    (held : stash.nodes[n]? = some node) (owned : node.parent = owner location)
    (inside : ∀ m ∈ owner location, m < stash.nodes.length) :
    ∃ later, stash.store location n = .ok later ∧ Linked later ∧ Grows stash later := by
  cases location with
  | root =>
    refine ⟨_, rfl, ⟨linked.parents, linked.siblings, ?_, linked.children, linked.alike⟩,
      ⟨rfl, (Grows.refl stash).node⟩⟩
    intro r rooted
    cases rooted
    exact ⟨node, held, owned⟩
  | children m =>
    obtain ⟨parent, heldParent⟩ : ∃ parent, stash.nodes[m]? = some parent :=
      ⟨_, List.getElem?_eq_getElem (inside m rfl)⟩
    have stored : Linked (stash.setNode m { parent with children := some n }) ∧ Grows stash _ :=
      linked.setNode heldParent rfl rfl rfl fun c member => by cases member; exact ⟨node, held, owned⟩
    exact ⟨_, by simp only [StackStash.store, node_eq_ok.mpr heldParent]; rfl, stored⟩

theorem Linked.decorate {stash : StackStash} (linked : Linked stash) {n : ℕ} {node : StackNode}
    (held : stash.nodes[n]? = some node) :
    ∃ later, decorateNode stash n = .ok later ∧ Linked later ∧ Grows stash later := by
  have inside : ∀ m ∈ node.parent, m < stash.nodes.length := by
    intro m up
    exact Nat.lt_trans (linked.parents n node m held up) (List.getElem?_eq_some_iff.mp held).1
  obtain ⟨list, chain, _, short⟩ := exists_chain linked.parents inside
  have found : ∃ earlier, stash.find StackNode.parent node.address node.parent = .ok earlier :=
    ⟨_, by rw [StackStash.find, search_eq chain _ short]⟩
  obtain ⟨earlier, found⟩ := found
  have decorated : Linked (stash.setNode n { node with
      toplevel := earlier.isNone, next := stash.nodesByData.lookup node.address }) ∧ Grows stash _ :=
    linked.setNode held rfl rfl rfl fun c down => linked.children n node c held down
  refine ⟨{ stash.setNode n { node with
      toplevel := earlier.isNone, next := stash.nodesByData.lookup node.address } with
        nodesByData := stash.nodesByData.insert node.address n }, ?_, ?_, ⟨rfl, decorated.2.node⟩⟩
  · simp only [decorateNode, node_eq_ok.mpr held, found, Bind.bind, Except.bind]
  · exact ⟨decorated.1.parents, decorated.1.siblings, decorated.1.root, decorated.1.children, decorated.1.alike⟩

theorem addNode_spec {stash : StackStash} (linked : Linked stash) {location : Location} {head : Option ℕ}
    (heads : ∀ n ∈ head, ∃ node : StackNode, stash.nodes[n]? = some node ∧ node.parent = owner location)
    (inside : ∀ m ∈ owner location, m < stash.nodes.length) (address : Addr) :
    ∃ later n node, stackStashAddNode stash location head (owner location) address = .ok (later, n) ∧
      Linked later ∧ Grows stash later ∧ later.nodes[n]? = some node ∧ node.address = address ∧
      node.parent = owner location := by
  obtain ⟨fresh, spelled⟩ : ∃ fresh : StackNode,
      fresh = { address := address, siblings := head, parent := owner location } := ⟨_, rfl⟩
  have appended : Linked { stash with nodes := stash.nodes ++ [fresh] } :=
    linked.append (by rw [spelled]; exact inside) (by rw [spelled]) (by rw [spelled]; exact heads)
  have held : (stash.nodes ++ [fresh])[stash.nodes.length]? = some fresh := by simp
  have owned : fresh.parent = owner location := by rw [spelled]
  obtain ⟨stored, ranStore, linkedStore, growsStore⟩ := appended.store held owned fun m member => by
    have := inside m member
    simp only [List.length_append]
    omega
  obtain ⟨node₁, held₁, address₁, parent₁⟩ := growsStore.node _ fresh held
  obtain ⟨later, ranLater, linkedLater, growsLater⟩ := linkedStore.decorate held₁
  obtain ⟨node₂, held₂, address₂, parent₂⟩ := growsLater.node _ node₁ held₁
  refine ⟨later, stash.nodes.length, node₂, ?_, linkedLater,
    ((grows_append stash fresh).trans growsStore).trans growsLater, held₂, ?_, ?_⟩
  · have new : (stackNodeNew stash).2 = stash.nodes.length := rfl
    simp only [stackStashAddNode, new, ← spelled, stackNodeNew_setNode, ranStore, ranLater, Bind.bind, Except.bind]
  · rw [address₂, address₁, spelled]
  · rw [parent₂, parent₁, owned]

theorem match_spec {stash : StackStash} (linked : Linked stash) {location : Location}
    (inside : ∀ m ∈ owner location, m < stash.nodes.length) (address : Addr) :
    ∃ later n node, stackStashMatch stash location (owner location) address = .ok (later, n) ∧
      Linked later ∧ Grows stash later ∧ later.nodes[n]? = some node ∧ node.address = address ∧
      node.parent = owner location := by
  obtain ⟨head, loaded, heads⟩ := linked.load location inside
  obtain ⟨found, searched, matching⟩ := linked.find address heads
  cases found with
  | none =>
    obtain ⟨later, n, node, ran, rest⟩ := addNode_spec linked heads inside address
    refine ⟨later, n, node, ?_, rest⟩
    simp only [stackStashMatch, loaded, searched, Bind.bind, Except.bind]
    exact ran
  | some n =>
    obtain ⟨node, held, addressEqual, parentEqual⟩ := matching n rfl
    refine ⟨stash, n, node, ?_, linked, Grows.refl stash, held, addressEqual, parentEqual⟩
    simp only [stackStashMatch, loaded, searched, Bind.bind, Except.bind]

theorem addFrame_spec {stash : StackStash} (linked : Linked stash) {location : Location}
    (inside : ∀ m ∈ owner location, m < stash.nodes.length) (size : ℤ) (address : Addr) :
    ∃ later n node, stackStashAddFrame size (stash, location, owner location) address =
        .ok (later, .children n, some n) ∧
      Linked later ∧ Grows stash later ∧ later.nodes[n]? = some node ∧ node.address = address ∧
      node.parent = owner location := by
  obtain ⟨matched, n, node, ran, linkedMatch, growsMatch, held, addressEqual, parentEqual⟩ :=
    match_spec linked inside address
  have counted : Linked (matched.setNode n { node with total := node.total + UInt32.ofInt size }) ∧
      Grows matched _ :=
    linkedMatch.setNode held rfl rfl rfl fun c down => linkedMatch.children n node c held down
  refine ⟨_, n, { node with total := node.total + UInt32.ofInt size }, ?_, counted.1,
    growsMatch.trans counted.2, ?_, addressEqual, parentEqual⟩
  · simp only [stackStashAddFrame, ran, node_eq_ok.mpr held, Bind.bind, Except.bind]
  · rw [getElem?_setNode held, if_pos rfl]

/-- The loop over the frames, outermost first: each goes under the one before. -/
theorem addFrames_spec {stash : StackStash} (linked : Linked stash) {location : Location} {done : List Addr}
    (trace : Trace stash.nodes (owner location) done) (size : ℤ) (frames : List Addr) :
    ∃ later last, frames.foldlM (stackStashAddFrame size) (stash, location, owner location) =
        .ok (later, last, owner last) ∧
      Linked later ∧ Grows stash later ∧ Trace later.nodes (owner last) (frames.reverse ++ done) := by
  induction frames generalizing stash location done with
  | nil => exact ⟨stash, location, rfl, linked, Grows.refl stash, trace⟩
  | cons address frames inductionHypothesis =>
    have inside : ∀ m ∈ owner location, m < stash.nodes.length := by
      intro m owned
      rw [Option.mem_def.mp owned] at trace
      cases trace with
      | cons held _ => exact (List.getElem?_eq_some_iff.mp held).1
    obtain ⟨next, n, node, ran, linkedNext, growsNext, held, addressEqual, parentEqual⟩ :=
      addFrame_spec linked inside size address
    have extended : Trace next.nodes (owner (.children n)) (address :: done) := by
      have outer := trace.grows growsNext
      rw [← parentEqual] at outer
      rw [← addressEqual]
      exact .cons held outer
    obtain ⟨later, last, ranRest, linkedLater, growsLater, traced⟩ := inductionHypothesis linkedNext extended
    refine ⟨later, last, ?_, linkedLater, growsNext.trans growsLater, by simpa using traced⟩
    rw [List.foldlM_cons, ran]
    exact ranRest

/-- Adding a trace returns a node with that trace, and keeps every trace there is. -/
theorem addTrace_spec {stash : StackStash} (linked : Linked stash) (frames : List Addr) (size : ℤ) :
    ∃ later start, stackStashAddTrace stash frames size = .ok (later, start) ∧ Linked later ∧ Grows stash later ∧
      Trace later.nodes start frames := by
  unfold stackStashAddTrace
  by_cases empty : frames = []
  · exact ⟨stash, none, if_pos empty, linked, Grows.refl stash, empty ▸ .nil⟩
  have outermost : Trace stash.nodes (owner .root) [] := .nil
  obtain ⟨looped, last, ran, linkedLoop, growsLoop, traced⟩ := addFrames_spec linked outermost size frames.reverse
  rw [List.reverse_reverse, List.append_nil] at traced
  rw [if_neg empty]
  cases innermost : owner last with
  | none =>
    rw [innermost] at traced
    cases traced
    exact (empty rfl).elim
  | some n =>
    rw [innermost] at traced ran
    obtain ⟨node, held⟩ : ∃ node, looped.nodes[n]? = some node := by
      cases traced with
      | cons held _ => exact ⟨_, held⟩
    have charged : Linked (looped.setNode n { node with size := node.size + BitVec.ofInt 31 size }) ∧
        Grows looped _ :=
      linkedLoop.setNode held rfl rfl rfl fun c down => linkedLoop.children n node c held down
    refine ⟨_, some n, ?_, charged.1, growsLoop.trans charged.2, traced.grows charged.2⟩
    have run : frames.reverse.foldlM (stackStashAddFrame size) (stash, .root, none) = .ok (looped, last, some n) := ran
    simp only [run, Bind.bind, Except.bind, stackStashCharge, node_eq_ok.mpr held]

end Memprof.Stash
