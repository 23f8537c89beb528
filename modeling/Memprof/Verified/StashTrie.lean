import Memprof.Library.Outcome
import Memprof.Verified.Stash

/-! # Traces are stored once and for good

The children of a node are a chain of siblings that has every node with that parent and no
address twice.  A trace is therefore spelled by one node only, and the node that
`stack_stash_add_trace` returns for a trace spells it however many traces are added later.
-/

namespace Memprof.Stash

open Library StackStash

/-- The location that the children of a node, or the nodes without a parent, hang on. -/
def locationOf : Option ℕ → Location
  | none => .root
  | some m => .children m

@[simp] theorem locationOf_owner (location : Location) : locationOf (owner location) = location := by
  cases location <;> rfl

/-- What holds the trie together. -/
def links (node : StackNode) : Addr × Option ℕ × Option ℕ × Option ℕ :=
  (node.address, node.parent, node.siblings, node.children)

/-- The nodes differ in their counters and in the lists by address at most. -/
structure SameLinks (stash later : StackStash) : Prop where
  root : later.root = stash.root
  nodes : later.nodes.map links = stash.nodes.map links

theorem SameLinks.symm {stash later : StackStash} (same : SameLinks stash later) : SameLinks later stash :=
  ⟨same.root.symm, same.nodes.symm⟩

theorem SameLinks.node {stash later : StackStash} (same : SameLinks stash later) {n : ℕ} {node : StackNode}
    (held : stash.nodes[n]? = some node) : ∃ node', later.nodes[n]? = some node' ∧ links node' = links node := by
  have mapped := congrArg (·[n]?) same.nodes
  simp only [List.getElem?_map, held, Option.map_some, Option.map_eq_some_iff] at mapped
  exact mapped

theorem sameLinks_setNode {stash : StackStash} {n : ℕ} {node node' : StackNode} (held : stash.nodes[n]? = some node)
    (same : links node' = links node) : SameLinks stash (stash.setNode n node') := by
  refine ⟨rfl, List.ext_getElem? fun m => ?_⟩
  rw [List.getElem?_map, List.getElem?_map, getElem?_setNode held]
  split
  next here => rw [here, held, Option.map_some, Option.map_some, same]
  next => rfl

/-- The nodes that hang on a location, the newest first. -/
def Children (stash : StackStash) (location : Location) (list : List ℕ) : Prop :=
  ∃ head, stash.load location = .ok head ∧ Chain stash.nodes StackNode.siblings head list

/-- Every node hangs where its parent is, and siblings have different addresses. -/
structure Trie (stash : StackStash) : Prop where
  linked : Linked stash
  sited : ∀ (n : ℕ) (node : StackNode), stash.nodes[n]? = some node →
    ∃ list, Children stash (locationOf node.parent) list ∧ n ∈ list
  distinct : ∀ (n m : ℕ) (node other : StackNode), stash.nodes[n]? = some node → stash.nodes[m]? = some other →
    node.parent = other.parent → node.address = other.address → n = m

theorem trie_empty : Trie {} where
  linked := linked_empty
  sited _ _ held := by cases held
  distinct _ _ _ _ held := by cases held

/-- The same nodes spell no trace twice. -/
theorem Trie.trace_unique {stash : StackStash} (trie : Trie stash) {start other : Option ℕ} {frames : List Addr}
    (left : Trace stash.nodes start frames) (right : Trace stash.nodes other frames) : start = other := by
  induction left generalizing other with
  | nil => cases right; rfl
  | @cons n node frames held _ inductionHypothesis =>
    generalize spelled : node.address :: frames = all at right
    cases right with
    | nil => cases spelled
    | @cons m node' frames' held' outer =>
      obtain ⟨address, rfl⟩ := List.cons.inj spelled
      exact congrArg some (trie.distinct n m node node' held held' (inductionHypothesis outer) address)

/-- A node spells one trace only. -/
theorem Trace.unique {nodes : List StackNode} {start : Option ℕ} {frames frames' : List Addr}
    (left : Trace nodes start frames) (right : Trace nodes start frames') : frames = frames' := by
  induction left generalizing frames' with
  | nil => cases right; rfl
  | cons held _ inductionHypothesis =>
    cases right with
    | cons held' outer =>
      rw [held] at held'
      cases held'
      rw [inductionHypothesis outer]

theorem SameLinks.load {stash later : StackStash} (same : SameLinks stash later) {location : Location} {head : Option ℕ}
    (loaded : stash.load location = .ok head) : later.load location = .ok head := by
  cases location with
  | root => rw [StackStash.load, same.root]; exact loaded
  | children m =>
    rw [StackStash.load] at loaded ⊢
    cases held : stash.nodes[m]? with
    | none => rw [held] at loaded; cases loaded
    | some node =>
      obtain ⟨node', held', equal⟩ := same.node held
      rw [held] at loaded
      cases loaded
      simp only [held']
      exact congrArg Except.ok (congrArg (·.2.2.2) equal)

theorem SameLinks.children {stash later : StackStash} (same : SameLinks stash later) {location : Location}
    {list : List ℕ} (children : Children stash location list) : Children later location list := by
  obtain ⟨head, loaded, chain⟩ := children
  refine ⟨head, same.load loaded, chain.congr fun i _ node held => ?_⟩
  obtain ⟨node', held', equal⟩ := same.node held
  exact ⟨node', held', congrArg (·.2.2.1) equal⟩

theorem Trie.sameLinks {stash later : StackStash} (trie : Trie stash) (same : SameLinks stash later)
    (linked : Linked later) : Trie later where
  linked := linked
  sited n node held := by
    obtain ⟨node', held', equal⟩ := same.symm.node held
    obtain ⟨list, children, member⟩ := trie.sited n node' held'
    have parent : node.parent = node'.parent := (congrArg (·.2.1) equal).symm
    exact ⟨list, by rw [parent]; exact same.children children, member⟩
  distinct n m node other held found parent address := by
    obtain ⟨node', held', equal⟩ := same.symm.node held
    obtain ⟨other', found', equal'⟩ := same.symm.node found
    refine trie.distinct n m node' other' held' found' ?_ ?_
    · calc
        node'.parent = node.parent := congrArg (·.2.1) equal
        _ = other.parent := parent
        _ = other'.parent := (congrArg (·.2.1) equal').symm
    · calc
        node'.address = node.address := congrArg (·.1) equal
        _ = other.address := address
        _ = other'.address := (congrArg (·.1) equal').symm

/-! ## Adding a node -/

/-- The loop over the siblings misses an address only if no node under that parent has it. -/
theorem Trie.find_none {stash : StackStash} (trie : Trie stash) {location : Location} {head : Option ℕ} {address : Addr}
    (loaded : stash.load location = .ok head) (missed : stash.find StackNode.siblings address head = .ok none)
    {n : ℕ} {node : StackNode} (held : stash.nodes[n]? = some node) (parent : node.parent = owner location) :
    node.address ≠ address := by
  obtain ⟨list, ⟨head', loaded', chain⟩, member⟩ := trie.sited n node held
  rw [parent, locationOf_owner, loaded] at loaded'
  cases loaded'
  rw [StackStash.find, search_eq chain _ chain.length_le] at missed
  have absent := List.find?_eq_none.mp (Except.ok.inj missed) n member
  simpa [held] using absent

/-- The stash with a new node in front of its siblings. -/
structure Hung (stash : StackStash) (location : Location) (head : Option ℕ) (address : Addr) (stored : StackStash) :
    Prop where
  fresh : stored.nodes[stash.nodes.length]? =
    some { address := address, siblings := head, parent := owner location }
  old : ∀ n < stash.nodes.length, stored.nodes[n]? = stash.nodes[n]?.map fun node =>
    if location = .children n then { node with children := some stash.nodes.length } else node
  length : stored.nodes.length = stash.nodes.length + 1
  here : stored.load location = .ok (some stash.nodes.length)
  elsewhere : ∀ other head, other ≠ location → stash.load other = .ok head → stored.load other = .ok head

theorem hung_store {stash stored : StackStash} {location : Location}
    (inside : ∀ m ∈ owner location, m < stash.nodes.length) {head : Option ℕ} {address : Addr}
    (ran : StackStash.store { stash with
      nodes := stash.nodes ++ [{ address := address, siblings := head, parent := owner location }] }
        location stash.nodes.length = .ok stored) : Hung stash location head address stored := by
  cases location with
  | root =>
    cases ran
    refine ⟨by simp, fun n old => ?_, by simp, rfl, ?_⟩
    · simp [List.getElem?_append_left old]
    · intro other head different loaded
      cases other with
      | root => exact absurd rfl different
      | children m =>
        rw [StackStash.load] at loaded ⊢
        cases held : stash.nodes[m]? with
        | none => rw [held] at loaded; cases loaded
        | some node =>
          have old := (List.getElem?_eq_some_iff.mp held).1
          rw [held] at loaded
          simp only [List.getElem?_append_left old, held]
          exact loaded
  | children m =>
    have old := inside m rfl
    obtain ⟨node, held⟩ : ∃ node, stash.nodes[m]? = some node := ⟨_, List.getElem?_eq_getElem old⟩
    obtain ⟨fresh, spelled⟩ : ∃ fresh : StackNode,
        fresh = { address := address, siblings := head, parent := some m } := ⟨_, rfl⟩
    have appended : ({ stash with nodes := stash.nodes ++ [fresh] } : StackStash).nodes[m]? = some node := by
      simp [List.getElem?_append_left old, held]
    have stored_eq : stored =
        ({ stash with nodes := stash.nodes ++ [fresh] } : StackStash).setNode m
          { node with children := some stash.nodes.length } := by
      simp only [StackStash.store, owner, ← spelled, node_eq_ok.mpr appended] at ran
      exact (Except.ok.inj ran).symm
    have lookup : ∀ n, stored.nodes[n]? = if n = m then some { node with children := some stash.nodes.length }
        else (stash.nodes ++ [fresh])[n]? := by
      intro n
      rw [stored_eq, getElem?_setNode appended]
    refine ⟨?_, ?_, by rw [stored_eq]; simp [StackStash.setNode], ?_, ?_⟩
    · rw [lookup, if_neg (Nat.ne_of_gt old), List.getElem?_concat_length, spelled]
      rfl
    · intro n inside
      rw [lookup, List.getElem?_append_left inside]
      by_cases same : n = m
      · rw [if_pos same, same, held]
        simp
      · have other : Location.children m ≠ .children n := fun equal => same (Location.children.inj equal).symm
        simp [same, other]
    · rw [StackStash.load, lookup, if_pos rfl]
    · intro other head different loaded
      cases other with
      | root =>
        rw [stored_eq]
        exact loaded
      | children k =>
        rw [StackStash.load] at loaded ⊢
        cases heldK : stash.nodes[k]? with
        | none => rw [heldK] at loaded; cases loaded
        | some nodeK =>
          have apart : k ≠ m := fun equal => different (congrArg Location.children equal)
          rw [heldK] at loaded
          simp only [lookup, if_neg apart, List.getElem?_append_left (List.getElem?_eq_some_iff.mp heldK).1, heldK]
          exact loaded

/-- The links of a node in the stash that is grown. -/
theorem Hung.cases {stash stored : StackStash} {location : Location} {head : Option ℕ} {address : Addr}
    (hung : Hung stash location head address stored) {n : ℕ} {node : StackNode} (held : stored.nodes[n]? = some node) :
    (n = stash.nodes.length ∧ node = { address := address, siblings := head, parent := owner location }) ∨
      ∃ before : StackNode, stash.nodes[n]? = some before ∧ node.address = before.address ∧
        node.parent = before.parent ∧ node.siblings = before.siblings := by
  rcases Nat.lt_or_ge n stash.nodes.length with old | new
  · rw [hung.old n old] at held
    obtain ⟨before, heldBefore, rfl⟩ := Option.map_eq_some_iff.mp held
    refine .inr ⟨before, heldBefore, ?_⟩
    split
    · exact ⟨rfl, rfl, rfl⟩
    · exact ⟨rfl, rfl, rfl⟩
  · have inside := (List.getElem?_eq_some_iff.mp held).1
    have last : n = stash.nodes.length := by
      have := hung.length
      omega
    subst last
    rw [hung.fresh] at held
    exact .inl ⟨rfl, (Option.some.inj held).symm⟩

theorem Hung.chain {stash stored : StackStash} {location : Location} {head : Option ℕ} {address : Addr}
    (hung : Hung stash location head address stored) {start : Option ℕ} {list : List ℕ}
    (chain : Chain stash.nodes StackNode.siblings start list) : Chain stored.nodes StackNode.siblings start list := by
  refine chain.congr fun i member node held => ?_
  have old := (List.getElem?_eq_some_iff.mp held).1
  refine ⟨_, by rw [hung.old i old, held]; rfl, ?_⟩
  split
  · rfl
  · rfl

/-- A node that is hung where its address was missed keeps the trie. -/
theorem Trie.hung {stash stored : StackStash} (trie : Trie stash) {location : Location} {head : Option ℕ}
    {address : Addr} (loaded : stash.load location = .ok head)
    (missed : stash.find StackNode.siblings address head = .ok none)
    (hung : Hung stash location head address stored) (linked : Linked stored)
    (heads : ∀ n ∈ head, n < stash.nodes.length) : Trie stored where
  linked := linked
  sited n node held := by
    obtain ⟨siblings, chain, _⟩ := exists_chain trie.linked.siblings heads
    -- The chain at the location is the old one behind the new node.
    have grown : Children stored location (stash.nodes.length :: siblings) :=
      ⟨_, hung.here, .cons hung.fresh (hung.chain chain)⟩
    rcases hung.cases held with ⟨rfl, rfl⟩ | ⟨before, heldBefore, _, parent, _⟩
    · exact ⟨_, by rw [locationOf_owner]; exact grown, by simp⟩
    · obtain ⟨list, ⟨start, loadedOld, chainOld⟩, member⟩ := trie.sited n before heldBefore
      rw [parent]
      by_cases here : locationOf before.parent = location
      · rw [here] at loadedOld ⊢
        rw [loaded] at loadedOld
        cases loadedOld
        rw [chainOld.unique chain] at member
        exact ⟨_, grown, by simp [member]⟩
      · exact ⟨list, ⟨start, hung.elsewhere _ _ here loadedOld, hung.chain chainOld⟩, member⟩
  distinct n m node other held found parent same := by
    rcases hung.cases held with ⟨rfl, rfl⟩ | ⟨before, heldBefore, addressBefore, parentBefore, _⟩ <;>
      rcases hung.cases found with ⟨rfl, rfl⟩ | ⟨after, foundBefore, addressAfter, parentAfter, _⟩
    · rfl
    · exact absurd (addressAfter.symm.trans same.symm)
        (trie.find_none loaded missed foundBefore (parentAfter.symm.trans parent.symm))
    · exact absurd (addressBefore.symm.trans same)
        (trie.find_none loaded missed heldBefore (parentBefore.symm.trans parent))
    · exact trie.distinct n m before after heldBefore foundBefore
        (parentBefore.symm.trans (parent.trans parentAfter)) (addressBefore.symm.trans (same.trans addressAfter))

theorem decorateNode_sameLinks {stash later : StackStash} {n : ℕ} (ran : decorateNode stash n = .ok later) :
    SameLinks stash later := by
  obtain ⟨node, found, ran⟩ := ok_of_bind ran
  obtain ⟨earlier, _, ran⟩ := ok_of_bind ran
  cases ran
  have same : SameLinks stash (stash.setNode n
      { node with toplevel := earlier.isNone, next := stash.nodesByData.lookup node.address }) :=
    sameLinks_setNode (node_eq_ok.mp found) rfl
  exact ⟨same.root, same.nodes⟩

theorem store_index {stash later : StackStash} {location : Location} {n : ℕ}
    (ran : stash.store location n = .ok later) : later.nodesByData = stash.nodesByData := by
  cases location with
  | root => cases ran; rfl
  | children m =>
    obtain ⟨node, _, ran⟩ := ok_of_bind ran
    cases ran
    rfl

/-- A new node is hung where it belongs and then decorated. -/
theorem addNode_parts {stash later : StackStash} (linked : Linked stash) {location : Location} {head : Option ℕ}
    {address : Addr} {n : ℕ} (inside : ∀ m ∈ owner location, m < stash.nodes.length)
    (heads : ∀ n ∈ head, ∃ node : StackNode, stash.nodes[n]? = some node ∧ node.parent = owner location)
    (ran : stackStashAddNode stash location head (owner location) address = .ok (later, n)) :
    ∃ stored, Hung stash location head address stored ∧ Linked stored ∧ stored.nodesByData = stash.nodesByData ∧
      decorateNode stored stash.nodes.length = .ok later ∧ n = stash.nodes.length := by
  obtain ⟨fresh, spelled⟩ : ∃ fresh : StackNode,
      fresh = { address := address, siblings := head, parent := owner location } := ⟨_, rfl⟩
  have appended : Linked { stash with nodes := stash.nodes ++ [fresh] } :=
    linked.append (by rw [spelled]; exact inside) (by rw [spelled]) (by rw [spelled]; exact heads)
  have held : (stash.nodes ++ [fresh])[stash.nodes.length]? = some fresh := by simp
  obtain ⟨stored, ranStore, linkedStore, _⟩ := appended.store held (by rw [spelled]) fun m member => by
    have := inside m member
    simp only [List.length_append]
    omega
  have new : (stackNodeNew stash).2 = stash.nodes.length := rfl
  simp only [stackStashAddNode, new, ← spelled, stackNodeNew_setNode, ranStore] at ran
  obtain ⟨_, ⟨⟩, ran⟩ := ok_of_bind ran
  obtain ⟨decorated, ranDecorate, ran⟩ := ok_of_bind ran
  cases ran
  have index := store_index ranStore
  exact ⟨stored, hung_store inside (by rw [← spelled]; exact ranStore), linkedStore, index, ranDecorate, rfl⟩

theorem Trie.addNode {stash later : StackStash} (trie : Trie stash) {location : Location} {head : Option ℕ}
    {address : Addr} {n : ℕ} (inside : ∀ m ∈ owner location, m < stash.nodes.length)
    (loaded : stash.load location = .ok head) (missed : stash.find StackNode.siblings address head = .ok none)
    (ran : stackStashAddNode stash location head (owner location) address = .ok (later, n)) : Trie later := by
  obtain ⟨head', loaded', heads⟩ := trie.linked.load location inside
  rw [loaded] at loaded'
  cases loaded'
  obtain ⟨stored, hung, linked, _, ranDecorate, _⟩ := addNode_parts trie.linked inside heads ran
  obtain ⟨later', ranLater, linkedLater, _⟩ := linked.decorate (by rw [hung.fresh])
  rw [ranDecorate] at ranLater
  cases ranLater
  have inward : ∀ n ∈ head, n < stash.nodes.length := by
    intro n member
    obtain ⟨node, found, _⟩ := heads n member
    exact (List.getElem?_eq_some_iff.mp found).1
  exact (trie.hung loaded missed hung linked inward).sameLinks (decorateNode_sameLinks ranDecorate) linkedLater

/-! ## What a new node changes -/

theorem Trace.lt_length {nodes : List StackNode} {start : Option ℕ} {frames : List Addr}
    (trace : Trace nodes start frames) : ∀ n ∈ start, n < nodes.length := by
  rintro n ⟨⟩
  cases trace with
  | cons held _ => exact (List.getElem?_eq_some_iff.mp held).1

/-- The chain of parents that a trace is read from. -/
theorem Trace.chain {nodes : List StackNode} {start : Option ℕ} {frames : List Addr}
    (trace : Trace nodes start frames) :
    ∃ list, Chain nodes StackNode.parent start list ∧
      ∀ address, address ∈ frames ↔ ∃ i ∈ list, ∃ node, nodes[i]? = some node ∧ node.address = address := by
  induction trace with
  | nil => exact ⟨[], .nil, by simp⟩
  | @cons n node frames held _ inductionHypothesis =>
    obtain ⟨list, chain, spelled⟩ := inductionHypothesis
    refine ⟨n :: list, .cons held chain, fun address => ?_⟩
    rw [List.mem_cons, spelled]
    constructor
    · rintro (rfl | ⟨i, member, rest⟩)
      · exact ⟨n, by simp, node, held, rfl⟩
      · exact ⟨i, by simp [member], rest⟩
    · rintro ⟨i, member, other, found, same⟩
      rcases List.mem_cons.mp member with rfl | later
      · rw [held] at found
        cases found
        exact .inl same.symm
      · exact .inr ⟨i, later, other, found, same⟩

/-- The search of `decorate_node` looks for the address on the trace. -/
theorem Trace.find_parent {stash : StackStash} {start : Option ℕ} {frames : List Addr}
    (trace : Trace stash.nodes start frames) (address : Addr) :
    ∃ earlier, stash.find StackNode.parent address start = .ok earlier ∧
      (earlier.isNone = true ↔ address ∉ frames) := by
  obtain ⟨list, chain, spelled⟩ := trace.chain
  refine ⟨_, by rw [StackStash.find, search_eq chain _ chain.length_le], ?_⟩
  rw [Option.isNone_iff_eq_none, List.find?_eq_none, spelled]
  constructor
  · rintro absent ⟨i, member, node, held, same⟩
    exact absent i member (by simp [held, same])
  · intro absent i member found
    obtain ⟨node, held, same⟩ := Option.any_eq_true _ _ |>.mp found
    exact absent ⟨i, member, node, held, by simpa using same⟩

/-- The stash with a new node that is decorated. -/
structure Placed (stash : StackStash) (location : Location) (head : Option ℕ) (address : Addr) (later : StackStash) :
    Prop where
  fresh : ∃ node : StackNode, later.nodes[stash.nodes.length]? = some node ∧ node.address = address ∧
    node.parent = owner location ∧ node.siblings = head ∧ node.children = none ∧ node.total = 0 ∧ node.size = 0 ∧
    node.next = stash.nodesByData.lookup address ∧
    ∀ outer, Trace stash.nodes (owner location) outer → (node.toplevel = true ↔ address ∉ outer)
  old : ∀ n < stash.nodes.length, later.nodes[n]? = stash.nodes[n]?.map fun node =>
    if location = .children n then { node with children := some stash.nodes.length } else node
  length : later.nodes.length = stash.nodes.length + 1
  index : later.nodesByData = stash.nodesByData.insert address stash.nodes.length

theorem Hung.grows {stash stored : StackStash} {location : Location} {head : Option ℕ} {address : Addr}
    (hung : Hung stash location head address stored) {n : ℕ} {node : StackNode} (held : stash.nodes[n]? = some node) :
    ∃ node', stored.nodes[n]? = some node' ∧ node'.address = node.address ∧ node'.parent = node.parent := by
  refine ⟨_, by rw [hung.old n (List.getElem?_eq_some_iff.mp held).1, held]; rfl, ?_⟩
  split
  · exact ⟨rfl, rfl⟩
  · exact ⟨rfl, rfl⟩

theorem Hung.placed {stash stored later : StackStash} {location : Location} {head : Option ℕ} {address : Addr}
    (hung : Hung stash location head address stored) (index : stored.nodesByData = stash.nodesByData)
    (ran : decorateNode stored stash.nodes.length = .ok later) {outer : List Addr}
    (trace : Trace stash.nodes (owner location) outer) : Placed stash location head address later := by
  obtain ⟨node, held, ran⟩ := ok_of_bind ran
  obtain ⟨earlier, searched, ran⟩ := ok_of_bind ran
  rw [node_eq_ok, hung.fresh] at held
  cases held
  cases ran
  have lookup := getElem?_setNode hung.fresh
  obtain ⟨earlier', searched', absent⟩ := (trace.kept fun n node held => hung.grows held).find_parent address
  rw [searched] at searched'
  cases searched'
  refine ⟨⟨_, (lookup _ _).trans (if_pos rfl), rfl, rfl, rfl, rfl, rfl, rfl, by rw [index], ?_⟩, ?_, ?_, by rw [index]⟩
  · intro outer' trace'
    rw [trace'.unique trace]
    exact absent
  · intro n old
    refine (lookup _ _).trans ?_
    rw [if_neg (Nat.ne_of_lt old)]
    exact hung.old n old
  · simpa [setNode] using hung.length

/-- A node that is matched was there, or is placed where none had the address. -/
theorem Trie.match_cases {stash later : StackStash} (trie : Trie stash) {location : Location} {address : Addr} {n : ℕ}
    {outer : List Addr} (trace : Trace stash.nodes (owner location) outer)
    (ran : stackStashMatch stash location (owner location) address = .ok (later, n)) :
    (later = stash ∧ ∃ node, stash.nodes[n]? = some node ∧ node.address = address ∧ node.parent = owner location) ∨
      ∃ head, n = stash.nodes.length ∧ Placed stash location head address later ∧
        ∀ (m : ℕ) (node : StackNode), stash.nodes[m]? = some node → node.parent = owner location →
          node.address ≠ address := by
  have inside := trace.lt_length
  obtain ⟨head, loaded, heads⟩ := trie.linked.load location inside
  obtain ⟨found, searched, matching⟩ := trie.linked.find address heads
  simp only [stackStashMatch, loaded, searched, ok_bind] at ran
  cases found with
  | some found =>
    cases ran
    obtain ⟨node, held, addressEqual, parent⟩ := matching n rfl
    exact .inl ⟨rfl, node, held, addressEqual, parent⟩
  | none =>
    obtain ⟨stored, hung, _, index, ranDecorate, rfl⟩ := addNode_parts trie.linked inside heads ran
    exact .inr ⟨head, rfl, hung.placed index ranDecorate trace, fun m node held parent =>
      trie.find_none loaded searched held parent⟩

/-! ## Adding traces -/

theorem Trie.match_ok {stash later : StackStash} (trie : Trie stash) {location : Location} {address : Addr} {n : ℕ}
    (inside : ∀ m ∈ owner location, m < stash.nodes.length)
    (ran : stackStashMatch stash location (owner location) address = .ok (later, n)) : Trie later := by
  obtain ⟨head, loaded, ran⟩ := ok_of_bind ran
  obtain ⟨found, searched, ran⟩ := ok_of_bind ran
  cases found with
  | none => exact trie.addNode inside loaded searched ran
  | some found =>
    cases ran
    exact trie

/-- The state of the loop: the location belongs to the node matched last. -/
def Looping (state : StackStash × Location × Option ℕ) : Prop :=
  Trie state.1 ∧ state.2.2 = owner state.2.1 ∧ ∀ m ∈ owner state.2.1, m < state.1.nodes.length

theorem Looping.addFrame {state later : StackStash × Location × Option ℕ} (looping : Looping state) {size : ℤ}
    {address : Addr} (ran : stackStashAddFrame size state address = .ok later) : Looping later := by
  obtain ⟨stash, location, parent⟩ := state
  obtain ⟨trie, owned, inside⟩ := looping
  have parent_eq : parent = owner location := owned
  subst parent_eq
  obtain ⟨⟨matched, n⟩, ranMatch, ran⟩ := ok_of_bind ran
  obtain ⟨node, found, ran⟩ := ok_of_bind ran
  cases ran
  have held := node_eq_ok.mp found
  have matchedTrie := trie.match_ok inside ranMatch
  have counted : Linked (matched.setNode n { node with total := node.total + UInt32.ofInt size }) ∧ _ :=
    matchedTrie.linked.setNode held rfl rfl rfl fun c down => matchedTrie.linked.children n node c held down
  refine ⟨matchedTrie.sameLinks (sameLinks_setNode held rfl) counted.1, rfl, ?_⟩
  rintro m ⟨⟩
  simpa [StackStash.setNode] using (List.getElem?_eq_some_iff.mp held).1

/-- A trace without addresses leaves the stash as it is; else the innermost node is charged
after the loop. -/
theorem addTrace_inv {stash later : StackStash} {frames : List Addr} {amount : ℤ} {start : Option ℕ}
    (ran : stackStashAddTrace stash frames amount = .ok (later, start)) :
    (frames = [] ∧ later = stash ∧ start = none) ∨
    ∃ looped location n node,
      frames.reverse.foldlM (stackStashAddFrame amount) (stash, .root, none) = .ok (looped, location, some n) ∧
      looped.nodes[n]? = some node ∧
      later = looped.setNode n { node with size := node.size + BitVec.ofInt 31 amount } ∧ start = some n := by
  unfold stackStashAddTrace at ran
  split at ran
  next empty =>
    cases ran
    exact .inl ⟨empty, rfl, rfl⟩
  next =>
  obtain ⟨⟨looped, location, parent⟩, ranLoop, ran⟩ := ok_of_bind ran
  cases parent with
  | none => cases ran
  | some n =>
    obtain ⟨node, found, ran⟩ := ok_of_bind ran
    cases ran
    exact .inr ⟨looped, location, n, node, ranLoop, node_eq_ok.mp found, rfl, rfl⟩

theorem Trie.addTrace {stash later : StackStash} (trie : Trie stash) {frames : List Addr} {size : ℤ} {start : Option ℕ}
    (ran : stackStashAddTrace stash frames size = .ok (later, start)) : Trie later := by
  obtain ⟨-, rfl, -⟩ | ⟨looped, location, n, node, ranLoop, held, rfl, -⟩ := addTrace_inv ran
  · exact trie
  have initially : Looping (stash, .root, none) := ⟨trie, rfl, by rintro m ⟨⟩⟩
  have ensured : Ensures (fun _ => True) (frames.reverse.foldlM (stackStashAddFrame size) (stash, .root, none)) Looping := by
    refine ensures_foldlM (fun state address _ looping => ?_) initially
    cases stepped : stackStashAddFrame size state address with
    | error fault => exact trivial
    | ok later => exact looping.addFrame stepped
  have looping : Looping (looped, location, some n) := ensured.of_ok ranLoop
  have charged : Linked (looped.setNode n { node with size := node.size + BitVec.ofInt 31 size }) ∧ _ :=
    looping.1.linked.setNode held rfl rfl rfl fun c down => looping.1.linked.children n node c held down
  exact looping.1.sameLinks (sameLinks_setNode held rfl) charged.1

/-- Calls of `stack_stash_add_trace` on one stash and the nodes they return. -/
def addTraces (stash : StackStash) (calls : List (List Addr × ℤ)) : Except Fault (StackStash × List (Option ℕ)) :=
  calls.foldlM (fun state call => do
    let (stash, start) ← stackStashAddTrace state.1 call.1 call.2
    .ok (stash, state.2 ++ [start])) (stash, [])

theorem addTraces_spec (calls : List (List Addr × ℤ)) :
    ∃ stash starts, addTraces {} calls = .ok (stash, starts) ∧ Trie stash ∧
      List.Forall₂ (fun call start => Trace stash.nodes start call.1) calls starts := by
  induction calls using List.reverseRecOn with
  | nil => exact ⟨{}, [], rfl, trie_empty, .nil⟩
  | append_singleton calls call inductionHypothesis =>
    obtain ⟨stash, starts, ran, trie, traced⟩ := inductionHypothesis
    obtain ⟨later, start, ranCall, _, grows, trace⟩ := addTrace_spec trie.linked call.1 call.2
    refine ⟨later, starts ++ [start], ?_, trie.addTrace ranCall, ?_⟩
    · unfold addTraces at ran ⊢
      rw [foldlM_concat, ran, ok_bind]
      simp only [ranCall]
      rfl
    · -- What the earlier calls have returned still spells their traces.
      exact List.rel_append (traced.imp fun _ _ older => older.grows grows) (.cons trace .nil)

/-- The last call and the trie it is made on. -/
theorem addTraces_concat {calls : List (List Addr × ℤ)} {call : List Addr × ℤ} {stash : StackStash}
    {starts : List (Option ℕ)} (ran : addTraces {} (calls ++ [call]) = .ok (stash, starts)) :
    ∃ before starts' start, addTraces {} calls = .ok (before, starts') ∧ Trie before ∧
      stackStashAddTrace before call.1 call.2 = .ok (stash, start) := by
  unfold addTraces at ran
  rw [foldlM_concat] at ran
  obtain ⟨⟨before, starts'⟩, ranBefore, ran⟩ := ok_of_bind ran
  obtain ⟨⟨later, start⟩, ranCall, ran⟩ := ok_of_bind ran
  cases ran
  have ranBefore' : addTraces {} calls = .ok (before, starts') := ranBefore
  obtain ⟨stash', starts'', ran', trie, _⟩ := addTraces_spec calls
  rw [ranBefore'] at ran'
  cases ran'
  exact ⟨before, starts', start, ranBefore, trie, ranCall⟩

/-- For every sequence of calls on a new stash, and so at every later moment of a longer
one: each node that was returned has the trace it was returned for, and two calls have
returned the same node exactly if their traces are equal. -/
theorem addTraces_lossless (calls : List (List Addr × ℤ)) :
    ∃ stash starts, addTraces {} calls = .ok (stash, starts) ∧
      List.Forall₂ (fun call start => Trace stash.nodes start call.1) calls starts ∧
      ∀ (i j : ℕ) (first second : List Addr × ℤ) (start other : Option ℕ), calls[i]? = some first →
        calls[j]? = some second → starts[i]? = some start → starts[j]? = some other →
          (start = other ↔ first.1 = second.1) := by
  obtain ⟨stash, starts, ran, trie, traced⟩ := addTraces_spec calls
  have spells : ∀ (i : ℕ) (call : List Addr × ℤ) (start : Option ℕ), calls[i]? = some call → starts[i]? = some start →
      Trace stash.nodes start call.1 := by
    intro i call start held returned
    obtain ⟨inside, rfl⟩ := List.getElem?_eq_some_iff.mp held
    obtain ⟨insideStart, rfl⟩ := List.getElem?_eq_some_iff.mp returned
    exact (List.forall₂_iff_get.mp traced).2 i inside insideStart
  refine ⟨stash, starts, ran, traced, ?_⟩
  intro i j first second start other callI callJ startI startJ
  have left := spells i first start callI startI
  have right := spells j second other callJ startJ
  constructor
  · rintro rfl
    exact left.unique right
  · intro equal
    rw [equal] at left
    exact trie.trace_unique left right

end Memprof.Stash
