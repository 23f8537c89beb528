import Memprof.Verified.StashForeach

/-! # The lists of nodes with one address

`nodes_by_data` leads to the newest node with an address and `next` from there to the older
ones: a new node comes in front of them, whether `decorate_node` puts it there or
`build_hash_table`, which goes through the nodes of a trie in the order that is the tour's
backwards.
-/

namespace Memprof.Stash

open Library StackStash

/-- The lists have exactly the nodes of `present`. -/
def Listed (stash : StackStash) (present : ℕ → Prop) : Prop :=
  ∀ address, ∃ list, Chain stash.nodes StackNode.next (stackStashFindNode stash address) list ∧
    ∀ n, n ∈ list ↔ present n ∧ ∃ node, stash.nodes[n]? = some node ∧ node.address = address

/-- A node is put in front of the list for its address. -/
theorem Listed.insert {stash later : StackStash} {present : ℕ → Prop} (listed : Listed stash present) {n : ℕ}
    {node : StackNode} (absent : ¬ present n) (held : later.nodes[n]? = some node)
    (next : node.next = stash.nodesByData.lookup node.address)
    (index : later.nodesByData = stash.nodesByData.insert node.address n)
    (others : ∀ (m : ℕ) (other : StackNode), m ≠ n → stash.nodes[m]? = some other →
      ∃ other', later.nodes[m]? = some other' ∧ other'.address = other.address ∧ other'.next = other.next)
    (inside : ∀ m, present m → m < stash.nodes.length) : Listed later fun m => m = n ∨ present m := by
  intro address
  obtain ⟨list, chain, members⟩ := listed address
  have apart : ∀ m ∈ list, m ≠ n := by
    rintro m member rfl
    exact absent ((members m).mp member).1
  have kept : Chain later.nodes StackNode.next (stackStashFindNode stash address) list :=
    chain.congr fun m member other found => by
      obtain ⟨other', found', _, same⟩ := others m other (apart m member) found
      exact ⟨other', found', same⟩
  -- What is listed for another node is what it was.
  have old : ∀ m, m ≠ n → ((present m ∧ ∃ other, stash.nodes[m]? = some other ∧ other.address = address) ↔
      (m = n ∨ present m) ∧ ∃ other, later.nodes[m]? = some other ∧ other.address = address) := by
    intro m different
    constructor
    · rintro ⟨here, other, found, rfl⟩
      obtain ⟨other', found', same, _⟩ := others m other different found
      exact ⟨.inr here, other', found', same⟩
    · rintro ⟨here, other', found', rfl⟩
      have here := here.resolve_left different
      obtain ⟨other, found⟩ : ∃ other, stash.nodes[m]? = some other := ⟨_, List.getElem?_eq_getElem (inside m here)⟩
      obtain ⟨other'', found'', same, _⟩ := others m other different found
      rw [found'] at found''
      cases found''
      exact ⟨here, other, found, same.symm⟩
  by_cases same : address = node.address
  · subst same
    refine ⟨n :: list, ?_, fun m => ?_⟩
    · rw [stackStashFindNode, index, AList.lookup_insert]
      refine .cons held ?_
      rw [next]
      exact kept
    · by_cases here : m = n
      · rw [here]
        exact ⟨fun _ => ⟨.inl rfl, node, held, rfl⟩, fun _ => by simp⟩
      · rw [List.mem_cons, or_iff_right here, members, old m here]
  · refine ⟨list, ?_, fun m => ?_⟩
    · rw [stackStashFindNode, index, AList.lookup_insert_ne same]
      exact kept
    · by_cases here : m = n
      · rw [here]
        refine ⟨fun member => absurd rfl (apart n member), ?_⟩
        rintro ⟨_, other, found, rfl⟩
        rw [held] at found
        cases found
        exact absurd rfl same
      · rw [members, old m here]

theorem Listed.congr {stash : StackStash} {present present' : ℕ → Prop} (listed : Listed stash present)
    (same : ∀ n, present n ↔ present' n) : Listed stash present' := by
  intro address
  obtain ⟨list, chain, members⟩ := listed address
  exact ⟨list, chain, fun n => by rw [members, same]⟩

/-! ## The index that grows with the trie -/

structure Index (stash : StackStash) : Prop where
  listed : Listed stash (· < stash.nodes.length)
  toplevel : ∀ (n : ℕ) (node : StackNode) (outer : List Addr), stash.nodes[n]? = some node →
    Trace stash.nodes node.parent outer → (node.toplevel = true ↔ node.address ∉ outer)

theorem index_empty : Index {} where
  listed _ := ⟨[], .nil, by simp⟩
  toplevel _ _ _ held := by cases held

theorem exists_trace_owner {stash : StackStash} (linked : Linked stash) {owner : Option ℕ}
    (inside : ∀ m ∈ owner, m < stash.nodes.length) : ∃ outer, Trace stash.nodes owner outer := by
  cases owner with
  | none => exact ⟨[], .nil⟩
  | some m => exact exists_trace linked (inside m rfl)

/-- The trace of a parent in a stash that keeps the nodes. -/
theorem Linked.trace_parent {stash later : StackStash} (linked : Linked stash) {n : ℕ} {node : StackNode}
    (held : stash.nodes[n]? = some node) (kept : ∀ (m : ℕ) (other : StackNode), stash.nodes[m]? = some other →
      ∃ other', later.nodes[m]? = some other' ∧ other'.address = other.address ∧ other'.parent = other.parent)
    {outer : List Addr} (trace : Trace later.nodes node.parent outer) : Trace stash.nodes node.parent outer := by
  have inside : ∀ m ∈ node.parent, m < stash.nodes.length := fun m up =>
    Nat.lt_trans (linked.parents n node m held up) (List.getElem?_eq_some_iff.mp held).1
  obtain ⟨outer', trace'⟩ := exists_trace_owner linked inside
  rw [trace.unique (trace'.kept kept)]
  exact trace'

theorem Index.placed {stash later : StackStash} (index : Index stash) (linked : Linked stash) {location : Location}
    {head : Option ℕ} {address : Addr} (placed : Placed stash location head address later) {outer : List Addr}
    (trace : Trace stash.nodes (owner location) outer) : Index later where
  listed := by
    obtain ⟨node, held, rfl, _, _, _, _, _, next, _⟩ := placed.fresh
    refine (index.listed.insert (Nat.lt_irrefl _) held next placed.index ?_ fun m => id).congr fun m => ?_
    · intro m other _ found
      refine ⟨_, by rw [placed.old m (List.getElem?_eq_some_iff.mp found).1, found]; rfl, ?_⟩
      split
      · exact ⟨rfl, rfl⟩
      · exact ⟨rfl, rfl⟩
    · rw [placed.length]
      omega
  toplevel n node outer' held spelled := by
    rcases Nat.lt_or_ge n stash.nodes.length with old | new
    · rw [placed.old n old] at held
      obtain ⟨before, heldBefore, rfl⟩ := Option.map_eq_some_iff.mp held
      have same : ∀ after : StackNode, after = (if location = .children n then
          { before with children := some stash.nodes.length } else before) →
          after.parent = before.parent ∧ after.address = before.address ∧ after.toplevel = before.toplevel := by
        rintro after rfl
        split
        · exact ⟨rfl, rfl, rfl⟩
        · exact ⟨rfl, rfl, rfl⟩
      obtain ⟨parent, address_eq, toplevel⟩ := same _ rfl
      rw [parent] at spelled
      rw [address_eq, toplevel]
      exact index.toplevel n before outer' heldBefore
        (linked.trace_parent heldBefore (fun m other found => placed.grows found) spelled)
    · have inside := (List.getElem?_eq_some_iff.mp held).1
      rw [placed.length] at inside
      obtain rfl : n = stash.nodes.length := by omega
      obtain ⟨node', held', rfl, parent, _, _, _, _, _, toplevel⟩ := placed.fresh
      rw [held] at held'
      cases held'
      rw [parent] at spelled
      rw [spelled.unique (trace.kept fun m other found => placed.grows found)]
      exact toplevel outer trace

/-- Counting leaves the index as it is. -/
theorem Index.setNode {stash : StackStash} (index : Index stash) {n : ℕ} {node node' : StackNode}
    (held : stash.nodes[n]? = some node) (same : links node' = links node)
    (kept : node'.next = node.next ∧ node'.toplevel = node.toplevel) : Index (stash.setNode n node') where
  listed := by
    intro address
    obtain ⟨list, chain, members⟩ := index.listed address
    have lookup := getElem?_setNode held node'
    refine ⟨list, chain.congr fun m _ other found => ?_, fun m => ?_⟩
    · rw [lookup]
      split
      next here =>
        rw [here, held] at found
        cases found
        exact ⟨node', rfl, kept.1⟩
      next => exact ⟨other, found, rfl⟩
    · rw [members]
      have length : (stash.setNode n node').nodes.length = stash.nodes.length := by simp [StackStash.setNode]
      have address_eq : node'.address = node.address := congrArg (·.1) same
      rw [length, lookup]
      split
      next here => rw [here, held]; simp [address_eq]
      next => rfl
  toplevel m other outer found spelled := by
    have spelledBefore := (sameLinks_setNode held same).symm.trace spelled
    rw [getElem?_setNode held] at found
    split at found
    next here =>
      cases found
      have parent : node'.parent = node.parent := congrArg (·.2.1) same
      have address_eq : node'.address = node.address := congrArg (·.1) same
      rw [parent] at spelledBefore
      rw [kept.2, address_eq]
      exact index.toplevel n node outer held spelledBefore
    next => exact index.toplevel m other outer found spelledBefore

theorem Index.addFrame {state later : StackStash × Location × Option ℕ} (index : Index state.1)
    (looping : Looping state) {amount : ℤ} {address : Addr}
    (ran : stackStashAddFrame amount state address = .ok later) : Index later.1 := by
  obtain ⟨stash, location, parent⟩ := state
  obtain ⟨trie, owned, inside⟩ := looping
  obtain rfl : parent = owner location := owned
  obtain ⟨⟨matched, n⟩, ranMatch, ran⟩ := ok_of_bind ran
  obtain ⟨node, found, ran⟩ := ok_of_bind ran
  cases ran
  obtain ⟨outer, trace⟩ := exists_trace_owner trie.linked inside
  have indexed : Index matched := by
    rcases trie.match_cases trace ranMatch with ⟨rfl, _⟩ | ⟨head, _, placed, _⟩
    · exact index
    · exact index.placed trie.linked placed trace
  exact indexed.setNode (node_eq_ok.mp found) rfl ⟨rfl, rfl⟩

theorem Index.addTrace {stash later : StackStash} (index : Index stash) (trie : Trie stash)
    {frames : List Addr} {amount : ℤ} {start : Option ℕ}
    (ran : stackStashAddTrace stash frames amount = .ok (later, start)) : Index later := by
  obtain ⟨-, rfl, -⟩ | ⟨looped, location, n, node, ranLoop, held, rfl, -⟩ := addTrace_inv ran
  · exact index
  have ensured : Ensures (fun _ => True) (frames.reverse.foldlM (stackStashAddFrame amount) (stash, .root, none))
      fun state => Looping state ∧ Index state.1 := by
    refine ensures_foldlM (fun state address _ both => ?_) ⟨⟨trie, rfl, by rintro m ⟨⟩⟩, index⟩
    cases stepped : stackStashAddFrame amount state address with
    | error fault => exact trivial
    | ok later => exact ⟨both.1.addFrame stepped, both.2.addFrame both.1 stepped⟩
  obtain ⟨_, indexed⟩ := ensured.of_ok ranLoop
  exact indexed.setNode held rfl ⟨rfl, rfl⟩

theorem index_addTraces {calls : List (List Addr × ℤ)} {stash : StackStash} {starts : List (Option ℕ)}
    (ran : addTraces {} calls = .ok (stash, starts)) : Index stash := by
  induction calls using List.reverseRecOn generalizing stash starts with
  | nil =>
    cases ran
    exact index_empty
  | append_singleton calls call inductionHypothesis =>
    obtain ⟨before, starts', start, ranBefore, trie, ranCall⟩ := addTraces_concat ran
    exact (inductionHypothesis ranBefore).addTrace trie ranCall

/-! ## The index that is rebuilt -/

/-- The stashes have the same nodes but for `next`. -/
structure Relisted (stash later : StackStash) : Prop where
  root : later.root = stash.root
  length : later.nodes.length = stash.nodes.length
  node : ∀ (n : ℕ) (node : StackNode), stash.nodes[n]? = some node →
    ∃ next, later.nodes[n]? = some { node with next := next }

theorem Relisted.refl (stash : StackStash) : Relisted stash stash := ⟨rfl, rfl, fun _ node held => ⟨node.next, held⟩⟩

theorem Relisted.setNext {stash later : StackStash} (relisted : Relisted stash later) {n : ℕ} {node : StackNode}
    (held : stash.nodes[n]? = some node) (next : Option ℕ) (table : HashTable Addr ℕ) :
    Relisted stash { later.setNode n { node with next := next } with nodesByData := table } where
  root := relisted.root
  length := by simpa [StackStash.setNode] using relisted.length
  node m other found := by
    obtain ⟨next', held'⟩ := relisted.node n node held
    have lookup := getElem?_setNode held' { node with next := next } m
    split at lookup
    next here =>
      rw [here, held] at found
      cases found
      exact ⟨next, lookup⟩
    next =>
      obtain ⟨next'', found'⟩ := relisted.node m other found
      exact ⟨next'', lookup.trans found'⟩

/-- What is listed before, and what the tour meets. -/
theorem buildHashTable_spec {stash later : StackStash} {start : Option ℕ} {visited : List ℕ}
    (tour : Tour stash.nodes StackNode.children StackNode.siblings start visited) (relisted : Relisted stash later)
    {present : ℕ → Prop} (listed : Listed later present) (inside : ∀ m, present m → m < stash.nodes.length)
    (distinct : visited.Nodup) (apart : ∀ n ∈ visited, ¬ present n) {fuel : ℕ} (enough : visited.length ≤ fuel) :
    ∃ last, buildHashTable fuel start later = .ok last ∧ Relisted stash last ∧
      Listed last fun n => n ∈ visited ∨ present n := by
  induction tour generalizing later present fuel with
  | nil => exact ⟨later, by rw [buildHashTable], relisted, listed.congr fun n => by simp⟩
  | @cons i node under beside held down next downHypothesis nextHypothesis =>
    simp only [List.length_cons, List.length_append] at enough
    obtain ⟨fuel, rfl⟩ : ∃ fewer, fuel = fewer + 1 := ⟨fuel - 1, by omega⟩
    obtain ⟨fresh, both⟩ := List.nodup_cons.mp distinct
    obtain ⟨distinctUnder, distinctBeside, disjoint⟩ := List.nodup_append.mp both
    -- The siblings come first, then the children.
    obtain ⟨first, ranFirst, relistedFirst, listedFirst⟩ := nextHypothesis relisted listed inside distinctBeside
      (fun n member => apart n (by simp [member])) (show beside.length ≤ fuel by omega)
    have insideFirst : ∀ m, m ∈ beside ∨ present m → m < stash.nodes.length := by
      rintro m (member | here)
      · exact next.lt_length m member
      · exact inside m here
    have apartUnder : ∀ n ∈ under, ¬ (n ∈ beside ∨ present n) := by
      rintro n member (again | here)
      · exact disjoint n member n again rfl
      · exact apart n (by simp [member]) here
    obtain ⟨second, ranSecond, relistedSecond, listedSecond⟩ := downHypothesis relistedFirst listedFirst insideFirst
      distinctUnder apartUnder (show under.length ≤ fuel by omega)
    obtain ⟨next₀, held₀⟩ := relisted.node i node held
    obtain ⟨next₁, held₁⟩ := relistedFirst.node i node held
    obtain ⟨next₂, held₂⟩ := relistedSecond.node i node held
    refine ⟨_, ?_, relistedSecond.setNext held (second.nodesByData.lookup node.address)
      (second.nodesByData.insert node.address i), ?_⟩
    · simp only [buildHashTable, node_eq_ok.mpr held₀, node_eq_ok.mpr held₁, node_eq_ok.mpr held₂, ranFirst, ranSecond,
        ok_bind]
    · have lookup := getElem?_setNode held₂ { node with next := second.nodesByData.lookup node.address }
      have absent : ¬ (i ∈ under ∨ i ∈ beside ∨ present i) := by
        rintro (below | again | here)
        · exact fresh (by simp [below])
        · exact fresh (by simp [again])
        · exact apart i (by simp) here
      have insideSecond : ∀ m, m ∈ under ∨ m ∈ beside ∨ present m → m < second.nodes.length := by
        rw [relistedSecond.length]
        rintro m (member | here)
        · exact down.lt_length m member
        · exact insideFirst m here
      have inserted : Listed { second.setNode i { node with next := second.nodesByData.lookup node.address } with
          nodesByData := second.nodesByData.insert node.address i } _ :=
        listedSecond.insert absent ((lookup i).trans (if_pos rfl)) rfl rfl (fun m other different found =>
          ⟨other, (lookup m).trans ((if_neg different).trans found), rfl, rfl⟩) insideSecond
      exact inserted.congr fun n => by simp [or_assoc]

/-- A stash without nodes of its own takes what hangs on a root. -/
theorem stackStashSetRoot_spec {nodes : List StackNode} {start : Option ℕ} {visited : List ℕ}
    (tour : Tour nodes StackNode.children StackNode.siblings start visited) (distinct : visited.Nodup)
    (enough : visited.length ≤ nodes.length) (refCount : ℤ) :
    ∃ rebuilt, stackStashSetRoot { refCount := refCount, nodes := nodes } start = .ok rebuilt ∧
      Relisted { refCount := refCount, nodes := nodes, root := start } rebuilt ∧ Listed rebuilt (· ∈ visited) := by
  obtain ⟨stash, spelled⟩ : ∃ stash : StackStash, stash =
      { refCount := refCount, nodes := nodes, root := start } := ⟨_, rfl⟩
  have none : Listed stash fun _ => False := by
    rw [spelled]
    exact fun _ => ⟨[], .nil, by simp⟩
  have tour' : Tour stash.nodes StackNode.children StackNode.siblings start visited := by rw [spelled]; exact tour
  obtain ⟨rebuilt, ran, relisted, listed⟩ := buildHashTable_spec tour' (.refl stash) none (fun _ => False.elim) distinct
    (fun _ _ => not_false) enough
  refine ⟨rebuilt, ?_, by rw [← spelled]; exact relisted, listed.congr fun n => by simp⟩
  rw [spelled] at ran
  exact ran

/-- For every sequence of calls on a new stash the chain from `stack_stash_find_node` lists
each node of the trie with that address once and nothing else, and the bit `toplevel` says that
no node further out has the address.  A stash that is given any node of it as its root lists
what hangs there in the same way, and all of it if that is the root. -/
theorem addTraces_index (calls : List (List Addr × ℤ)) :
    ∃ stash starts visited, addTraces {} calls = .ok (stash, starts) ∧
      Tour stash.nodes StackNode.children StackNode.siblings stash.root visited ∧ visited.Nodup ∧
      (∀ address, ∃ list, Chain stash.nodes StackNode.next (stackStashFindNode stash address) list ∧ list.Nodup ∧
        ∀ n, n ∈ list ↔ n ∈ visited ∧ ∃ node, stash.nodes[n]? = some node ∧ node.address = address) ∧
      (∀ n ∈ visited, ∃ node ancestors, stash.nodes[n]? = some node ∧
        Chain stash.nodes StackNode.parent node.parent ancestors ∧
        (node.toplevel = true ↔ ∀ m ∈ ancestors, ∀ ancestor, stash.nodes[m]? = some ancestor →
          ancestor.address ≠ node.address)) ∧
      ∀ (refCount : ℤ) (start : Option ℕ) (under : List ℕ),
        Tour stash.nodes StackNode.children StackNode.siblings start under →
        ∃ rebuilt, stackStashSetRoot { refCount := refCount, nodes := stash.nodes } start = .ok rebuilt ∧
          rebuilt.root = start ∧
          ∀ address, ∃ list, Chain rebuilt.nodes StackNode.next (stackStashFindNode rebuilt address) list ∧ list.Nodup ∧
            ∀ n, n ∈ list ↔ n ∈ under ∧ ∃ node, stash.nodes[n]? = some node ∧ node.address = address := by
  obtain ⟨stash, starts, ran, trie, _⟩ := addTraces_spec calls
  have index := index_addTraces ran
  obtain ⟨visited, tour, distinct, all⟩ := trie.exists_tour
  refine ⟨stash, starts, visited, ran, tour, distinct, ?_, ?_, ?_⟩
  · intro address
    obtain ⟨list, chain, members⟩ := index.listed address
    exact ⟨list, chain, chain.nodup, fun n => by rw [members, all]⟩
  · intro n met
    obtain ⟨node, held⟩ : ∃ node, stash.nodes[n]? = some node := ⟨_, List.getElem?_eq_getElem ((all n).mp met)⟩
    obtain ⟨outer, trace⟩ := exists_trace_owner trie.linked fun m up =>
      Nat.lt_trans (trie.linked.parents n node m held up) ((all n).mp met)
    obtain ⟨ancestors, chain, spelled⟩ := trace.chain
    refine ⟨node, ancestors, held, chain, ?_⟩
    rw [index.toplevel n node outer held trace, spelled]
    constructor
    · intro absent m member ancestor found same
      exact absent ⟨m, member, ancestor, found, same⟩
    · rintro none ⟨m, member, ancestor, found, same⟩
      exact none m member ancestor found same
  · intro refCount start under tourUnder
    have owned : ∃ owner, Under stash.nodes StackNode.parent owner start := by
      cases tourUnder with
      | nil => exact ⟨none, by rintro _ ⟨⟩⟩
      | @cons i node _ _ held _ _ => exact ⟨node.parent, by rintro _ ⟨⟩; exact ⟨node, held, rfl⟩⟩
    obtain ⟨owner, owned⟩ := owned
    have hanging := trie.linked.hanging
    obtain ⟨rebuilt, ranRoot, relisted, listed⟩ := stackStashSetRoot_spec tourUnder (tourUnder.nodup hanging owned)
      (tourUnder.length_le hanging owned) refCount
    refine ⟨rebuilt, ranRoot, relisted.root, fun address => ?_⟩
    obtain ⟨list, chain, members⟩ := listed address
    refine ⟨list, chain, chain.nodup, fun n => ?_⟩
    rw [members]
    refine and_congr_right fun member => ?_
    obtain ⟨node, held⟩ : ∃ node, stash.nodes[n]? = some node :=
      ⟨_, List.getElem?_eq_getElem (tourUnder.lt_length n member)⟩
    obtain ⟨next, found⟩ := relisted.node n node held
    rw [found, held]
    simp

end Memprof.Stash
