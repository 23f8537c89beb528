import Memprof.Verified.NodeBlocks
import Memprof.Verified.StashForeach

/-! # Nodes from blocks are as good as new ones

The stash in memory is the one of `StackStash.lean` with every link led to the place of its
node (`Moved`).  Each part of `stack_stash_add_trace` keeps this, and what it writes spares the
cached nodes (`Spares`), so whole runs do, and whoever reads the stash reads the same.
-/

namespace Memprof.NodeBlocks

open Library StackStash

def moved (place : ℕ → ℕ) (toplevel : Bool) (node : StackNode) : StackNode :=
  { node with
    toplevel := toplevel
    parent := node.parent.map place
    siblings := node.siblings.map place
    children := node.children.map place
    next := node.next.map place }

def moveLocation (place : ℕ → ℕ) : Location → Location
  | .root => .root
  | .children n => .children (place n)

/-- `memory` is `stash` at other places; the `toplevel` of `fresh` is not written yet. -/
structure Moved (place : ℕ → ℕ) (fresh : Option ℕ) (stash memory : StackStash) : Prop where
  root : memory.root = stash.root.map place
  index : ∀ address, memory.nodesByData.lookup address = (stash.nodesByData.lookup address).map place
  length : stash.nodes.length ≤ memory.nodes.length
  node : ∀ n node, stash.nodes[n]? = some node → ∃ toplevel,
    memory.nodes[place n]? = some (moved place toplevel node) ∧ (some n ≠ fresh → toplevel = node.toplevel)

/-- The nodes that are not handed out have not changed. -/
structure Spares (place : ℕ → ℕ) (used : ℕ) (memory later : StackStash) : Prop where
  length : later.nodes.length = memory.nodes.length
  node : ∀ k, used ≤ k → later.nodes[place k]? = memory.nodes[place k]?

theorem Spares.trans {place : ℕ → ℕ} {used : ℕ} {first second third : StackStash}
    (left : Spares place used first second) (right : Spares place used second third) :
    Spares place used first third :=
  ⟨right.length.trans left.length, fun k unused => (right.node k unused).trans (left.node k unused)⟩

section

variable {place : ℕ → ℕ} {fresh : Option ℕ} {stash memory : StackStash}

theorem Moved.held (same : Moved place fresh stash memory) {n : ℕ} {node : StackNode}
    (read : stash.node n = .ok node) :
    ∃ toplevel, memory.node (place n) = .ok (moved place toplevel node) ∧
      (some n ≠ fresh → toplevel = node.toplevel) := by
  obtain ⟨toplevel, held, written⟩ := same.node n node (Stash.node_eq_ok.mp read)
  exact ⟨toplevel, Stash.node_eq_ok.mpr held, written⟩

theorem Moved.load (same : Moved place fresh stash memory) {location : Location} {head : Option ℕ}
    (loaded : stash.load location = .ok head) : memory.load (moveLocation place location) = .ok (head.map place) := by
  cases location with
  | root => cases loaded; exact congrArg Except.ok same.root
  | children n =>
    rw [StackStash.load] at loaded
    cases held : stash.nodes[n]? with
    | none => rw [held] at loaded; cases loaded
    | some node =>
      rw [held] at loaded
      cases loaded
      obtain ⟨toplevel, held', _⟩ := same.node n node held
      simp only [moveLocation, StackStash.load, held']
      rfl

/-- A loop along a link ends at the place of the node where it ends in the stash. -/
theorem Moved.find (same : Moved place fresh stash memory) (link : StackNode → Option ℕ)
    (linked : ∀ toplevel node, link (moved place toplevel node) = (link node).map place) {address : Addr}
    {start found : Option ℕ} (ended : stash.find link address start = .ok found) :
    memory.find link address (start.map place) = .ok (found.map place) := by
  rw [StackStash.find] at ended ⊢
  cases searched : search stash.nodes link (fun node => node.address = address) stash.nodes.length start with
  | none => rw [searched] at ended; cases ended
  | some result =>
    rw [searched] at ended
    cases ended
    have mirrored := search_mirror link (fun node => node.address = address) (fun n node held => by
        obtain ⟨toplevel, held', _⟩ := same.node n node held
        exact ⟨_, held', linked toplevel node, rfl⟩) same.length searched
    rw [mirrored]

variable (injective : Function.Injective place)
include injective

/-- A node is written at its place. -/
theorem Moved.setNode (same : Moved place fresh stash memory) {n : ℕ} {node : StackNode}
    (held : stash.nodes[n]? = some node) (node' : StackNode) {toplevel : Bool} {fresh' : Option ℕ}
    (written : some n ≠ fresh' → toplevel = node'.toplevel) (others : ∀ m, m ≠ n → some m = fresh → some m = fresh') :
    Moved place fresh' (stash.setNode n node') (memory.setNode (place n) (moved place toplevel node')) ∧
      Spares place stash.nodes.length memory (memory.setNode (place n) (moved place toplevel node')) := by
  have inside := (List.getElem?_eq_some_iff.mp held).1
  obtain ⟨_, held', _⟩ := same.node n node held
  refine ⟨⟨same.root, same.index, by simpa [StackStash.setNode] using same.length, fun m other found => ?_⟩,
    by simp [StackStash.setNode], fun k unused => List.getElem?_set_ne fun equal => ?_⟩
  · rw [Stash.getElem?_setNode held] at found
    rw [Stash.getElem?_setNode held']
    split at found
    next here =>
      cases found
      exact ⟨toplevel, by rw [here, if_pos rfl], here ▸ written⟩
    next elsewhere =>
      obtain ⟨flag, held'', keeps⟩ := same.node m other found
      refine ⟨flag, ?_, fun different => keeps fun equal => different (others m elsewhere equal)⟩
      rw [if_neg fun equal => elsewhere (injective equal), held'']
  · have := injective equal
    omega

theorem Moved.store (same : Moved place fresh stash memory) {location : Location} {n : ℕ} {later : StackStash}
    (stored : stash.store location n = .ok later) :
    later.nodes.length = stash.nodes.length ∧
      ∃ memory', memory.store (moveLocation place location) (place n) = .ok memory' ∧
      Moved place fresh later memory' ∧ Spares place stash.nodes.length memory memory' := by
  cases location with
  | root =>
    cases stored
    exact ⟨rfl, _, rfl, ⟨rfl, same.index, same.length, same.node⟩, rfl, fun _ _ => rfl⟩
  | children m =>
    obtain ⟨node, read, stored⟩ := ok_of_bind stored
    cases stored
    obtain ⟨toplevel, read', written⟩ := same.held read
    refine ⟨by simp [StackStash.setNode], _, by rw [moveLocation, StackStash.store, read']; rfl, ?_⟩
    exact same.setNode injective (Stash.node_eq_ok.mp read) { node with children := some n } written
      fun _ _ equal => equal

/-- `decorate_node` writes the `toplevel` that was missing. -/
theorem Moved.decorate {n : ℕ} (same : Moved place (some n) stash memory) {later : StackStash}
    (decorated : decorateNode stash n = .ok later) :
    later.nodes.length = stash.nodes.length ∧ ∃ memory', decorateNode memory (place n) = .ok memory' ∧
      Moved place none later memory' ∧ Spares place stash.nodes.length memory memory' := by
  obtain ⟨node, read, decorated⟩ := ok_of_bind decorated
  obtain ⟨earlier, searched, decorated⟩ := ok_of_bind decorated
  cases decorated
  obtain ⟨toplevel, read', _⟩ := same.held read
  have searched' := same.find StackNode.parent (fun _ _ => rfl) searched
  have index := same.index node.address
  have empty : (earlier.map place).isNone = earlier.isNone := by cases earlier <;> rfl
  obtain ⟨decoratedNode, spelled⟩ : ∃ decoratedNode : StackNode, decoratedNode =
    { node with toplevel := earlier.isNone, next := stash.nodesByData.lookup node.address } := ⟨_, rfl⟩
  rw [← spelled]
  have flagged : some n ≠ none → earlier.isNone = decoratedNode.toplevel := fun _ => by rw [spelled]
  obtain ⟨written, spared⟩ := same.setNode injective (Stash.node_eq_ok.mp read) decoratedNode flagged
    fun m other equal => absurd (Option.some.inj equal) other
  refine ⟨by simp [StackStash.setNode], { memory.setNode (place n) (moved place earlier.isNone decoratedNode) with
    nodesByData := memory.nodesByData.insert node.address (place n) }, ?_,
    ⟨written.root, fun address => ?_, written.length, written.node⟩, spared.length, spared.node⟩
  · rw [decorateNode, read', ok_bind]
    simp only [moved, searched', ok_bind, empty, index, spelled]
  · show ((memory.nodesByData.insert node.address (place n)).lookup address) = _
    by_cases here : address = node.address
    · subst here
      simp [AList.lookup_insert]
    · simp only [AList.lookup_insert_ne here]
      exact same.index address

theorem Moved.charge (same : Moved place none stash memory) {size : ℤ} {parent start : Option ℕ} {later : StackStash}
    (charged : stackStashCharge size stash parent = .ok (later, start)) :
    later.nodes.length = stash.nodes.length ∧ ∃ memory',
      stackStashCharge size memory (parent.map place) = .ok (memory', start.map place) ∧
        Moved place none later memory' ∧ Spares place stash.nodes.length memory memory' := by
  cases parent with
  | none => cases charged
  | some n =>
    obtain ⟨node, read, charged⟩ := ok_of_bind charged
    cases charged
    obtain ⟨toplevel, read', written⟩ := same.held read
    refine ⟨by simp [StackStash.setNode], _, by rw [Option.map_some, stackStashCharge, read']; rfl, ?_⟩
    exact same.setNode injective (Stash.node_eq_ok.mp read) { node with size := node.size + BitVec.ofInt 31 size }
      written fun _ _ equal => equal

end

/-! ## Adding traces -/

/-- The stash in memory between two calls. -/
structure Refines (model : DataModel) (stash : StackStash) (memory : BlockStash) : Prop where
  same : Moved (place model) none stash memory.stash
  cached : Cached model stash.nodes.length memory
  /-- No block was made before the others were used up. -/
  tight : memory.stash.nodes.length < stash.nodes.length + nNodes model

variable {model : DataModel} (garbage : ℕ → StackNode)

theorem refines_empty : Refines model {} {} where
  same := ⟨rfl, fun _ => rfl, Nat.le_refl _, fun _ _ held => by cases held⟩
  cached := ⟨rfl, by simp, Nat.le_refl _, .nil⟩
  tight := by simpa using nNodes_pos model

theorem Cached.spares {used : ℕ} {memory : BlockStash} (cached : Cached model used memory) {later : StackStash}
    (spares : Spares (place model) used memory.stash later) : Cached model used { memory with stash := later } where
  blocks := cached.blocks
  length := spares.length.trans cached.length
  fits := spares.length ▸ cached.fits
  chain := by
    rw [spares.length]
    refine cached.chain.congr fun n member node held => ⟨node, ?_, rfl⟩
    obtain ⟨k, range, rfl⟩ := List.mem_map.mp member
    rw [spares.node k (List.mem_range'_1.mp range).1, held]

/-- What is done with nodes in use leaves the stash in memory as it should be. -/
theorem Refines.write {stash later : StackStash} {memory : BlockStash} (refines : Refines model stash memory)
    {memory' : StackStash} (length : later.nodes.length = stash.nodes.length)
    (same : Moved (place model) none later memory')
    (spares : Spares (place model) stash.nodes.length memory.stash memory') :
    Refines model later { memory with stash := memory' } where
  same := same
  cached := length ▸ refines.cached.spares spares
  tight := by
    rw [length, spares.length]
    exact refines.tight

theorem Refines.addNode {stash later : StackStash} {memory : BlockStash} (refines : Refines model stash memory)
    {location : Location} {head parent : Option ℕ} {address : Addr} {n : ℕ}
    (added : Memprof.stackStashAddNode stash location head parent address = .ok (later, n)) :
    ∃ memory', stackStashAddNode model garbage memory (moveLocation (place model) location) (head.map (place model))
        (parent.map (place model)) address = .ok (memory', place model n) ∧ Refines model later memory' := by
  have injective := place_injective model
  simp only [Memprof.stackStashAddNode] at added
  rw [show (Memprof.stackNodeNew stash).2 = stash.nodes.length from rfl, Stash.stackNodeNew_setNode] at added
  obtain ⟨stored, ranStore, added⟩ := ok_of_bind added
  obtain ⟨decorated, ranDecorate, added⟩ := ok_of_bind added
  cases added
  obtain ⟨filled, ranNew, cached, tight, root, index, ⟨toplevel, held⟩, kept⟩ :=
    stackNodeNew_spec garbage refines.cached refines.tight
  -- The new node with what is written first, but for `toplevel`.
  obtain ⟨node, spelled⟩ : ∃ node : StackNode, node =
      { address := address, siblings := head, parent := parent } := ⟨_, rfl⟩
  have inside := (List.getElem?_eq_some_iff.mp held).1
  have sameNew : Moved (place model) (some stash.nodes.length) { stash with nodes := stash.nodes ++ [node] }
      (filled.stash.setNode (place model stash.nodes.length) (moved (place model) toplevel node)) := by
    refine ⟨root.trans refines.same.root, fun other => ?_, ?_, fun m other found => ?_⟩
    · rw [← refines.same.index other, ← index]
      rfl
    · have := cached.fits
      simpa [StackStash.setNode] using this
    · rw [Stash.getElem?_setNode held]
      obtain old | ⟨rfl, rfl⟩ := getElem?_concat_iff.mp found
      · have older := (List.getElem?_eq_some_iff.mp old).1
        obtain ⟨flag, held', written⟩ := refines.same.node m other old
        refine ⟨flag, ?_, fun _ => written (by simp)⟩
        rw [if_neg fun equal => Nat.ne_of_lt older (injective equal), kept m older, held']
      · exact ⟨toplevel, if_pos rfl, fun different => absurd rfl different⟩
  have sparesNew : Spares (place model) (stash.nodes.length + 1) filled.stash
      (filled.stash.setNode (place model stash.nodes.length) (moved (place model) toplevel node)) := by
    refine ⟨by simp [StackStash.setNode], fun k unused => List.getElem?_set_ne fun equal => ?_⟩
    have := injective equal
    omega
  have length : ({ stash with nodes := stash.nodes ++ [node] } : StackStash).nodes.length =
      stash.nodes.length + 1 := by simp
  rw [← spelled] at ranStore
  obtain ⟨lengthStored, stored', ranStore', sameStored, sparesStored⟩ := sameNew.store injective ranStore
  obtain ⟨lengthLater, later', ranDecorate', sameLater, sparesLater⟩ := sameStored.decorate injective ranDecorate
  rw [lengthStored] at sparesLater lengthLater
  rw [length] at sparesStored sparesLater lengthLater
  have spares := (sparesNew.trans sparesStored).trans sparesLater
  refine ⟨{ filled with stash := later' }, ?_, sameLater, lengthLater ▸ cached.spares spares, ?_⟩
  · simp only [spelled, moved, Option.map_none] at ranStore'
    simp only [stackStashAddNode, ranNew, ok_bind, Stash.node_eq_ok.mpr held, ranStore', ranDecorate']
  · rw [spares.length, lengthLater]
    exact tight

theorem Refines.match {stash later : StackStash} {memory : BlockStash} (refines : Refines model stash memory)
    {location : Location} {parent : Option ℕ} {address : Addr} {n : ℕ}
    (ran : Memprof.stackStashMatch stash location parent address = .ok (later, n)) :
    ∃ memory', stackStashMatch model garbage memory (moveLocation (place model) location) (parent.map (place model))
        address = .ok (memory', place model n) ∧ Refines model later memory' := by
  obtain ⟨head, loaded, ran⟩ := ok_of_bind ran
  obtain ⟨found, searched, ran⟩ := ok_of_bind ran
  have loaded' := refines.same.load loaded
  have searched' := refines.same.find StackNode.siblings (fun _ _ => rfl) searched
  simp only [stackStashMatch, loaded', ok_bind, searched']
  cases found with
  | some found => cases ran; exact ⟨memory, rfl, refines⟩
  | none => exact refines.addNode garbage ran

/-- The states of the two loops. -/
def Following (model : DataModel) (state : StackStash × Location × Option ℕ)
    (state' : BlockStash × Location × Option ℕ) :
    Prop :=
  Refines model state.1 state'.1 ∧ state'.2.1 = moveLocation (place model) state.2.1 ∧
    state'.2.2 = state.2.2.map (place model)

theorem Following.addFrame {size : ℤ} {state later : StackStash × Location × Option ℕ}
    {state' : BlockStash × Location × Option ℕ} {address : Addr} (related : Following model state state')
    (ran : Memprof.stackStashAddFrame size state address = .ok later) :
    ∃ later', stackStashAddFrame model garbage size state' address = .ok later' ∧ Following model later later' := by
  obtain ⟨stash, location, parent⟩ := state
  obtain ⟨memory, location', parent'⟩ := state'
  obtain ⟨refines, rfl, rfl⟩ := related
  obtain ⟨⟨matched, n⟩, ranMatch, ran⟩ := ok_of_bind ran
  obtain ⟨node, read, ran⟩ := ok_of_bind ran
  cases ran
  obtain ⟨memory', ranMatch', refinesMatch⟩ := refines.match garbage ranMatch
  obtain ⟨toplevel, read', written⟩ := refinesMatch.same.held read
  obtain ⟨same, spares⟩ := refinesMatch.same.setNode (place_injective model) (Stash.node_eq_ok.mp read)
    { node with total := node.total + UInt32.ofInt size } written fun _ _ equal => equal
  refine ⟨(_, .children (place model n), some (place model n)), ?_,
    refinesMatch.write (by simp [StackStash.setNode]) same spares, rfl, rfl⟩
  simp only [stackStashAddFrame, ranMatch', ok_bind, read']
  rfl

theorem Refines.addTrace {stash later : StackStash} {memory : BlockStash} (refines : Refines model stash memory)
    {frames : List Addr} {size : ℤ} {start : Option ℕ}
    (ran : Memprof.stackStashAddTrace stash frames size = .ok (later, start)) :
    ∃ memory', stackStashAddTrace model garbage memory frames size = .ok (memory', start.map (place model)) ∧
      Refines model later memory' := by
  rw [Memprof.stackStashAddTrace] at ran
  rw [stackStashAddTrace]
  split at ran
  next empty =>
    cases ran
    exact ⟨memory, by rw [if_pos empty]; rfl, refines⟩
  next some =>
    rw [if_neg some]
    obtain ⟨⟨looped, location, parent⟩, ranLoop, charged⟩ := ok_of_bind ran
    have initially : Following model (stash, .root, none) (memory, .root, none) := ⟨refines, rfl, rfl⟩
    have follows : ∀ state state' address later, Following model state state' →
        Memprof.stackStashAddFrame size state address = .ok later →
        ∃ later', stackStashAddFrame model garbage size state' address = .ok later' ∧ Following model later later' :=
      fun _ _ _ _ related ran => related.addFrame garbage ran
    obtain ⟨⟨memory', location', parent'⟩, ranLoop', refinesLoop, rfl, rfl⟩ :=
      foldlM_follows (Following model) follows initially ranLoop
    obtain ⟨length, charged', ranCharge', same, spares⟩ := refinesLoop.same.charge (place_injective model) charged
    refine ⟨{ memory' with stash := charged' }, ?_, refinesLoop.write length same spares⟩
    simp only [ranLoop', ok_bind, ranCharge']

/-- The states of the two runs, with the nodes returned so far. -/
def Returning (model : DataModel) (state : StackStash × List (Option ℕ))
    (state' : BlockStash × List (Option ℕ)) : Prop :=
  Refines model state.1 state'.1 ∧ state'.2 = state.2.map (Option.map (place model))

theorem Returning.addTrace (state : StackStash × List (Option ℕ)) (state' : BlockStash × List (Option ℕ))
    (call : List Addr × ℤ) (later : StackStash × List (Option ℕ)) (related : Returning model state state')
    (ran : (do
      let (stash, start) ← Memprof.stackStashAddTrace state.1 call.1 call.2
      Except.ok (stash, state.2 ++ [start])) = .ok later) :
    ∃ later', (do
      let (memory, start) ← stackStashAddTrace model garbage state'.1 call.1 call.2
      Except.ok (memory, state'.2 ++ [start])) = .ok later' ∧ Returning model later later' := by
  obtain ⟨⟨later, start⟩, ranCall, ran⟩ := ok_of_bind ran
  cases ran
  obtain ⟨memory', ranCall', refines⟩ := related.1.addTrace garbage ranCall
  refine ⟨(memory', state'.2 ++ [start.map (place model)]), by simp only [ranCall', ok_bind], refines, ?_⟩
  simp [related.2]

theorem addTraces_refines (model : DataModel) (garbage : ℕ → StackNode) {calls : List (List Addr × ℤ)}
    {stash : StackStash} {starts : List (Option ℕ)} (ran : Stash.addTraces {} calls = .ok (stash, starts)) :
    ∃ memory, addTraces model garbage {} calls = .ok (memory, starts.map (Option.map (place model))) ∧
      Refines model stash memory := by
  have initially : Returning model ({}, []) ({}, []) := ⟨refines_empty, rfl⟩
  obtain ⟨⟨memory, starts'⟩, ran', refines, rfl⟩ :=
    foldlM_follows (Returning model) (Returning.addTrace garbage) initially ran
  exact ⟨memory, ran', refines⟩

/-! ## Readers -/

theorem Moved.doCallbackLoop {place : ℕ → ℕ} {stash memory : StackStash}
    (same : Moved place none stash memory) {σ : Type}
    (func : StackFunctionCall → σ → Except Fault σ) {start : Option ℕ} {visited : List ℕ}
    (tour : Tour stash.nodes StackNode.children StackNode.siblings start visited) {fuel fuel' : ℕ}
    (enough : visited.length ≤ fuel) (enough' : visited.length ≤ fuel') :
    doCallbackLoop memory func fuel' (start.map place) = doCallbackLoop stash func fuel start := by
  induction tour generalizing fuel fuel' with
  | nil => cases fuel <;> cases fuel' <;> rfl
  | @cons n node under beside held _ _ downHypothesis nextHypothesis =>
    simp only [List.length_cons, List.length_append] at enough enough'
    obtain ⟨fuel, rfl⟩ : ∃ fewer, fuel = fewer + 1 := ⟨fuel - 1, by omega⟩
    obtain ⟨fuel', rfl⟩ : ∃ fewer, fuel' = fewer + 1 := ⟨fuel' - 1, by omega⟩
    have down := @downHypothesis fuel fuel' (by omega) (by omega)
    have next := @nextHypothesis fuel fuel' (by omega) (by omega)
    obtain ⟨toplevel, held', _⟩ := same.node n node held
    funext link cells data
    simp only [Option.map_some, Memprof.doCallbackLoop, Stash.node_eq_ok.mpr held, Stash.node_eq_ok.mpr held',
      ok_bind]
    rw [← down, ← next]
    rfl

theorem Refines.foreach {stash : StackStash} {memory : BlockStash} (refines : Refines model stash memory)
    (trie : Stash.Trie stash) {σ : Type} (func : StackFunctionCall → σ → Except Fault σ) (data : σ) :
    stackStashForeach memory.stash func data = stackStashForeach stash func data := by
  obtain ⟨visited, tour, _, _⟩ := trie.exists_tour
  have enough : visited.length ≤ stash.nodes.length := tour.length_le trie.linked.hanging trie.linked.root
  have loops := refines.same.doCallbackLoop func tour enough (enough.trans refines.same.length)
  rw [stackStashForeach, refines.same.root, loops, stackStashForeach]

/-- For every sequence of calls, whatever the new memory holds: the stash with its nodes in
blocks returns the nodes that the stash with ever new nodes returns, each at a place of its own
with the same contents; and an enumeration of the traces, or of the nodes with one address,
meets the same. -/
theorem addTraces_place (model : DataModel) (garbage : ℕ → StackNode) (calls : List (List Addr × ℤ)) :
    ∃ stash memory starts, Stash.addTraces {} calls = .ok (stash, starts) ∧
      addTraces model garbage {} calls = .ok (memory, starts.map (Option.map (place model))) ∧
      Function.Injective (place model) ∧
      (∀ n node, stash.nodes[n]? = some node →
        memory.stash.nodes[place model n]? = some (moved (place model) node.toplevel node)) ∧
      (∀ (σ : Type) (func : StackFunctionCall → σ → Except Fault σ) (data : σ),
        stackStashForeach memory.stash func data = stackStashForeach stash func data) ∧
      ∀ address list, Chain stash.nodes StackNode.next (stackStashFindNode stash address) list →
        Chain memory.stash.nodes StackNode.next (stackStashFindNode memory.stash address)
          (list.map (place model)) := by
  obtain ⟨stash, starts, ran, trie, _⟩ := Stash.addTraces_spec calls
  obtain ⟨memory, ran', refines⟩ := addTraces_refines model garbage ran
  have nodes : ∀ n node, stash.nodes[n]? = some node →
      memory.stash.nodes[place model n]? = some (moved (place model) node.toplevel node) := by
    intro n node held
    obtain ⟨toplevel, held', written⟩ := refines.same.node n node held
    rw [held', written (by simp)]
  refine ⟨stash, memory, starts, ran, ran', place_injective model, nodes,
    fun σ func data => refines.foreach trie func data, fun address list chain => ?_⟩
  rw [stackStashFindNode, refines.same.index address]
  exact chain.mirror fun n node held => ⟨_, nodes n node held, rfl⟩

/-! ## The memory -/

theorem free_blocks (blocks others : List ℕ) : blocks.foldlM gFree (blocks ++ others) = .ok others := by
  induction blocks with
  | nil => rfl
  | cons block blocks inductionHypothesis =>
    rw [List.foldlM_cons, gFree, if_pos (by simp), List.cons_append, List.erase_cons_head]
    exact inductionHypothesis

/-- For every sequence of calls: the nodes of the blocks are the nodes of the stash and the
cached ones, each of them one or the other; there are as many blocks as the nodes of the
stash need; and `stack_stash_free` frees each of them, and nothing else. -/
theorem addTraces_blocks (model : DataModel) (garbage : ℕ → StackNode) (calls : List (List Addr × ℤ)) :
    ∃ stash memory starts cached, Stash.addTraces {} calls = .ok (stash, starts) ∧
      addTraces model garbage {} calls = .ok (memory, starts.map (Option.map (place model))) ∧
      Chain memory.stash.nodes StackNode.next memory.cachedNodes cached ∧
      (∀ n < memory.stash.nodes.length, n ∈ cached ↔ ¬ ∃ k < stash.nodes.length, place model k = n) ∧
      memory.stash.nodes.length = memory.blocks.length * nNodes model ∧
      memory.blocks.length = (stash.nodes.length + (nNodes model - 1)) / nNodes model ∧ memory.blocks.Nodup ∧
      ∀ others, stackStashFree (memory.blocks ++ others) memory = .ok others := by
  have positive := nNodes_pos model
  obtain ⟨stash, starts, ran, _, _⟩ := Stash.addTraces_spec calls
  obtain ⟨memory, ran', refines⟩ := addTraces_refines model garbage ran
  have length := refines.cached.length
  have fits := refines.cached.fits
  have tight := refines.tight
  refine ⟨stash, memory, starts, _, ran, ran', refines.cached.chain, fun n inside => ?_, length, ?_, ?_,
    fun others => free_blocks memory.blocks others⟩
  · -- Every place is that of a node, handed out or not.
    obtain ⟨k, rfl⟩ : ∃ k, place model k = n := ⟨place model n, blockPlace_blockPlace positive n⟩
    have range : k < memory.stash.nodes.length := by
      rw [length] at inside ⊢
      have back := blockPlace_lt inside
      rwa [place, blockPlace_blockPlace positive] at back
    rw [mem_freePlaces]
    constructor
    · rintro ⟨unused, _⟩ ⟨other, used, same⟩
      have := place_injective model same
      omega
    · intro unused
      have later : ¬ k < stash.nodes.length := fun used => unused ⟨k, used, rfl⟩
      omega
  · rw [length] at fits tight
    refine (Nat.div_eq_of_lt_le ?_ ?_).symm
    · omega
    · rw [Nat.succ_mul]
      omega
  · rw [refines.cached.blocks]
    exact List.nodup_range.map fun left right same => Nat.eq_of_mul_eq_mul_right positive same

end Memprof.NodeBlocks
