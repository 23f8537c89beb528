import Memprof.Library.Tour
import Memprof.Library.Weights
import Memprof.Verified.StashTrie
import Mathlib.Data.UInt

/-! # What a stash counts and what it enumerates

Every node has counted the sizes of the calls with its trace, and of those whose trace goes
through it.  `stack_stash_foreach` calls its function for each trace that has a size: the
cells on its C stack are the frames of the trace, the innermost first.
-/

namespace Memprof.Stash

open Library StackStash

/-! ## Counting -/

theorem exists_trace {stash : StackStash} (linked : Linked stash) {n : ℕ} (inside : n < stash.nodes.length) :
    ∃ frames, Trace stash.nodes (some n) frames := by
  have inside' : ∀ m ∈ some n, m < stash.nodes.length := by rintro _ ⟨⟩; exact inside
  obtain ⟨list, chain, -, -⟩ := exists_chain linked.parents inside'
  clear inside'
  generalize some n = start at chain
  induction chain with
  | nil => exact ⟨[], .nil⟩
  | cons held _ inductionHypothesis =>
    obtain ⟨frames, outer⟩ := inductionHypothesis
    exact ⟨_, .cons held outer⟩

theorem SameLinks.trace {stash later : StackStash} (same : SameLinks stash later) {start : Option ℕ}
    {frames : List Addr} (trace : Trace stash.nodes start frames) : Trace later.nodes start frames := by
  refine trace.kept fun n node held => ?_
  obtain ⟨node', held', equal⟩ := same.node held
  exact ⟨node', held', congrArg (·.1) equal, congrArg (·.2.1) equal⟩

/-- The counters of the nodes, by their traces; what has no node counts nothing. -/
structure Counts (stash : StackStash) (total : List Addr → UInt32) (size : List Addr → BitVec 31) : Prop where
  node : ∀ (n : ℕ) (node : StackNode) (frames : List Addr), stash.nodes[n]? = some node →
    Trace stash.nodes (some n) frames → node.total = total frames ∧ node.size = size frames
  absent : ∀ frames, frames ≠ [] → (∀ n, ¬ Trace stash.nodes (some n) frames) → total frames = 0 ∧ size frames = 0

theorem counts_empty : Counts {} (fun _ => 0) (fun _ => 0) where
  node _ _ _ held := by cases held
  absent _ _ _ := ⟨rfl, rfl⟩

theorem Counts.congr {stash : StackStash} {total total' : List Addr → UInt32} {size size' : List Addr → BitVec 31}
    (counts : Counts stash total size) (same : ∀ frames, frames ≠ [] → total frames = total' frames ∧ size frames = size' frames) :
    Counts stash total' size' where
  node n node frames held trace := by
    have spelled : frames ≠ [] := by cases trace; exact List.cons_ne_nil _ _
    rw [← (same frames spelled).1, ← (same frames spelled).2]
    exact counts.node n node frames held trace
  absent frames spelled none := by
    rw [← (same frames spelled).1, ← (same frames spelled).2]
    exact counts.absent frames spelled none

theorem Placed.grows {stash later : StackStash} {location : Location} {head : Option ℕ} {address : Addr}
    (placed : Placed stash location head address later) {n : ℕ} {node : StackNode} (held : stash.nodes[n]? = some node) :
    ∃ node', later.nodes[n]? = some node' ∧ node'.address = node.address ∧ node'.parent = node.parent := by
  refine ⟨_, by rw [placed.old n (List.getElem?_eq_some_iff.mp held).1, held]; rfl, ?_⟩
  split
  · exact ⟨rfl, rfl⟩
  · exact ⟨rfl, rfl⟩

/-- The trace of an older node is the one it had. -/
theorem Placed.trace_iff {stash later : StackStash} {location : Location} {head : Option ℕ} {address : Addr}
    (placed : Placed stash location head address later) (linked : Linked stash) {n : ℕ} (old : n < stash.nodes.length)
    {frames : List Addr} : Trace later.nodes (some n) frames ↔ Trace stash.nodes (some n) frames := by
  have grown : ∀ {frames}, Trace stash.nodes (some n) frames → Trace later.nodes (some n) frames :=
    fun trace => trace.kept fun m node held => placed.grows held
  constructor
  · intro trace
    obtain ⟨frames', trace'⟩ := exists_trace linked old
    rw [trace.unique (grown trace')]
    exact trace'
  · exact grown

theorem Placed.trace {stash later : StackStash} {location : Location} {head : Option ℕ} {address : Addr}
    (placed : Placed stash location head address later) {outer : List Addr} (trace : Trace stash.nodes (owner location) outer) :
    Trace later.nodes (some stash.nodes.length) (address :: outer) := by
  obtain ⟨node, held, rfl, parent, _⟩ := placed.fresh
  refine .cons held ?_
  rw [parent]
  exact trace.kept fun m node held => placed.grows held

/-- A trace that is to get a node has none. -/
theorem Trie.trace_absent {stash : StackStash} (trie : Trie stash) {owner : Option ℕ} {address : Addr}
    {outer : List Addr}
    (trace : Trace stash.nodes owner outer) (missed : ∀ (m : ℕ) (node : StackNode), stash.nodes[m]? = some node →
      node.parent = owner → node.address ≠ address) (n : ℕ) : ¬ Trace stash.nodes (some n) (address :: outer) := by
  intro spelled
  generalize same : address :: outer = frames at spelled
  cases spelled with
  | @cons _ node rest held outward =>
    obtain ⟨rfl, rfl⟩ := List.cons.inj same
    exact missed n node held (trie.trace_unique outward trace) rfl

theorem Counts.placed {stash later : StackStash} {total : List Addr → UInt32} {size : List Addr → BitVec 31}
    (counts : Counts stash total size) (trie : Trie stash) {location : Location} {head : Option ℕ} {address : Addr}
    (placed : Placed stash location head address later) {outer : List Addr}
    (trace : Trace stash.nodes (owner location) outer) (missed : ∀ (m : ℕ) (node : StackNode),
      stash.nodes[m]? = some node → node.parent = owner location → node.address ≠ address) :
    Counts later total size where
  node n node frames held spelled := by
    rcases Nat.lt_or_ge n stash.nodes.length with old | new
    · rw [placed.trace_iff trie.linked old] at spelled
      rw [placed.old n old] at held
      obtain ⟨before, heldBefore, rfl⟩ := Option.map_eq_some_iff.mp held
      have counted := counts.node n before frames heldBefore spelled
      split
      · exact counted
      · exact counted
    · have inside := (List.getElem?_eq_some_iff.mp held).1
      rw [placed.length] at inside
      have fresh : n = stash.nodes.length := by omega
      subst fresh
      rw [spelled.unique (placed.trace trace)]
      obtain ⟨node', held', _, _, _, _, totalZero, sizeZero, _⟩ := placed.fresh
      rw [held] at held'
      cases held'
      have nothing := counts.absent _ (List.cons_ne_nil address outer) (trie.trace_absent trace missed)
      exact ⟨totalZero.trans nothing.1.symm, sizeZero.trans nothing.2.symm⟩
  absent frames spelled none := by
    refine counts.absent frames spelled fun n found => none n ?_
    exact (placed.trace_iff trie.linked (found.lt_length n rfl)).mpr found

/-- One node counts more. -/
theorem Counts.setNode {stash : StackStash} {total : List Addr → UInt32} {size : List Addr → BitVec 31}
    (counts : Counts stash total size) (trie : Trie stash) {n : ℕ} {node node' : StackNode}
    (held : stash.nodes[n]? = some node) (same : links node' = links node) {frames : List Addr}
    (trace : Trace stash.nodes (some n) frames) :
    Counts (stash.setNode n node') (Function.update total frames node'.total) (Function.update size frames node'.size) := by
  have sameLinks := sameLinks_setNode held same
  refine ⟨fun m other frames' found spelled => ?_, fun frames' spelled none => ?_⟩
  · have spelledBefore := sameLinks.symm.trace spelled
    rw [getElem?_setNode held] at found
    split at found
    next here =>
      cases found
      subst here
      rw [spelledBefore.unique trace, Function.update_self, Function.update_self]
      exact ⟨rfl, rfl⟩
    next elsewhere =>
      have different : frames' ≠ frames := by
        rintro rfl
        exact elsewhere (Option.some.inj (trie.trace_unique spelledBefore trace))
      rw [Function.update_of_ne different, Function.update_of_ne different]
      exact counts.node m other frames' found spelledBefore
  · have different : frames' ≠ frames := by
      rintro rfl
      exact none n (sameLinks.trace trace)
    rw [Function.update_of_ne different, Function.update_of_ne different]
    exact counts.absent frames' spelled fun m found => none m (sameLinks.trace found)

theorem Counts.addFrame {stash later : StackStash} {location location' : Location} {parent' : Option ℕ}
    {total : List Addr → UInt32} {size : List Addr → BitVec 31} (counts : Counts stash total size)
    (looping : Looping (stash, location, owner location)) {outer : List Addr}
    (trace : Trace stash.nodes (owner location) outer) {amount : ℤ} {address : Addr}
    (ran : stackStashAddFrame amount (stash, location, owner location) address = .ok (later, location', parent')) :
    Trace later.nodes parent' (address :: outer) ∧
      Counts later (Function.update total (address :: outer) (total (address :: outer) + UInt32.ofInt amount)) size := by
  obtain ⟨⟨matched, n⟩, ranMatch, ran⟩ := ok_of_bind ran
  obtain ⟨node, found, ran⟩ := ok_of_bind ran
  cases ran
  have held := node_eq_ok.mp found
  have trie := looping.1.match_ok looping.2.2 ranMatch
  have both : Trace matched.nodes (some n) (address :: outer) ∧ Counts matched total size := by
    rcases looping.1.match_cases trace ranMatch with ⟨rfl, other, heldOther, rfl, parent⟩ | ⟨head, rfl, placed, missed⟩
    · exact ⟨.cons heldOther (by rw [parent]; exact trace), counts⟩
    · exact ⟨placed.trace trace, counts.placed looping.1 placed trace missed⟩
  have counted := both.2.node n node _ held both.1
  obtain ⟨node', spelled⟩ : ∃ node' : StackNode, node' =
      { node with total := node.total + UInt32.ofInt amount } := ⟨_, rfl⟩
  have same : links node' = links node := by rw [spelled]; rfl
  have changed := both.2.setNode trie held same both.1
  have total_eq : node'.total = total (address :: outer) + UInt32.ofInt amount := by rw [spelled, ← counted.1]
  have size_eq : node'.size = size (address :: outer) := by rw [spelled, ← counted.2]
  rw [total_eq, size_eq, Function.update_eq_self] at changed
  simp only [← spelled]
  exact ⟨(sameLinks_setNode held same).trace both.1, changed⟩

/-- The totals after a loop that has gone from the trace `outer` on to the trace `frames`. -/
def passed (total : List Addr → UInt32) (amount : ℤ) (outer frames : List Addr) : List Addr → UInt32 :=
  fun trace => if trace <:+ frames ∧ outer.length < trace.length then total trace + UInt32.ofInt amount else total trace

theorem passed_self (total : List Addr → UInt32) (amount : ℤ) (outer : List Addr) :
    passed total amount outer outer = total := by
  funext trace
  rw [passed, if_neg]
  rintro ⟨suffix, longer⟩
  exact absurd suffix.length_le (by omega)

theorem passed_update (total : List Addr → UInt32) (amount : ℤ) (address : Addr) {outer frames : List Addr}
    (suffix : address :: outer <:+ frames) :
    passed (Function.update total (address :: outer) (total (address :: outer) + UInt32.ofInt amount)) amount
      (address :: outer) frames = passed total amount outer frames := by
  funext trace
  simp only [passed, List.length_cons]
  by_cases same : trace = address :: outer
  · rw [same, Function.update_self, if_neg (by simp), if_pos ⟨suffix, by simp⟩]
  · rw [Function.update_of_ne same]
    -- No other end of `frames` has the length of `address :: outer`.
    have other : trace <:+ frames → trace.length ≠ outer.length + 1 := by
      intro ends equal
      refine same ?_
      rw [List.suffix_iff_eq_drop.mp ends, List.suffix_iff_eq_drop.mp suffix, equal]
      rfl
    by_cases ends : trace <:+ frames
    · have := other ends
      exact if_congr (by constructor <;> (rintro ⟨_, _⟩; refine ⟨ends, ?_⟩; omega)) rfl rfl
    · rw [if_neg fun both => ends both.1, if_neg fun both => ends both.1]

theorem Counts.addFrames {stash later : StackStash} {location location' : Location} {parent' : Option ℕ}
    {total : List Addr → UInt32} {size : List Addr → BitVec 31} (counts : Counts stash total size)
    (looping : Looping (stash, location, owner location)) {outer : List Addr}
    (trace : Trace stash.nodes (owner location) outer) {amount : ℤ} {frames : List Addr}
    (ran : frames.foldlM (stackStashAddFrame amount) (stash, location, owner location) = .ok (later, location', parent')) :
    Looping (later, location', parent') ∧ Trace later.nodes parent' (frames.reverse ++ outer) ∧
      Counts later (passed total amount outer (frames.reverse ++ outer)) size := by
  induction frames generalizing stash location total outer with
  | nil =>
    cases ran
    exact ⟨looping, trace, by rw [List.reverse_nil, List.nil_append, passed_self]; exact counts⟩
  | cons address frames inductionHypothesis =>
    rw [List.foldlM_cons] at ran
    obtain ⟨⟨next, place, parent⟩, ranFirst, ran⟩ := ok_of_bind ran
    obtain ⟨traced, counted⟩ := counts.addFrame looping trace ranFirst
    have loopingNext := looping.addFrame ranFirst
    obtain rfl : parent = owner place := loopingNext.2.1
    obtain ⟨loopingLast, tracedLast, countedLast⟩ := inductionHypothesis counted loopingNext traced ran
    rw [passed_update total amount address (List.suffix_append _ _)] at countedLast
    rw [List.reverse_cons, List.append_assoc]
    exact ⟨loopingLast, tracedLast, countedLast⟩

theorem Counts.addTrace {stash later : StackStash} {total : List Addr → UInt32} {size : List Addr → BitVec 31}
    (counts : Counts stash total size) (trie : Trie stash) {frames : List Addr} {amount : ℤ} {start : Option ℕ}
    (ran : stackStashAddTrace stash frames amount = .ok (later, start)) :
    Counts later (fun trace => if trace <:+ frames then total trace + UInt32.ofInt amount else total trace)
      (fun trace => if trace = frames then size trace + BitVec.ofInt 31 amount else size trace) := by
  obtain ⟨empty, rfl, -⟩ | ⟨looped, location, n, node, ranLoop, held, rfl, -⟩ := addTrace_inv ran
  · refine counts.congr fun trace spelled => ?_
    rw [if_neg (by rw [empty, List.suffix_nil]; exact spelled), if_neg (by rw [empty]; exact spelled)]
    exact ⟨rfl, rfl⟩
  have looping : Looping (stash, .root, owner .root) := ⟨trie, rfl, by rintro m ⟨⟩⟩
  obtain ⟨loopingLast, traced, counted⟩ := counts.addFrames looping .nil ranLoop
  rw [List.reverse_reverse, List.append_nil] at traced counted
  obtain ⟨node', spelled⟩ : ∃ node' : StackNode, node' = { node with size := node.size + BitVec.ofInt 31 amount } :=
    ⟨_, rfl⟩
  have charged := counted.setNode loopingLast.1 held (by rw [spelled]; rfl : links node' = links node) traced
  have fields := counted.node n node frames held traced
  have total_eq : node'.total = passed total amount [] frames frames := by rw [spelled, ← fields.1]
  have size_eq : node'.size = size frames + BitVec.ofInt 31 amount := by rw [spelled, ← fields.2]
  rw [total_eq, size_eq, Function.update_eq_self] at charged
  simp only [← spelled]
  refine charged.congr fun trace nonempty => ⟨?_, ?_⟩
  · have longer := List.length_pos_iff.mpr nonempty
    simp only [passed, List.length_nil, longer, and_true]
  · by_cases same : trace = frames
    · rw [same, Function.update_self, if_pos rfl]
    · rw [Function.update_of_ne same, if_neg same]

/-- After any calls every node has the sum of the sizes for its trace, and as its total the
sum for the traces that end in its trace. -/
theorem addTraces_counts {calls : List (List Addr × ℤ)} {stash : StackStash} {starts : List (Option ℕ)}
    (ran : addTraces {} calls = .ok (stash, starts)) :
    Counts stash (fun trace => UInt32.ofInt (weight calls fun frames => trace <:+ frames))
      (fun trace => BitVec.ofInt 31 (weight calls fun frames => trace = frames)) := by
  induction calls using List.reverseRecOn generalizing stash starts with
  | nil =>
    cases ran
    exact counts_empty
  | append_singleton calls call inductionHypothesis =>
    obtain ⟨before, starts', start, ranBefore, trie, ranCall⟩ := addTraces_concat ran
    refine ((inductionHypothesis ranBefore).addTrace trie ranCall).congr fun trace _ => ⟨?_, ?_⟩
    · simp only [weight_concat]
      split
      next => rw [UInt32.ofInt_add]
      next => rw [add_zero]
    · simp only [weight_concat]
      split
      next => rw [BitVec.ofInt_add]
      next => rw [add_zero]

end Memprof.Stash
