import Memprof.Verified.StashTotals

/-! # `stack_stash_foreach`

The cells on the C stack are the frames from the node that is looked at outwards.  Every
`do_callback` adds one in front, fills it in for each sibling and takes it away again.
-/

namespace Memprof.Stash

open Library StackStash

/-! ## The cells -/

/-- The cells from `start` on hold the elements, and each points back at the one before it. -/
inductive Elements (cells : List GList) : Option ℕ → Option ℕ → List Addr → Prop
  | nil {prev : Option ℕ} : Elements cells prev none []
  | cons {prev : Option ℕ} {i : ℕ} {cell : GList} {address : Addr} {elements : List Addr} (held : cells[i]? = some cell)
      (data : cell.data = some address) (back : cell.prev = prev) (rest : Elements cells (some i) cell.next elements) :
      Elements cells prev (some i) (address :: elements)

def below : ℕ → Option ℕ
  | 0 => none
  | k + 1 => some k

/-- The cells of the frames for the addresses `outer`, the outermost first, and the last one. -/
def cellsOf (outer : List Addr) (last : Option Addr) : List GList :=
  outer.mapIdx (fun k address => ⟨some address, below k, some (k + 1)⟩) ++ [⟨last, below outer.length, none⟩]

theorem getElem?_cellsOf_last (outer : List Addr) (last : Option Addr) :
    (cellsOf outer last)[outer.length]? = some ⟨last, below outer.length, none⟩ := by
  rw [cellsOf, List.getElem?_append_right (by simp)]
  simp

theorem getElem?_cellsOf {outer : List Addr} {last : Option Addr} {k : ℕ} (inside : k < outer.length) :
    (cellsOf outer last)[k]? = some ⟨some outer[k], below k, some (k + 1)⟩ := by
  rw [cellsOf, List.getElem?_append_left (by simpa using inside)]
  simp [inside]

theorem length_cellsOf (outer : List Addr) (last : Option Addr) : (cellsOf outer last).length = outer.length + 1 := by
  simp [cellsOf]

theorem set_cellsOf_last (outer : List Addr) (last : Option Addr) (cell : GList) :
    (cellsOf outer last).set outer.length cell = (cellsOf outer last).dropLast ++ [cell] := by
  rw [cellsOf, List.dropLast_concat, List.set_append_right _ _ (by simp)]
  simp

theorem setData_cellsOf (outer : List Addr) (last : Option Addr) (address : Addr) :
    GList.setData (cellsOf outer last) outer.length address = .ok (cellsOf outer (some address)) := by
  simp only [GList.setData, getElem?_cellsOf_last, set_cellsOf_last]
  rw [cellsOf, List.dropLast_concat, cellsOf]

/-- A cell in front of the others. -/
theorem cellsOf_concat (outer : List Addr) (address : Addr) (last : Option Addr) :
    cellsOf (outer ++ [address]) last =
      (cellsOf outer (some address)).dropLast ++ [⟨some address, below outer.length, some (outer.length + 1)⟩] ++
        [⟨last, some outer.length, none⟩] := by
  rw [cellsOf, cellsOf, List.dropLast_concat, List.mapIdx_append]
  simp [below]

theorem enter_cellsOf (outer : List Addr) (address : Addr) :
    ∃ cells, GList.setPrev (cellsOf outer (some address)) (some outer.length) (some (outer.length + 1)) = .ok cells ∧
      cells ++ [{ next := some outer.length }] = cellsOf (outer ++ [address]) none := by
  refine ⟨(cellsOf outer (some address)).set outer.length ⟨some address, below outer.length, some (outer.length + 1)⟩, ?_, ?_⟩
  · simp only [GList.setPrev, getElem?_cellsOf_last]
  · rw [set_cellsOf_last, cellsOf_concat]

theorem leave_cellsOf (outer : List Addr) (address : Addr) (last : Option Addr) :
    ∃ cells, GList.setPrev (cellsOf (outer ++ [address]) last) (some outer.length) none = .ok cells ∧
      cells.dropLast = cellsOf outer (some address) := by
  have inside : outer.length < (outer ++ [address]).length := by simp
  refine ⟨(cellsOf (outer ++ [address]) last).set outer.length ⟨some address, below outer.length, none⟩, ?_, ?_⟩
  · simp [GList.setPrev, getElem?_cellsOf inside]
  · have short : (cellsOf outer (some address)).dropLast.length = outer.length := by simp [length_cellsOf]
    rw [cellsOf_concat, List.append_assoc, List.set_append_right _ _ (by rw [short]), short]
    simp [cellsOf]

theorem elements_cellsOf (outer : List Addr) (address : Addr) :
    Elements (cellsOf outer (some address)) none (some outer.length) (address :: outer.reverse) := by
  have outwards : ∀ k, k ≤ outer.length →
      Elements (cellsOf outer (some address)) (some k) (below k) (outer.take k).reverse := by
    intro k inside
    induction k with
    | zero => exact .nil
    | succ k inductionHypothesis =>
      rw [List.take_add_one, List.getElem?_eq_getElem inside, Option.toList_some, List.reverse_append,
        List.reverse_singleton, List.singleton_append]
      exact .cons (getElem?_cellsOf inside) rfl rfl (inductionHypothesis (Nat.le_of_lt inside))
  have all := outwards outer.length (Nat.le_refl _)
  rw [List.take_length] at all
  exact .cons (getElem?_cellsOf_last outer _) rfl rfl all

/-! ## The calls -/

theorem Linked.hanging {stash : StackStash} (linked : Linked stash) :
    Hanging stash.nodes StackNode.parent StackNode.children StackNode.siblings :=
  ⟨linked.parents, linked.siblings, linked.children, linked.alike⟩

theorem headOf_locationOf {stash : StackStash} {owner head : Option ℕ}
    (loaded : stash.load (locationOf owner) = .ok head) :
    headOf stash.nodes StackNode.children stash.root owner = head := by
  cases owner with
  | none => exact Except.ok.inj loaded
  | some m =>
    simp only [locationOf, StackStash.load] at loaded
    cases held : stash.nodes[m]? with
    | none => rw [held] at loaded; cases loaded
    | some node =>
      rw [held] at loaded
      rw [headOf, held]
      exact Except.ok.inj loaded

/-- A tour from the root meets every node once. -/
theorem Trie.exists_tour {stash : StackStash} (trie : Trie stash) :
    ∃ visited, Tour stash.nodes StackNode.children StackNode.siblings stash.root visited ∧ visited.Nodup ∧
      ∀ n, n ∈ visited ↔ n < stash.nodes.length := by
  have hanging := trie.linked.hanging
  have owned : Under stash.nodes StackNode.parent none stash.root := trie.linked.root
  obtain ⟨visited, tour⟩ := Library.exists_tour hanging owned
  refine ⟨visited, tour, tour.nodup hanging owned, fun n => ⟨tour.lt_length n, ?_⟩⟩
  refine tour.mem_of_sited trie.linked.parents fun n node held => ?_
  obtain ⟨list, ⟨head, loaded, chain⟩, member⟩ := trie.sited n node held
  rw [headOf_locationOf loaded]
  exact ⟨list, chain, member⟩

/-- The trace that a node spells. -/
noncomputable def traceOf (stash : StackStash) (n : ℕ) : List Addr :=
  Classical.epsilon fun frames => Trace stash.nodes (some n) frames

theorem Trace.traceOf_eq {stash : StackStash} {n : ℕ} {frames : List Addr} (trace : Trace stash.nodes (some n) frames) :
    traceOf stash n = frames :=
  (Classical.epsilon_spec (p := fun frames => Trace stash.nodes (some n) frames) ⟨frames, trace⟩).unique trace

def sizeOf (stash : StackStash) (n : ℕ) : BitVec 31 := stash.nodes[n]?.elim 0 StackNode.size

/-- The call for a node. -/
noncomputable def callOf (stash : StackStash) (n : ℕ) : StackFunctionCall where
  cells := cellsOf (traceOf stash n).tail.reverse (traceOf stash n).head?
  trace := (traceOf stash n).tail.length
  size := (sizeOf stash n).toNat

def sized (stash : StackStash) (visited : List ℕ) : List ℕ := visited.filter fun n => sizeOf stash n ≠ 0

theorem sized_append (stash : StackStash) (left right : List ℕ) :
    sized stash (left ++ right) = sized stash left ++ sized stash right := List.filter_append left right

section

variable {σ : Type} (stash : StackStash) (func : StackFunctionCall → σ → Except Fault σ)

/-- The function called for the nodes that have a size, one after the other. -/
noncomputable def callAll (visited : List ℕ) (data : σ) : Except Fault σ :=
  ((sized stash visited).map (callOf stash)).foldlM (fun data call => func call data) data

theorem callAll_append (left right : List ℕ) (data : σ) :
    callAll stash func (left ++ right) data = callAll stash func left data >>= callAll stash func right := by
  rw [callAll, sized_append, List.map_append, List.foldlM_append]
  rfl

theorem callAll_singleton {n : ℕ} {node : StackNode} (held : stash.nodes[n]? = some node) {outer : List Addr}
    (trace : Trace stash.nodes (some n) (node.address :: outer.reverse)) (data : σ) :
    callAll stash func [n] data = callSized func (cellsOf outer (some node.address)) outer.length node data := by
  have size_eq : sizeOf stash n = node.size := by rw [sizeOf, held, Option.elim_some]
  have call : callOf stash n = ⟨cellsOf outer (some node.address), outer.length, node.size.toNat⟩ := by
    simp [callOf, trace.traceOf_eq, size_eq]
  unfold callSized
  split
  next some_ =>
    rw [callAll, sized, List.filter_cons_of_pos (by simpa [size_eq] using some_)]
    simp only [List.filter_nil, List.map_cons, List.map_nil, List.foldlM_cons, List.foldlM_nil, call]
    exact bind_pure _
  next nothing =>
    rw [callAll, sized, List.filter_cons_of_neg (by simpa [size_eq] using nothing)]
    rfl

/-- A loop under `outer` makes the calls and leaves its cells, but for what the last has. -/
def Loops (body : ℕ → List GList → σ → Except Fault (List GList × σ)) (outer : List Addr) (visited : List ℕ) : Prop :=
  ∀ last, ∃ last', ∀ data, body outer.length (cellsOf outer last) data =
    (callAll stash func visited data).map fun data => (cellsOf outer last', data)

theorem doCallback_eq {body : ℕ → List GList → σ → Except Fault (List GList × σ)} {outer : List Addr} {address : Addr}
    {visited : List ℕ} (loops : Loops stash func body (outer ++ [address]) visited) (data : σ) :
    doCallback body (some outer.length) (cellsOf outer (some address)) data =
      (callAll stash func visited data).map fun data => (cellsOf outer (some address), data) := by
  obtain ⟨entered, enter, spelled⟩ := enter_cellsOf outer address
  obtain ⟨last, ran⟩ := loops none
  obtain ⟨left, leave, dropped⟩ := leave_cellsOf outer address last
  rw [List.length_append, List.length_singleton] at ran
  simp only [doCallback, length_cellsOf, enter, ok_bind, spelled, ran data]
  cases callAll stash func visited data with
  | error fault => rfl
  | ok data => simp only [Except.map, ok_bind, leave, dropped]

theorem doCallbackLoop_eq (linked : Linked stash) {start owner : Option ℕ} {visited : List ℕ} {outer : List Addr}
    (tour : Tour stash.nodes StackNode.children StackNode.siblings start visited)
    (owned : Under stash.nodes StackNode.parent owner start) (trace : Trace stash.nodes owner outer.reverse)
    {fuel : ℕ} (enough : visited.length ≤ fuel) :
    Loops stash func (doCallbackLoop stash func fuel start) outer visited := by
  induction tour generalizing owner outer fuel with
  | nil => exact fun last => ⟨last, fun data => by rw [doCallbackLoop]; rfl⟩
  | @cons i node under beside held down next downHypothesis nextHypothesis =>
    obtain ⟨node', held', parent⟩ := owned i rfl
    rw [held] at held'
    cases held'
    simp only [List.length_cons, List.length_append] at enough
    obtain ⟨fuel, rfl⟩ : ∃ fewer, fuel = fewer + 1 := ⟨fuel - 1, by omega⟩
    have here : Trace stash.nodes (some i) (node.address :: outer.reverse) := .cons held (by rw [parent]; exact trace)
    have hanging := linked.hanging
    have inner : Trace stash.nodes (some i) (outer ++ [node.address]).reverse := by simpa using here
    have loopsDown := downHypothesis (hanging.down held) inner (show under.length ≤ fuel by omega)
    have loopsNext := nextHypothesis (by rw [← parent]; exact hanging.next held) trace (show beside.length ≤ fuel by omega)
    intro last
    obtain ⟨last', ranNext⟩ := loopsNext (some node.address)
    refine ⟨last', fun data => ?_⟩
    have order : i :: (under ++ beside) = [i] ++ (under ++ beside) := rfl
    rw [order, callAll_append, callAll_singleton stash func held here]
    simp only [doCallbackLoop, node_eq_ok.mpr held, ok_bind, setData_cellsOf]
    cases callSized func (cellsOf outer (some node.address)) outer.length node data with
    | error fault => rfl
    | ok data =>
      rw [ok_bind, ok_bind, doCallback_eq stash func loopsDown, callAll_append]
      cases callAll stash func under data with
      | error fault => rfl
      | ok data => exact ranNext data

theorem stackStashForeach_eq (trie : Trie stash) {visited : List ℕ}
    (tour : Tour stash.nodes StackNode.children StackNode.siblings stash.root visited) (data : σ) :
    stackStashForeach stash func data = callAll stash func visited data := by
  have owned : Under stash.nodes StackNode.parent none stash.root := trie.linked.root
  have loops : Loops stash func (doCallbackLoop stash func stash.nodes.length stash.root) [] visited :=
    doCallbackLoop_eq stash func trie.linked tour owned .nil (tour.length_le trie.linked.hanging owned)
  obtain ⟨last, ran⟩ := loops none
  have first : ([] : List GList) ++ [{ next := none }] = cellsOf [] none := rfl
  simp only [stackStashForeach, doCallback, GList.setPrev, ok_bind, first, List.length_nil]
  rw [show doCallbackLoop stash func stash.nodes.length stash.root 0 (cellsOf [] none) data = _ from ran data]
  cases callAll stash func visited data with
  | error fault => rfl
  | ok data => rfl

end

theorem elements_callOf {stash : StackStash} (linked : Linked stash) {n : ℕ} (inside : n < stash.nodes.length) :
    Elements (callOf stash n).cells none (some (callOf stash n).trace) (traceOf stash n) := by
  obtain ⟨frames, trace⟩ := exists_trace linked inside
  have spelled := trace.traceOf_eq
  cases trace with
  | @cons _ node outer held _ =>
    have elements := elements_cellsOf outer.reverse node.address
    rw [List.reverse_reverse, List.length_reverse] at elements
    simpa [callOf, spelled] using elements

theorem toNat_ofInt_size (value : ℤ) : ((BitVec.ofInt 31 value).toNat : ℤ) = value % 2 ^ 31 := by
  rw [BitVec.toNat_ofInt]
  omega

theorem ofInt_size_eq_zero_iff (value : ℤ) : BitVec.ofInt 31 value = 0 ↔ value % 2 ^ 31 = 0 := by
  rw [← toNat_ofInt_size, BitVec.toNat_eq]
  simp

/-- For every sequence of calls on a new stash: each node has counted the sizes given for its
trace, and as its total the sizes of all traces through it; and `stack_stash_foreach` calls its
function once for each trace that has a size, with that size and the list of its addresses. -/
theorem addTraces_foreach (calls : List (List Addr × ℤ)) :
    ∃ stash starts, addTraces {} calls = .ok (stash, starts) ∧
      List.Forall₂ (fun call start => Trace stash.nodes start call.1) calls starts ∧
      (∀ (n : ℕ) (node : StackNode), stash.nodes[n]? = some node → ∃ frames, Trace stash.nodes (some n) frames ∧
        node.size = BitVec.ofInt 31 (weight calls fun trace => frames = trace) ∧
        node.total = UInt32.ofInt (weight calls fun trace => frames <:+ trace)) ∧
      ∃ (made : List StackFunctionCall) (traces : List (List Addr)),
        (∀ (σ : Type) (func : StackFunctionCall → σ → Except Fault σ) (data : σ),
          stackStashForeach stash func data = made.foldlM (fun data call => func call data) data) ∧
        List.Forall₂ (fun call frames => Elements call.cells none (some call.trace) frames ∧
          call.size = (weight calls fun trace => frames = trace) % 2 ^ 31) made traces ∧
        traces.Nodup ∧
        ∀ frames, frames ∈ traces ↔ frames ≠ [] ∧ (weight calls fun trace => frames = trace) % 2 ^ 31 ≠ 0 := by
  obtain ⟨stash, starts, ran, trie, traced⟩ := addTraces_spec calls
  have counts := addTraces_counts ran
  obtain ⟨visited, tour, distinct, all⟩ := trie.exists_tour
  -- What a node that is visited spells, and what it has counted.
  have sizes : ∀ n ∈ visited, Trace stash.nodes (some n) (traceOf stash n) ∧
      sizeOf stash n = BitVec.ofInt 31 (weight calls fun trace => traceOf stash n = trace) := by
    intro n member
    have inside := (all n).mp member
    obtain ⟨frames, trace⟩ := exists_trace trie.linked inside
    rw [trace.traceOf_eq]
    exact ⟨trace, (counts.node n _ frames (List.getElem?_eq_getElem inside) trace).2 ▸
      by rw [sizeOf, List.getElem?_eq_getElem inside, Option.elim_some]⟩
  have chosen : ∀ n, n ∈ sized stash visited ↔ n ∈ visited ∧ sizeOf stash n ≠ 0 := by
    intro n
    rw [sized, List.mem_filter, decide_eq_true_iff]
  refine ⟨stash, starts, ran, traced, ?_, (sized stash visited).map (callOf stash),
    (sized stash visited).map (traceOf stash), ?_, ?_, ?_, ?_⟩
  · intro n node held
    obtain ⟨frames, trace⟩ := exists_trace trie.linked (List.getElem?_eq_some_iff.mp held).1
    have counted := counts.node n node frames held trace
    exact ⟨frames, trace, counted.2, counted.1⟩
  · exact fun σ func data => stackStashForeach_eq stash func trie tour data
  · rw [List.forall₂_map_left_iff, List.forall₂_map_right_iff, List.forall₂_same]
    intro n member
    have met := ((chosen n).mp member).1
    refine ⟨elements_callOf trie.linked ((all n).mp met), ?_⟩
    rw [← toNat_ofInt_size, ← (sizes n met).2]
    rfl
  · refine (distinct.filter _).map_on fun n member m member' same => ?_
    have left := (sizes n ((chosen n).mp member).1).1
    have right := (sizes m ((chosen m).mp member').1).1
    rw [same] at left
    exact Option.some.inj (trie.trace_unique left right)
  · intro frames
    rw [List.mem_map]
    constructor
    · rintro ⟨n, member, rfl⟩
      obtain ⟨met, some_⟩ := (chosen n).mp member
      have trace := (sizes n met).1
      have spelled : traceOf stash n ≠ [] := by
        intro empty
        rw [empty] at trace
        cases trace
      refine ⟨spelled, ?_⟩
      rwa [(sizes n met).2, Ne, ofInt_size_eq_zero_iff] at some_
    · rintro ⟨spelled, some_⟩
      have found : ∃ n, Trace stash.nodes (some n) frames := by
        by_contra none
        have nothing := (counts.absent frames spelled fun n trace => none ⟨n, trace⟩).2
        exact some_ ((ofInt_size_eq_zero_iff _).mp nothing)
      obtain ⟨n, trace⟩ := found
      have met := (all n).mpr (trace.lt_length n rfl)
      refine ⟨n, (chosen n).mpr ⟨met, ?_⟩, trace.traceOf_eq⟩
      rwa [(sizes n met).2, trace.traceOf_eq, Ne, ofInt_size_eq_zero_iff]

end Memprof.Stash
