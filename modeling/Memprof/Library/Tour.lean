import Memprof.Library.Links

/-! # First child, next sibling

A tree whose nodes have a link to their first child, one to their next sibling and one up to
their parent.  `Tour` lists what a walk meets that goes down before it goes on: every node
once, if the links up lead to older nodes and siblings have the same parent.
-/

namespace Memprof.Library

variable {α : Type}

/-- A node comes before what is under it, and that before what is beside it. -/
inductive Tour (nodes : List α) (children siblings : α → Option ℕ) : Option ℕ → List ℕ → Prop
  | nil : Tour nodes children siblings none []
  | cons {i : ℕ} {node : α} {under beside : List ℕ} (held : nodes[i]? = some node)
      (down : Tour nodes children siblings (children node) under)
      (next : Tour nodes children siblings (siblings node) beside) :
      Tour nodes children siblings (some i) (i :: (under ++ beside))

/-- What the nodes under one parent hang on; without a parent it is the root. -/
def headOf (nodes : List α) (children : α → Option ℕ) (root : Option ℕ) : Option ℕ → Option ℕ
  | none => root
  | some m => nodes[m]?.bind children

structure Hanging (nodes : List α) (up children siblings : α → Option ℕ) : Prop where
  olderUp : Older nodes up
  olderSiblings : Older nodes siblings
  owned : ∀ (m : ℕ) (parent : α) (n : ℕ), nodes[m]? = some parent → children parent = some n →
    ∃ node, nodes[n]? = some node ∧ up node = some m
  alike : ∀ (n : ℕ) (node : α) (s : ℕ), nodes[n]? = some node → siblings node = some s →
    ∃ sibling, nodes[s]? = some sibling ∧ up sibling = up node

/-- `start` is a node under `owner`, if it is a node. -/
def Under (nodes : List α) (up : α → Option ℕ) (owner start : Option ℕ) : Prop :=
  ∀ n ∈ start, ∃ node, nodes[n]? = some node ∧ up node = owner

variable {nodes : List α} {up children siblings : α → Option ℕ}

theorem Hanging.down (hanging : Hanging nodes up children siblings) {n : ℕ} {node : α} (held : nodes[n]? = some node) :
    Under nodes up (some n) (children node) := fun c linked => hanging.owned n node c held linked

theorem Hanging.next (hanging : Hanging nodes up children siblings) {n : ℕ} {node : α} (held : nodes[n]? = some node) :
    Under nodes up (up node) (siblings node) := fun s linked => hanging.alike n node s held linked

/-! ## The walk ends -/

/-- Children are newer than their parent, so what is still to come gets less on the way down. -/
def toCome (nodes : List α) : Option ℕ → ℕ
  | none => nodes.length + 1
  | some m => nodes.length - m

theorem Hanging.toCome_lt (hanging : Hanging nodes up children siblings) {n : ℕ} {node : α}
    (held : nodes[n]? = some node) : toCome nodes (some n) < toCome nodes (up node) := by
  have inside := (List.getElem?_eq_some_iff.mp held).1
  cases linked : up node with
  | none => simp only [toCome]; omega
  | some m =>
    have older := hanging.olderUp n node m held linked
    simp only [toCome]
    omega

theorem tour_of_chain {start : Option ℕ} {list : List ℕ} (chain : Chain nodes siblings start list)
    (each : ∀ i ∈ list, ∀ node, nodes[i]? = some node → ∃ under, Tour nodes children siblings (children node) under) :
    ∃ visited, Tour nodes children siblings start visited := by
  induction chain with
  | nil => exact ⟨[], .nil⟩
  | @cons i node rest held _ inductionHypothesis =>
    obtain ⟨under, down⟩ := each i (by simp) node held
    obtain ⟨beside, next⟩ := inductionHypothesis fun j member => each j (by simp [member])
    exact ⟨_, .cons held down next⟩

theorem Under.lt_length {owner start : Option ℕ} (owned : Under nodes up owner start) :
    ∀ n ∈ start, n < nodes.length := by
  intro n member
  obtain ⟨node, held, _⟩ := owned n member
  exact (List.getElem?_eq_some_iff.mp held).1

theorem Under.chain (hanging : Hanging nodes up children siblings) {owner start : Option ℕ}
    (owned : Under nodes up owner start) {list : List ℕ} (chain : Chain nodes siblings start list) :
    ∀ i ∈ list, ∃ node, nodes[i]? = some node ∧ up node = owner := by
  refine chain.forall owned ?_
  rintro i node s held linked ⟨node', held', same⟩
  rw [held] at held'
  cases held'
  obtain ⟨sibling, found, alike⟩ := hanging.alike i node s held linked
  exact ⟨sibling, found, alike.trans same⟩

theorem exists_tour (hanging : Hanging nodes up children siblings) {owner start : Option ℕ}
    (owned : Under nodes up owner start) : ∃ visited, Tour nodes children siblings start visited := by
  obtain ⟨measure, measured⟩ : ∃ measure, toCome nodes owner = measure := ⟨_, rfl⟩
  induction measure using Nat.strongRecOn generalizing owner start with
  | ind measure inductionHypothesis =>
    obtain ⟨list, chain, _⟩ := exists_chain hanging.olderSiblings owned.lt_length
    refine tour_of_chain chain fun i member node held => ?_
    obtain ⟨node', held', same⟩ := owned.chain hanging chain i member
    rw [held] at held'
    cases held'
    have less := hanging.toCome_lt held
    rw [same, measured] at less
    exact inductionHypothesis _ less (hanging.down held) rfl

/-! ## Every node is met -/

theorem Tour.chain_subset {start : Option ℕ} {visited list : List ℕ} (tour : Tour nodes children siblings start visited)
    (chain : Chain nodes siblings start list) : list ⊆ visited := by
  induction chain generalizing visited with
  | nil => exact List.nil_subset _
  | cons held _ inductionHypothesis =>
    cases tour with
    | cons held' _ next =>
      rw [held] at held'
      cases held'
      have rest := inductionHypothesis next
      intro j member
      rcases List.mem_cons.mp member with rfl | later
      · simp
      · simp [rest later]

theorem Tour.under_mem {start : Option ℕ} {visited : List ℕ} (tour : Tour nodes children siblings start visited)
    {i : ℕ} (member : i ∈ visited) :
    ∃ node under, nodes[i]? = some node ∧ Tour nodes children siblings (children node) under ∧ under ⊆ visited := by
  induction tour with
  | nil => cases member
  | @cons j node under beside held down _ downHypothesis nextHypothesis =>
    simp only [List.mem_cons, List.mem_append] at member
    rcases member with rfl | below | after
    · exact ⟨node, under, held, down, fun k below => by simp [below]⟩
    · obtain ⟨node', under', held', down', subset⟩ := downHypothesis below
      exact ⟨node', under', held', down', fun k deeper => by simp [subset deeper]⟩
    · obtain ⟨node', under', held', down', subset⟩ := nextHypothesis after
      exact ⟨node', under', held', down', fun k deeper => by simp [subset deeper]⟩

/-- If every node is among those that its parent's link leads to, the walk from the root meets all. -/
theorem Tour.mem_of_sited (older : Older nodes up) {root : Option ℕ} {visited : List ℕ}
    (tour : Tour nodes children siblings root visited)
    (sited : ∀ n node, nodes[n]? = some node →
      ∃ list, Chain nodes siblings (headOf nodes children root (up node)) list ∧ n ∈ list)
    {n : ℕ} (inside : n < nodes.length) : n ∈ visited := by
  induction n using Nat.strongRecOn with
  | ind n inductionHypothesis =>
    have held : nodes[n]? = some nodes[n] := List.getElem?_eq_getElem inside
    obtain ⟨list, chain, member⟩ := sited n nodes[n] held
    cases linked : up nodes[n] with
    | none =>
      rw [linked] at chain
      exact tour.chain_subset chain member
    | some m =>
      have before := older n nodes[n] m held linked
      obtain ⟨parent, under, heldParent, down, subset⟩ :=
        tour.under_mem (inductionHypothesis m before (Nat.lt_trans before inside))
      rw [linked, headOf, heldParent] at chain
      exact subset (down.chain_subset chain member)

/-! ## No node is met twice -/

/-- `s` is met on the way up from `j`. -/
def Above (nodes : List α) (up : α → Option ℕ) (j s : ℕ) : Prop := ∃ list, Chain nodes up (some j) list ∧ s ∈ list

theorem Above.le (older : Older nodes up) {j s : ℕ} (above : Above nodes up j s) : s ≤ j := by
  obtain ⟨list, chain, member⟩ := above
  cases chain with
  | cons held chained =>
    rcases List.mem_cons.mp member with rfl | later
    · exact Nat.le_refl _
    · obtain ⟨rest, chain', _, below⟩ := exists_chain_from older j (List.getElem?_eq_some_iff.mp held).1
      cases chain'.unique (.cons held chained)
      exact Nat.le_of_lt (below s later)

theorem Chain.link_mem {link : α → Option ℕ} {start : Option ℕ} {list : List ℕ} (chain : Chain nodes link start list)
    {s i : ℕ} {node : α} (member : s ∈ list) (held : nodes[s]? = some node) (linked : link node = some i) :
    i ∈ list := by
  induction chain with
  | nil => cases member
  | @cons j other tail heldOther chained inductionHypothesis =>
    rcases List.mem_cons.mp member with rfl | later
    · rw [held] at heldOther
      cases heldOther
      rw [linked] at chained
      cases chained with
      | cons _ _ => simp
    · exact List.mem_cons_of_mem _ (inductionHypothesis later)

/-- No position after a link has that link too. -/
theorem Chain.link_ne {link : α → Option ℕ} {node other : α} {rest : List ℕ} {t : ℕ}
    (chained : Chain nodes link (link node) rest) (member : t ∈ rest) (found : nodes[t]? = some other) :
    link other ≠ link node := by
  intro same
  obtain ⟨rest', chain, shorter⟩ := chained.from_mem member
  cases chain with
  | cons held chained' =>
    rw [found] at held
    cases held
    rw [← same] at chained
    rw [chained.unique chained'] at shorter
    exact Nat.lt_irrefl _ shorter

theorem Chain.link_injective {link : α → Option ℕ} {start : Option ℕ} {list : List ℕ}
    (chain : Chain nodes link start list) {s t : ℕ} {node other : α} (left : s ∈ list) (right : t ∈ list)
    (held : nodes[s]? = some node)
    (found : nodes[t]? = some other) (same : link node = link other) : s = t := by
  induction chain with
  | nil => cases left
  | @cons i first rest heldFirst chained inductionHypothesis =>
    rcases List.mem_cons.mp left with rfl | leftLater <;> rcases List.mem_cons.mp right with rfl | rightLater
    · rfl
    · rw [held] at heldFirst
      cases heldFirst
      exact (chained.link_ne rightLater found same.symm).elim
    · rw [found] at heldFirst
      cases heldFirst
      exact (chained.link_ne leftLater held same).elim
    · exact inductionHypothesis leftLater rightLater

theorem exists_above (hanging : Hanging nodes up children siblings) {owner start : Option ℕ}
    (owned : Under nodes up owner start) {visited : List ℕ} (tour : Tour nodes children siblings start visited) :
    ∀ j ∈ visited, ∃ s node, nodes[s]? = some node ∧ up node = owner ∧ (∀ i ∈ start, s ≤ i) ∧ Above nodes up j s := by
  induction tour generalizing owner with
  | nil => simp
  | @cons i node under beside held down next downHypothesis nextHypothesis =>
    obtain ⟨node', held', same⟩ := owned i rfl
    rw [held] at held'
    cases held'
    intro j member
    simp only [List.mem_cons, List.mem_append] at member
    rcases member with rfl | below | after
    · obtain ⟨rest, chain, _⟩ := exists_chain_from hanging.olderUp j (List.getElem?_eq_some_iff.mp held).1
      exact ⟨j, node, held, same, by rintro _ ⟨⟩; exact Nat.le_refl _, _, chain, by simp⟩
    · obtain ⟨c, child, heldChild, upChild, _, list, chain, onTheWay⟩ := downHypothesis (hanging.down held) j below
      exact ⟨i, node, held, same, by rintro _ ⟨⟩; exact Nat.le_refl _, list, chain,
        chain.link_mem onTheWay heldChild upChild⟩
    · obtain ⟨s, sibling, heldSibling, upSibling, within, above⟩ := nextHypothesis (hanging.next held) j after
      refine ⟨s, sibling, heldSibling, upSibling.trans same, ?_, above⟩
      rintro _ ⟨⟩
      cases linked : siblings node with
      | none =>
        rw [linked] at next
        cases next
        cases after
      | some k => exact Nat.le_of_lt (Nat.lt_of_le_of_lt (within k linked) (hanging.olderSiblings i node k held linked))

theorem Tour.nodup (hanging : Hanging nodes up children siblings) {owner start : Option ℕ}
    (owned : Under nodes up owner start) {visited : List ℕ} (tour : Tour nodes children siblings start visited) :
    visited.Nodup := by
  induction tour generalizing owner with
  | nil => exact List.nodup_nil
  | @cons i node under beside held down next downHypothesis nextHypothesis =>
    -- What is under `i` has `i` above it.
    have below : ∀ j ∈ under, Above nodes up j i ∧ i < j := by
      intro j member
      obtain ⟨c, child, heldChild, upChild, _, list, chain, onTheWay⟩ :=
        exists_above hanging (hanging.down held) down j member
      have newer := hanging.olderUp c child i heldChild upChild
      have reached : c ≤ j := Above.le hanging.olderUp ⟨list, chain, onTheWay⟩
      exact ⟨⟨list, chain, chain.link_mem onTheWay heldChild upChild⟩, Nat.lt_of_lt_of_le newer reached⟩
    -- What is beside `i` has an older sibling of `i` above it.
    have after : ∀ j ∈ beside, ¬ Above nodes up j i := by
      rintro j member ⟨list, chain, here⟩
      obtain ⟨s, sibling, heldSibling, upSibling, within, list', chain', there⟩ :=
        exists_above hanging (hanging.next held) next j member
      cases chain'.unique chain
      have older : s < i := by
        cases linked : siblings node with
        | none =>
          rw [linked] at next
          cases next
          cases member
        | some k => exact Nat.lt_of_le_of_lt (within k linked) (hanging.olderSiblings i node k held linked)
      exact Nat.ne_of_lt older (chain.link_injective there here heldSibling held upSibling)
    have self : Above nodes up i i := by
      obtain ⟨rest, chain, _⟩ := exists_chain_from hanging.olderUp i (List.getElem?_eq_some_iff.mp held).1
      exact ⟨_, chain, by simp⟩
    refine List.nodup_cons.mpr ⟨?_, List.nodup_append.mpr ⟨downHypothesis (hanging.down held),
      nextHypothesis (hanging.next held), ?_⟩⟩
    · intro again
      rcases List.mem_append.mp again with deeper | later
      · exact Nat.lt_irrefl _ (below i deeper).2
      · exact after i later self
    · rintro j first _ second rfl
      exact after j second (below j first).1

theorem Tour.lt_length {start : Option ℕ} {visited : List ℕ} (tour : Tour nodes children siblings start visited) :
    ∀ i ∈ visited, i < nodes.length := by
  intro i member
  obtain ⟨node, _, held, _⟩ := tour.under_mem member
  exact (List.getElem?_eq_some_iff.mp held).1

theorem Tour.length_le (hanging : Hanging nodes up children siblings) {owner start : Option ℕ}
    (owned : Under nodes up owner start) {visited : List ℕ} (tour : Tour nodes children siblings start visited) :
    visited.length ≤ nodes.length := by
  have subset : visited ⊆ List.range nodes.length := fun j member => List.mem_range.mpr (tour.lt_length j member)
  simpa using (List.subperm_of_subset (tour.nodup hanging owned) subset).length_le

end Memprof.Library
