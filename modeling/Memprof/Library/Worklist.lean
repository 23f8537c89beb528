import Mathlib.Data.Finset.Card
import Mathlib.Logic.Relation

/-! # Marking with a worklist

A graph is given by the list of successors of each node.  Marking starts from nodes that
are pending and not marked; a successor that is not marked yet is marked and becomes
pending.  When nothing is pending, the marked nodes are those that some first node
reaches in at least one step.
-/

namespace Memprof.Library.Worklist

variable {α : Type*} [DecidableEq α]

structure Marking (α : Type*) where
  pending : List α
  marked : Finset α

def Marking.push (marking : Marking α) (node : α) : Marking α :=
  if node ∈ marking.marked then marking
  else { pending := node :: marking.pending, marked := insert node marking.marked }

def mark (next : α → List α) : ℕ → Marking α → Option (Finset α)
  | 0, _ => none
  | _ + 1, ⟨[], marked⟩ => some marked
  | fuel + 1, ⟨node :: pending, marked⟩ => mark next fuel ((next node).foldl Marking.push ⟨pending, marked⟩)

/-- One of `roots` reaches the node in at least one step. -/
def Reached (next : α → List α) (roots : List α) (node : α) : Prop :=
  ∃ root ∈ roots, Relation.TransGen (fun a b => b ∈ next a) root node

/-- Whatever is marked is reached, and the successors of a node are marked unless it
still waits for its turn. -/
structure Invariant (next : α → List α) (roots : List α) (marking : Marking α) : Prop where
  reached : ∀ node ∈ marking.marked, Reached next roots node
  pending : ∀ node ∈ marking.pending, node ∈ roots ∨ node ∈ marking.marked
  closed : ∀ node, node ∈ roots ∨ node ∈ marking.marked →
    node ∈ marking.pending ∨ ∀ successor ∈ next node, successor ∈ marking.marked

section Push

theorem marked_push (marking : Marking α) (node : α) : (marking.push node).marked = insert node marking.marked := by
  unfold Marking.push
  split
  next marked => exact (Finset.insert_eq_of_mem marked).symm
  next => rfl

theorem marked_foldl_push (nodes : List α) (marking : Marking α) :
    (nodes.foldl Marking.push marking).marked = marking.marked ∪ nodes.toFinset := by
  induction nodes generalizing marking with
  | nil => simp
  | cons node nodes inductionHypothesis =>
    rw [List.foldl_cons, inductionHypothesis, marked_push, List.toFinset_cons, Finset.insert_union,
      Finset.union_insert]

theorem mem_pending_push (marking : Marking α) (node other : α) :
    other ∈ (marking.push node).pending ↔
      other ∈ marking.pending ∨ other = node ∧ node ∉ marking.marked := by
  unfold Marking.push
  split
  next marked => simp [marked]
  next fresh => simp [fresh, or_comm]

/-- Pending afterwards are the nodes that were, and those that have become marked. -/
theorem mem_pending_foldl_push (nodes : List α) (marking : Marking α) (other : α) :
    other ∈ (nodes.foldl Marking.push marking).pending ↔
      other ∈ marking.pending ∨ other ∈ nodes ∧ other ∉ marking.marked := by
  induction nodes generalizing marking with
  | nil => simp
  | cons node nodes inductionHypothesis =>
    rw [List.foldl_cons, inductionHypothesis, mem_pending_push, marked_push, Finset.mem_insert, List.mem_cons]
    by_cases same : other = node
    · subst same
      tauto
    · tauto

/-- What is pending and what can still become pending, together, never grows. -/
theorem measure_push {bound : Finset α} {node : α} (inside : node ∈ bound) (marking : Marking α) :
    (marking.push node).pending.length + (bound \ (marking.push node).marked).card ≤
      marking.pending.length + (bound \ marking.marked).card := by
  unfold Marking.push
  split
  next => exact Nat.le_refl _
  next fresh =>
    have shrinks : bound \ insert node marking.marked = (bound \ marking.marked).erase node := by
      ext other
      simp only [Finset.mem_sdiff, Finset.mem_insert, Finset.mem_erase]
      tauto
    have unmarked : node ∈ bound \ marking.marked := Finset.mem_sdiff.mpr ⟨inside, fresh⟩
    have positive := Finset.card_pos.mpr ⟨node, unmarked⟩
    rw [shrinks, Finset.card_erase_of_mem unmarked, List.length_cons]
    omega

theorem measure_foldl_push {bound : Finset α} {nodes : List α} (inside : ∀ node ∈ nodes, node ∈ bound)
    (marking : Marking α) :
    (nodes.foldl Marking.push marking).pending.length + (bound \ (nodes.foldl Marking.push marking).marked).card ≤
      marking.pending.length + (bound \ marking.marked).card := by
  induction nodes generalizing marking with
  | nil => exact Nat.le_refl _
  | cons node nodes inductionHypothesis =>
    rw [List.foldl_cons]
    exact (inductionHypothesis (fun other member => inside other (by simp [member])) _).trans
      (measure_push (inside node (by simp)) marking)

end Push

variable {next : α → List α} {roots : List α}

omit [DecidableEq α] in
theorem invariant_start : Invariant next roots ⟨roots, ∅⟩ where
  reached _ marked := absurd marked (Finset.notMem_empty _)
  pending _ pending := .inl pending
  closed _ known := .inl (known.resolve_right (Finset.notMem_empty _))

/-- One turn of the loop. -/
theorem Invariant.visit {node : α} {pending : List α} {marked : Finset α}
    (invariant : Invariant next roots ⟨node :: pending, marked⟩) :
    Invariant next roots ((next node).foldl Marking.push ⟨pending, marked⟩) where
  reached other isMarked := by
    rw [marked_foldl_push, Finset.mem_union, List.mem_toFinset] at isMarked
    rcases isMarked with old | successor
    · exact invariant.reached other old
    · rcases invariant.pending node (by simp) with isRoot | old
      · exact ⟨node, isRoot, .single successor⟩
      · obtain ⟨root, isRoot, path⟩ := invariant.reached node old
        exact ⟨root, isRoot, path.tail successor⟩
  pending other waits := by
    rw [mem_pending_foldl_push] at waits
    rw [marked_foldl_push, Finset.mem_union, List.mem_toFinset]
    rcases waits with old | ⟨successor, _⟩
    · rcases invariant.pending other (List.mem_cons_of_mem _ old) with isRoot | isMarked
      · exact .inl isRoot
      · exact .inr (.inl isMarked)
    · exact .inr (.inr successor)
  closed other known := by
    rw [marked_foldl_push] at known ⊢
    rw [mem_pending_foldl_push]
    simp only [Finset.mem_union, List.mem_toFinset] at known ⊢
    by_cases fresh : other ∈ next node ∧ other ∉ marked
    · exact .inl (.inr fresh)
    · have before : other ∈ roots ∨ other ∈ marked := by tauto
      rcases invariant.closed other before with waits | closed
      · rcases List.mem_cons.mp waits with rfl | waits
        · exact .inr fun successor member => .inr member
        · exact .inl (.inl waits)
      · exact .inr fun successor member => .inl (closed successor member)

omit [DecidableEq α] in
/-- When nothing is pending any more, the marked nodes are the reached ones. -/
theorem Invariant.mem_marked {marked : Finset α} (invariant : Invariant next roots ⟨[], marked⟩) (node : α) :
    node ∈ marked ↔ Reached next roots node := by
  constructor
  · exact invariant.reached node
  · rintro ⟨root, isRoot, path⟩
    induction path with
    | single edge =>
      exact ((invariant.closed root (.inl isRoot)).resolve_left List.not_mem_nil) _ edge
    | tail _ edge inductionHypothesis =>
      exact ((invariant.closed _ (.inr inductionHypothesis)).resolve_left List.not_mem_nil) _ edge

theorem mark_reached {fuel : ℕ} {marking : Marking α} (invariant : Invariant next roots marking) {marked : Finset α}
    (finished : mark next fuel marking = some marked) (node : α) : node ∈ marked ↔ Reached next roots node := by
  induction fuel generalizing marking with
  | zero => cases finished
  | succ fuel inductionHypothesis =>
    obtain ⟨pending, before⟩ := marking
    cases pending with
    | nil =>
      cases finished
      exact invariant.mem_marked node
    | cons first pending => exact inductionHypothesis invariant.visit finished

/-- A mark is never taken away. -/
theorem subset_mark {fuel : ℕ} {marking : Marking α} {marked : Finset α}
    (finished : mark next fuel marking = some marked) : marking.marked ⊆ marked := by
  induction fuel generalizing marking with
  | zero => cases finished
  | succ fuel inductionHypothesis =>
    obtain ⟨pending, before⟩ := marking
    cases pending with
    | nil =>
      cases finished
      exact Finset.Subset.refl _
    | cons first pending =>
      have later := inductionHypothesis finished
      rw [marked_foldl_push] at later
      exact Finset.union_subset_left later

/-- Each turn takes a node away from the pending ones and the ones not marked. -/
theorem mark_terminates {bound : Finset α} (inside : ∀ node, ∀ successor ∈ next node, successor ∈ bound)
    {fuel : ℕ} {marking : Marking α} (enough : marking.pending.length + (bound \ marking.marked).card < fuel) :
    ∃ marked, mark next fuel marking = some marked := by
  induction fuel generalizing marking with
  | zero => omega
  | succ fuel inductionHypothesis =>
    obtain ⟨pending, before⟩ := marking
    cases pending with
    | nil => exact ⟨before, rfl⟩
    | cons first pending =>
      apply inductionHypothesis
      have shrinks := measure_foldl_push (inside first) ⟨pending, before⟩
      simp only [List.length_cons] at enough shrinks
      omega

end Memprof.Library.Worklist
