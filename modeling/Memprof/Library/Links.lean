import Mathlib.Data.List.Basic
import Mathlib.Data.List.Perm.Subperm
import Mathlib.Logic.Relation

/-! # Nodes that link to each other

An arena is a list of nodes, a link of a node is the position of another one or of none.
`search` and `walk` are the two loops over such a chain of links, `Chain` lists the
positions they meet.  Where every link leads to an older node all chains end.
-/

namespace Memprof.Library

variable {α : Type}

/-- The positions met from `start` on. -/
inductive Chain (nodes : List α) (link : α → Option ℕ) : Option ℕ → List ℕ → Prop
  | nil : Chain nodes link none []
  | cons {i : ℕ} {node : α} {rest : List ℕ} (held : nodes[i]? = some node)
      (chained : Chain nodes link (link node) rest) : Chain nodes link (some i) (i :: rest)

/-- The first position of a node with `test`; `none` when the chain breaks or does not
end within the fuel. -/
def search (nodes : List α) (link : α → Option ℕ) (test : α → Bool) : ℕ → Option ℕ → Option (Option ℕ)
  | _, none => some none
  | 0, some _ => none
  | fuel + 1, some i =>
    match nodes[i]? with
    | none => none
    | some node => if test node then some (some i) else search nodes link test fuel (link node)

def walk (nodes : List α) (link : α → Option ℕ) : ℕ → Option ℕ → Option (List ℕ)
  | _, none => some []
  | 0, some _ => none
  | fuel + 1, some i =>
    match nodes[i]? with
    | none => none
    | some node => (walk nodes link fuel (link node)).map (i :: ·)

theorem getElem?_concat_iff {list : List α} {item item' : α} {i : ℕ} :
    (list ++ [item])[i]? = some item' ↔ list[i]? = some item' ∨ i = list.length ∧ item = item' := by
  by_cases inside : i < list.length
  · rw [List.getElem?_append_left inside]
    simp [Nat.ne_of_lt inside]
  · rw [List.getElem?_append_right (Nat.le_of_not_lt inside), List.getElem?_singleton,
      List.getElem?_eq_none (Nat.le_of_not_lt inside)]
    by_cases last : i = list.length
    · simp [last]
    · have beyond : i - list.length ≠ 0 := by omega
      simp [last, beyond]

/-- Every link leads to a node made before. -/
def Older (nodes : List α) (link : α → Option ℕ) : Prop :=
  ∀ i node j, nodes[i]? = some node → link node = some j → j < i

theorem Older.append {nodes : List α} {link : α → Option ℕ} (older : Older nodes link) {node : α}
    (inside : ∀ j ∈ link node, j < nodes.length) : Older (nodes ++ [node]) link := by
  intro i other j held linked
  rcases Nat.lt_or_ge i nodes.length with old | fresh
  · rw [List.getElem?_append_left old] at held
    exact older i other j held linked
  · rw [List.getElem?_append_right fresh] at held
    have same : other = node := by simpa using List.mem_of_getElem? held
    have := inside j (same ▸ linked)
    omega

theorem Older.set {nodes : List α} {link : α → Option ℕ} (older : Older nodes link) {p : ℕ}
    {node node' : α} (held : nodes[p]? = some node) (same : link node' = link node) :
    Older (nodes.set p node') link := by
  intro i other j found linked
  by_cases here : i = p
  · subst here
    have inside := (List.getElem?_eq_some_iff.mp held).1
    simp only [List.getElem?_set_self inside, Option.some.injEq] at found
    subst found
    exact older i node j held (same ▸ linked)
  · rw [List.getElem?_set_ne (Ne.symm here)] at found
    exact older i other j found linked

theorem Chain.unique {nodes : List α} {link : α → Option ℕ} {start : Option ℕ} {left right : List ℕ}
    (leftChain : Chain nodes link start left) (rightChain : Chain nodes link start right) : left = right := by
  induction leftChain generalizing right with
  | nil => cases rightChain; rfl
  | cons held _ inductionHypothesis =>
    cases rightChain with
    | cons held' chained' =>
      rw [held] at held'
      cases held'
      rw [inductionHypothesis chained']

theorem search_eq {nodes : List α} {link : α → Option ℕ} {start : Option ℕ} {list : List ℕ}
    (chain : Chain nodes link start list) (test : α → Bool) {fuel : ℕ} (enough : list.length ≤ fuel) :
    search nodes link test fuel start = some (list.find? fun i => nodes[i]?.any test) := by
  induction chain generalizing fuel with
  | nil => simp [search]
  | @cons i node rest held _ inductionHypothesis =>
    rw [List.length_cons] at enough
    obtain ⟨fuel, rfl⟩ : ∃ fewer, fuel = fewer + 1 := ⟨fuel - 1, by omega⟩
    simp only [search, held]
    cases tested : test node with
    | true => rw [List.find?_cons_of_pos (by simp [held, tested])]; rfl
    | false =>
      rw [List.find?_cons_of_neg (by simp [held, tested])]
      exact inductionHypothesis (by omega)

theorem walk_eq {nodes : List α} {link : α → Option ℕ} {start : Option ℕ} {list : List ℕ}
    (chain : Chain nodes link start list) {fuel : ℕ} (enough : list.length ≤ fuel) :
    walk nodes link fuel start = some list := by
  induction chain generalizing fuel with
  | nil => simp [walk]
  | cons held _ inductionHypothesis =>
    rw [List.length_cons] at enough
    obtain ⟨fuel, rfl⟩ : ∃ fewer, fuel = fewer + 1 := ⟨fuel - 1, by omega⟩
    simp [walk, held, inductionHypothesis (show _ ≤ fuel by omega)]

/-- What holds of the first node and is passed on along the links holds of all. -/
theorem Chain.forall {nodes : List α} {link : α → Option ℕ} {start : Option ℕ} {list : List ℕ}
    (chain : Chain nodes link start list) {property : ℕ → Prop} (first : ∀ i ∈ start, property i)
    (passed : ∀ i node j, nodes[i]? = some node → link node = some j → property i → property j) :
    ∀ i ∈ list, property i := by
  induction chain with
  | nil => simp
  | @cons i node rest held _ inductionHypothesis =>
    intro j member
    rcases List.mem_cons.mp member with rfl | later
    · exact first j rfl
    · exact inductionHypothesis (fun k linked => passed i node k held linked (first i rfl)) j later

theorem Chain.lt_length {nodes : List α} {link : α → Option ℕ} {start : Option ℕ} {list : List ℕ}
    (chain : Chain nodes link start list) : ∀ i ∈ list, i < nodes.length := by
  induction chain with
  | nil => simp
  | cons held _ inductionHypothesis =>
    intro j member
    rcases List.mem_cons.mp member with rfl | later
    · exact (List.getElem?_eq_some_iff.mp held).1
    · exact inductionHypothesis j later

/-- What comes after a position of a chain is a chain from there. -/
theorem Chain.from_mem {nodes : List α} {link : α → Option ℕ} {start : Option ℕ} {list : List ℕ}
    (chain : Chain nodes link start list) {i : ℕ} (member : i ∈ list) :
    ∃ rest, Chain nodes link (some i) (i :: rest) ∧ rest.length < list.length := by
  induction chain with
  | nil => cases member
  | @cons j node rest held chained inductionHypothesis =>
    rcases List.mem_cons.mp member with rfl | later
    · exact ⟨rest, .cons held chained, by simp⟩
    · obtain ⟨rest', chain', shorter⟩ := inductionHypothesis later
      exact ⟨rest', chain', by rw [List.length_cons]; omega⟩

/-- A chain that ends meets no node twice. -/
theorem Chain.nodup {nodes : List α} {link : α → Option ℕ} {start : Option ℕ} {list : List ℕ}
    (chain : Chain nodes link start list) : list.Nodup := by
  induction chain with
  | nil => exact List.nodup_nil
  | @cons i node rest held chained inductionHypothesis =>
    refine List.nodup_cons.mpr ⟨fun again => ?_, inductionHypothesis⟩
    obtain ⟨rest', chain', shorter⟩ := chained.from_mem again
    have same := chain'.unique (Chain.cons held chained)
    rw [List.cons.injEq] at same
    rw [same.2] at shorter
    exact Nat.lt_irrefl _ shorter

theorem Chain.length_le {nodes : List α} {link : α → Option ℕ} {start : Option ℕ} {list : List ℕ}
    (chain : Chain nodes link start list) : list.length ≤ nodes.length := by
  have subset : list ⊆ List.range nodes.length := fun j member => List.mem_range.mpr (chain.lt_length j member)
  simpa using (List.subperm_of_subset chain.nodup subset).length_le

theorem exists_chain_from {nodes : List α} {link : α → Option ℕ} (older : Older nodes link) (i : ℕ)
    (inside : i < nodes.length) :
    ∃ rest, Chain nodes link (some i) (i :: rest) ∧ (i :: rest).Pairwise (· > ·) ∧ ∀ j ∈ rest, j < i := by
  induction i using Nat.strongRecOn with
  | ind i inductionHypothesis =>
    have held : nodes[i]? = some nodes[i] := List.getElem?_eq_getElem inside
    cases linked : link nodes[i] with
    | none =>
      have ended : Chain nodes link (link nodes[i]) [] := by rw [linked]; exact .nil
      exact ⟨[], .cons held ended, List.pairwise_singleton _ _, by simp⟩
    | some j =>
      have before := older i nodes[i] j held linked
      obtain ⟨rest, chain, sorted, below⟩ := inductionHypothesis j before (by omega)
      have belowAll : ∀ k ∈ j :: rest, k < i := by
        intro k member
        rcases List.mem_cons.mp member with rfl | later
        · exact before
        · exact Nat.lt_trans (below k later) before
      rw [← linked] at chain
      exact ⟨j :: rest, .cons held chain, List.pairwise_cons.mpr ⟨belowAll, sorted⟩, belowAll⟩

/-- Chains of older nodes end, and meet no node twice. -/
theorem exists_chain {nodes : List α} {link : α → Option ℕ} (older : Older nodes link) {start : Option ℕ}
    (inside : ∀ i ∈ start, i < nodes.length) :
    ∃ list, Chain nodes link start list ∧ list.Pairwise (· > ·) ∧ list.length ≤ nodes.length := by
  cases start with
  | none => exact ⟨[], .nil, List.Pairwise.nil, Nat.zero_le _⟩
  | some i =>
    obtain ⟨rest, chain, sorted, _⟩ := exists_chain_from older i (inside i rfl)
    exact ⟨i :: rest, chain, sorted, chain.length_le⟩

theorem Chain.exists_end {nodes : List α} {link : α → Option ℕ} {i : ℕ} {list : List ℕ}
    (chain : Chain nodes link (some i) list) : ∃ j ∈ list, ∃ node, nodes[j]? = some node ∧ link node = none := by
  obtain ⟨start, spelled⟩ : ∃ start, start = some i := ⟨_, rfl⟩
  rw [← spelled] at chain
  induction chain generalizing i with
  | nil => cases spelled
  | @cons j node rest held chained inductionHypothesis =>
    cases linked : link node with
    | none => exact ⟨j, by simp, node, held, linked⟩
    | some k =>
      obtain ⟨last, member, ended⟩ := inductionHypothesis linked
      exact ⟨last, by simp [member], ended⟩

/-- A search sees of the nodes what its link and its test see. -/
theorem search_map {β : Type} (nodes : List α) (view : α → β) (link : β → Option ℕ) (test : β → Bool) (fuel : ℕ)
    (start : Option ℕ) :
    search (nodes.map view) link test fuel start = search nodes (link ∘ view) (test ∘ view) fuel start := by
  induction fuel generalizing start with
  | zero => cases start <;> rfl
  | succ fuel inductionHypothesis =>
    cases start with
    | none => rfl
    | some i =>
      simp only [search, List.getElem?_map]
      cases nodes[i]? with
      | none => rfl
      | some node => simp only [Option.map_some, Function.comp_apply, inductionHypothesis]

/-- Nodes that keep their links keep their chains. -/
theorem Chain.congr {nodes nodes' : List α} {link : α → Option ℕ} {start : Option ℕ} {list : List ℕ}
    (chain : Chain nodes link start list)
    (same : ∀ i ∈ list, ∀ node, nodes[i]? = some node → ∃ node', nodes'[i]? = some node' ∧ link node' = link node) :
    Chain nodes' link start list := by
  induction chain with
  | nil => exact .nil
  | @cons i node rest held _ inductionHypothesis =>
    obtain ⟨node', held', linked⟩ := same i (by simp) node held
    refine .cons held' ?_
    rw [linked]
    exact inductionHypothesis fun j member => same j (by simp [member])

/-- The positions met from one node to another that its links lead to, both included. -/
inductive Segment (nodes : List α) (link : α → Option ℕ) (last : ℕ) : ℕ → List ℕ → Prop
  | single {node : α} (held : nodes[last]? = some node) : Segment nodes link last last [last]
  | cons {i j : ℕ} {node : α} {rest : List ℕ} (held : nodes[i]? = some node) (linked : link node = some j)
      (onward : Segment nodes link last j rest) : Segment nodes link last i (i :: rest)

theorem Segment.ends {nodes : List α} {link : α → Option ℕ} {last i : ℕ} {list : List ℕ}
    (segment : Segment nodes link last i list) : list.head? = some i ∧ list.getLast? = some last := by
  induction segment with
  | single held => exact ⟨rfl, rfl⟩
  | @cons i j node rest held linked onward inductionHypothesis =>
    refine ⟨rfl, ?_⟩
    rw [List.getLast?_cons, inductionHypothesis.2]
    rfl

/-- Links to older nodes lead to an older node. -/
theorem Segment.last_le {nodes : List α} {link : α → Option ℕ} (older : Older nodes link) {last i : ℕ} {list : List ℕ}
    (segment : Segment nodes link last i list) : last ≤ i := by
  induction segment with
  | single held => exact Nat.le_refl _
  | cons held linked onward inductionHypothesis =>
    exact Nat.le_of_lt (Nat.lt_of_le_of_lt inductionHypothesis (older _ _ _ held linked))

/-! ## Where the links end -/

def LinksTo (nodes : List α) (link : α → Option ℕ) (i j : ℕ) : Prop :=
  ∃ node, nodes[i]? = some node ∧ link node = some j

/-- The links lead from `i` to `last`, which has none. -/
def EndsAt (nodes : List α) (link : α → Option ℕ) (i last : ℕ) : Prop :=
  Relation.ReflTransGen (LinksTo nodes link) i last ∧ ∃ node, nodes[last]? = some node ∧ link node = none

theorem acyclic_of_older {nodes : List α} {link : α → Option ℕ} (older : Older nodes link) (i : ℕ) :
    ¬ Relation.TransGen (LinksTo nodes link) i i := by
  have lower : ∀ {j}, Relation.TransGen (LinksTo nodes link) i j → j < i := by
    intro j path
    induction path with
    | single step =>
      obtain ⟨node, held, linked⟩ := step
      exact older _ node _ held linked
    | tail _ step inductionHypothesis =>
      obtain ⟨node, held, linked⟩ := step
      exact Nat.lt_trans (older _ node _ held linked) inductionHypothesis
  exact fun cycle => Nat.lt_irrefl i (lower cycle)

/-- A position without a link leads nowhere else. -/
theorem eq_of_no_link {nodes : List α} {link : α → Option ℕ} {last j : ℕ} {node : α} (held : nodes[last]? = some node)
    (ended : link node = none) (path : Relation.ReflTransGen (LinksTo nodes link) last j) : j = last := by
  rcases Relation.ReflTransGen.cases_head path with rfl | ⟨k, ⟨node', held', linked⟩, _⟩
  · rfl
  · rw [held] at held'
    cases held'
    rw [ended] at linked
    cases linked

theorem EndsAt.unique {nodes : List α} {link : α → Option ℕ} {i last last' : ℕ} (left : EndsAt nodes link i last)
    (right : EndsAt nodes link i last') : last = last' := by
  obtain ⟨path, node, held, ended⟩ := left
  obtain ⟨path', node', held', ended'⟩ := right
  have single : Relator.RightUnique (LinksTo nodes link) := by
    rintro a b c ⟨left, heldLeft, toB⟩ ⟨right, heldRight, toC⟩
    rw [heldLeft] at heldRight
    cases heldRight
    rw [toB] at toC
    exact Option.some.inj toC
  rcases Relation.ReflTransGen.total_of_right_unique single path path' with onward | onward
  · exact (eq_of_no_link held ended onward).symm
  · exact eq_of_no_link held' ended' onward

/-- A search for the node without a link ends there. -/
theorem search_endsAt {nodes : List α} {link : α → Option ℕ} {fuel i last : ℕ}
    (found : search nodes link (fun node => (link node).isNone) fuel (some i) = some (some last)) : EndsAt nodes link i last := by
  induction fuel generalizing i with
  | zero => cases found
  | succ fuel inductionHypothesis =>
    rw [search] at found
    cases held : nodes[i]? with
    | none =>
      rw [held] at found
      cases found
    | some node =>
      rw [held] at found
      cases linked : link node with
      | none =>
        simp only [linked, Option.isNone_none, if_true, Option.some.injEq] at found
        subst found
        exact ⟨.refl, node, held, linked⟩
      | some j =>
        simp only [linked, Option.isNone_some, Bool.false_eq_true, if_false] at found
        obtain ⟨path, ended⟩ := inductionHypothesis found
        exact ⟨.head ⟨node, held, linked⟩ path, ended⟩

/-- Nodes that keep their links keep where these end. -/
theorem EndsAt.kept {nodes nodes' : List α} {link : α → Option ℕ} {i last : ℕ} (ends : EndsAt nodes link i last)
    (same : ∀ (j : ℕ) (node : α), nodes[j]? = some node → ∃ node', nodes'[j]? = some node' ∧ link node' = link node) :
    EndsAt nodes' link i last := by
  obtain ⟨path, node, held, ended⟩ := ends
  refine ⟨Relation.ReflTransGen.mono ?_ _ _ path, ?_⟩
  · rintro j k ⟨other, heldOther, linked⟩
    obtain ⟨other', held', kept⟩ := same j other heldOther
    exact ⟨other', held', kept.trans linked⟩
  · obtain ⟨node', held', kept⟩ := same last node held
    exact ⟨node', held', kept.trans ended⟩

end Memprof.Library
