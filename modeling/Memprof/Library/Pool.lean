import Memprof.Library.Tour

/-! # Nodes from a pool

Nodes may lie at other places than in the order they were made: `search` and `Chain` follow
them there.  `blockPlace` is the place of the `k`-th node when nodes come in blocks of one
size and each block is used up from its end.
-/

namespace Memprof.Library

variable {α β : Type}

/-- Every node has its counterpart at its place, and the links of the two agree. -/
def Mirrors (place : ℕ → ℕ) (nodes : List α) (nodes' : List β) (link : α → Option ℕ) (link' : β → Option ℕ) : Prop :=
  ∀ (i : ℕ) (node : α), nodes[i]? = some node →
    ∃ node', nodes'[place i]? = some node' ∧ link' node' = (link node).map place

theorem Chain.mirror {place : ℕ → ℕ} {nodes : List α} {nodes' : List β} {link : α → Option ℕ} {link' : β → Option ℕ}
    (mirrors : Mirrors place nodes nodes' link link') {start : Option ℕ} {list : List ℕ}
    (chain : Chain nodes link start list) : Chain nodes' link' (start.map place) (list.map place) := by
  induction chain with
  | nil => exact .nil
  | @cons i node rest held _ inductionHypothesis =>
    obtain ⟨node', held', linked⟩ := mirrors i node held
    exact .cons held' (by rw [linked]; exact inductionHypothesis)

/-- A search finds the counterpart of what it has found, also with more fuel. -/
theorem search_mirror {place : ℕ → ℕ} {nodes : List α} {nodes' : List β} {link : α → Option ℕ} {test : α → Bool}
    (link' : β → Option ℕ) (test' : β → Bool)
    (mirrors : ∀ (i : ℕ) (node : α), nodes[i]? = some node →
      ∃ node', nodes'[place i]? = some node' ∧ link' node' = (link node).map place ∧ test' node' = test node)
    {fuel fuel' : ℕ} (more : fuel ≤ fuel') {start found : Option ℕ}
    (ended : search nodes link test fuel start = some found) :
    search nodes' link' test' fuel' (start.map place) = some (found.map place) := by
  induction fuel generalizing fuel' start with
  | zero =>
    cases start with
    | none => cases ended; cases fuel' <;> rfl
    | some i => cases ended
  | succ fuel inductionHypothesis =>
    cases start with
    | none => cases ended; cases fuel' <;> rfl
    | some i =>
      obtain ⟨fuel', rfl⟩ : ∃ fewer, fuel' = fewer + 1 := ⟨fuel' - 1, by omega⟩
      rw [search] at ended
      cases held : nodes[i]? with
      | none => rw [held] at ended; cases ended
      | some node =>
        obtain ⟨node', held', linked, tested⟩ := mirrors i node held
        simp only [held] at ended
        simp only [Option.map_some, search, held', tested, linked]
        split at ended
        next hit => rw [if_pos hit]; cases ended; rfl
        next miss => rw [if_neg miss]; exact inductionHypothesis (by omega) ended

/-! ## A list of free nodes -/

/-- What is written to a node outside a chain leaves the chain as it is. -/
theorem Chain.set_outside {nodes : List α} {link : α → Option ℕ} {head : Option ℕ} {list : List ℕ}
    (chain : Chain nodes link head list) {i : ℕ} (node : α) (unused : i ∉ list) :
    Chain (nodes.set i node) link head list := by
  refine chain.congr fun j member other held => ⟨other, ?_, rfl⟩
  have apart : i ≠ j := by
    rintro rfl
    exact unused member
  rw [List.getElem?_set_ne apart, held]

/-- A node that is put in front of a chain it is not in. -/
theorem Chain.push {nodes : List α} {link : α → Option ℕ} {head : Option ℕ} {list : List ℕ}
    (chain : Chain nodes link head list) {i : ℕ} (node : α) (inside : i < nodes.length) (unused : i ∉ list)
    (linked : link node = head) : Chain (nodes.set i node) link (some i) (i :: list) := by
  refine .cons (List.getElem?_set_self inside) ?_
  rw [linked]
  exact chain.set_outside node unused

theorem Chain.tail {nodes : List α} {link : α → Option ℕ} {i j : ℕ} {list : List ℕ}
    (chain : Chain nodes link (some i) (j :: list)) :
    i = j ∧ ∃ node, nodes[i]? = some node ∧ Chain nodes link (link node) list := by
  cases chain with
  | cons held chained => exact ⟨rfl, _, held, chained⟩

/-! ## Blocks that are used up from their end -/

/-- The place of the `k`-th node of blocks of `size` nodes. -/
def blockPlace (size k : ℕ) : ℕ := k / size * size + (size - 1 - k % size)

theorem blockPlace_block {size k i : ℕ} (inside : i < size) :
    blockPlace size (k * size + i) = k * size + (size - 1 - i) := by
  have positive : 0 < size := by omega
  have quotient : (k * size + i) / size = k := by
    rw [Nat.add_comm, Nat.add_mul_div_right i k positive, Nat.div_eq_of_lt inside, Nat.zero_add]
  have rest : (k * size + i) % size = i := by rw [Nat.add_comm, Nat.add_mul_mod_self_right, Nat.mod_eq_of_lt inside]
  rw [blockPlace, quotient, rest]

/-- The places are the numbers themselves in another order. -/
theorem blockPlace_blockPlace {size : ℕ} (positive : 0 < size) (k : ℕ) : blockPlace size (blockPlace size k) = k := by
  have below := Nat.mod_lt k positive
  have split : k / size * size + k % size = k := Nat.div_add_mod' k size
  calc
    blockPlace size (blockPlace size k) = k / size * size + (size - 1 - (size - 1 - k % size)) :=
      blockPlace_block (by omega)
    _ = k := by omega

theorem blockPlace_injective {size : ℕ} (positive : 0 < size) : Function.Injective (blockPlace size) :=
  Function.LeftInverse.injective (blockPlace_blockPlace positive)

theorem blockPlace_lt {size count k : ℕ} (inside : k < count * size) : blockPlace size k < count * size := by
  have positive : 0 < size := Nat.pos_of_ne_zero fun zero => by simp [zero] at inside
  have below := Nat.mod_lt k positive
  have block : k / size < count := Nat.div_lt_of_lt_mul (by rwa [Nat.mul_comm])
  calc
    blockPlace size k < k / size * size + size := by rw [blockPlace]; omega
    _ = (k / size + 1) * size := by rw [Nat.add_mul, Nat.one_mul]
    _ ≤ count * size := Nat.mul_le_mul_right size block

end Memprof.Library
