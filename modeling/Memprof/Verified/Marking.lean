import Memprof.Library.Bisection
import Memprof.LeakDetect
import Memprof.Library.Outcome
import Memprof.Library.Worklist

/-! # Searching and marking

In an array that is sorted by address `find_block` looks at the last block that does not
start above the word.  Whatever it finds, the loop over `block_list` is the marking of
`Library.Worklist`, and its graph has an edge for every word.
-/

namespace Memprof.Leaks

open Library

/-- The block with the marks of `marked`. -/
def shown (view : BlockId → Block) (marked : Finset BlockId) (b : BlockId) : Block :=
  { view b with flags := { (view b).flags with marked := decide (b ∈ marked) } }

/-- The store has the `known` blocks, and exactly those of `marked` are marked. -/
def Shows (view : BlockId → Block) (known : List BlockId) (marked : Finset BlockId) (blocks : Store Block) : Prop :=
  ∀ b ∈ known, blocks.get b = some (shown view marked b)

/-! ## The search -/

/-- Later blocks start at higher addresses. -/
def Sorted (view : BlockId → Block) (arr : List BlockId) : Prop := arr.Pairwise fun b c => (view b).addr < (view c).addr

/-- The array of blocks as it is during the run; `view` shows the block that an element
points at, without its mark. -/
structure Ascending (view : BlockId → Block) (arr : List BlockId) : Prop where
  fits : arr.length < 2 ^ 31
  sorted : arr.Pairwise fun b c => (view b).addr < (view c).addr

/-- The last block that does not start above the word, if the word lies in its extent. -/
def lookupLast (view : BlockId → Block) (arr : List BlockId) (word : Addr) : Option BlockId :=
  (arr.filter fun b => (view b).addr ≤ word).getLast?.filter fun b => word < (view b).addr + (view b).size.toUInt64

section Search

variable {view : BlockId → Block} {arr known : List BlockId} {marked : Finset BlockId} {blocks : Store Block}

theorem Sorted.addr_lt (sorted : Sorted view arr) {i j : ℕ} (ordered : i < j) (inside : j < arr.length) :
    (view arr[i]).addr < (view arr[j]).addr :=
  List.pairwise_iff_getElem.mp sorted i j (ordered.trans inside) inside ordered

theorem Sorted.addr_le (sorted : Sorted view arr) {i j : ℕ} (ordered : i ≤ j) (inside : j < arr.length) :
    (view arr[i]).addr ≤ (view arr[j]).addr := by
  rcases Nat.lt_or_eq_of_le ordered with less | same
  · exact UInt64.le_of_lt (sorted.addr_lt less inside)
  · subst same
    exact UInt64.le_refl _

theorem lookupLast_mem {word : Addr} {b : BlockId} (found : lookupLast view arr word = some b) : b ∈ arr := by
  obtain ⟨last, _⟩ := Option.filter_eq_some_iff.mp found
  exact List.mem_of_mem_filter (List.mem_of_getLast? last)

/-- The block is the one that `find_block` is to find for the word. -/
def Finds (view : BlockId → Block) (arr : List BlockId) (word : Addr) (b : BlockId) : Prop :=
  b ∈ arr ∧ (view b).addr ≤ word ∧ word < (view b).addr + (view b).size.toUInt64 ∧
    ∀ c ∈ arr, (view c).addr ≤ word → (view c).addr ≤ (view b).addr

/-- The last one of what ascends is the highest one. -/
theorem getLast?_eq_some_iff {α : Type} {f : α → Addr} {items : List α}
    (ascending : items.Pairwise fun x y => f x < f y) {item : α} :
    items.getLast? = some item ↔ item ∈ items ∧ ∀ other ∈ items, f other ≤ f item := by
  rcases List.eq_nil_or_concat items with rfl | ⟨front, last, rfl⟩
  · simp
  rw [List.concat_eq_append] at ascending ⊢
  have lower : ∀ other ∈ front, f other < f last := fun other member =>
    (List.pairwise_append.mp ascending).2.2 other member last (List.mem_singleton_self last)
  rw [List.getLast?_concat, Option.some_inj]
  constructor
  · rintro rfl
    refine ⟨by simp, fun other member => ?_⟩
    rcases List.mem_append.mp member with before | itself
    · exact UInt64.le_of_lt (lower other before)
    · rw [List.mem_singleton.mp itself]
      exact UInt64.le_refl _
  · rintro ⟨member, highest⟩
    rcases List.mem_append.mp member with before | itself
    · exact absurd (highest last (by simp)) (UInt64.not_le.mpr (lower item before))
    · exact (List.mem_singleton.mp itself).symm

theorem lookupLast_eq_some_iff (sorted : Sorted view arr) {word : Addr} {b : BlockId} :
    lookupLast view arr word = some b ↔ Finds view arr word b := by
  have lower := List.Pairwise.sublist (List.filter_sublist (p := fun b => decide ((view b).addr ≤ word))) sorted
  rw [lookupLast, Option.filter_eq_some_iff, getLast?_eq_some_iff lower]
  simp only [List.mem_filter, decide_eq_true_eq, Finds]
  constructor
  · rintro ⟨⟨⟨member, starts⟩, highest⟩, extent⟩
    exact ⟨member, starts, extent, fun c memberC startsC => highest c ⟨memberC, startsC⟩⟩
  · rintro ⟨member, starts, extent, highest⟩
    exact ⟨⟨⟨member, starts⟩, fun c listed => highest c listed.1 listed.2⟩, extent⟩

theorem lookupLast_eq_none (above : ∀ b ∈ arr, word < (view b).addr) : lookupLast view arr word = none := by
  have empty : arr.filter (fun b => (view b).addr ≤ word) = [] := by
    rw [List.filter_eq_nil_iff]
    intro b member
    simpa using above b member
  rw [lookupLast, empty]
  rfl

theorem lookupLast_at (sorted : Sorted view arr) {i : ℕ} (inside : i < arr.length) {word : Addr}
    (starts : (view arr[i]).addr ≤ word) (next : ∀ after : i + 1 < arr.length, word < (view arr[i + 1]).addr) :
    lookupLast view arr word =
      if word < (view arr[i]).addr + (view arr[i]).size.toUInt64 then some arr[i] else none := by
  have below : arr.filter (fun b => (view b).addr ≤ word) = arr.take (i + 1) := by
    have lower : (arr.take (i + 1)).filter (fun b => (view b).addr ≤ word) = arr.take (i + 1) := by
      rw [List.filter_eq_self]
      intro b member
      obtain ⟨j, small, rfl⟩ := List.getElem_of_mem member
      rw [List.getElem_take, decide_eq_true_eq]
      rw [List.length_take] at small
      exact UInt64.le_trans (sorted.addr_le (show j ≤ i by omega) inside) starts
    have upper : (arr.drop (i + 1)).filter (fun b => (view b).addr ≤ word) = [] := by
      rw [List.filter_eq_nil_iff]
      intro b member
      obtain ⟨j, small, rfl⟩ := List.getElem_of_mem member
      rw [List.length_drop] at small
      rw [List.getElem_drop, decide_eq_true_eq, UInt64.not_le]
      exact UInt64.lt_of_lt_of_le (next (by omega)) (sorted.addr_le (Nat.le_add_right _ _) (by omega))
    conv_lhs => rw [← List.take_append_drop (i + 1) arr]
    rw [List.filter_append, lower, upper, List.append_nil]
  rw [lookupLast, below, List.take_add_one, List.getElem?_eq_getElem inside, Option.toList_some, List.getLast?_concat,
    Option.filter_some]
  simp only [decide_eq_true_eq]

theorem element_ok (visible : Shows view known marked blocks) (array : ∀ b ∈ arr, b ∈ known) {i : UInt32}
    (inside : i.toNat < arr.length) :
    element blocks arr i = .ok (arr[i.toNat], shown view marked arr[i.toNat]) := by
  have member := array _ (List.getElem_mem inside)
  rw [element, List.getElem?_eq_getElem inside]
  simp only [deref, visible _ member, ok_bind]

theorem within_ok (sorted : Sorted view arr) (visible : Shows view known marked blocks)
    (array : ∀ b ∈ arr, b ∈ known) {i : UInt32} (inside : i.toNat < arr.length) {word : Addr}
    (starts : (view arr[i.toNat]).addr ≤ word)
    (next : ∀ after : i.toNat + 1 < arr.length, word < (view arr[i.toNat + 1]).addr) :
    within blocks arr word i = .ok (lookupLast view arr word) := by
  rw [within, element_ok visible array inside, ok_bind, lookupLast_at sorted inside starts next]
  rfl

/-- The loop is a bisection that compares the word with the block in the middle. -/
theorem findBlockLoop_eq_bisect (blocks : Store Block) (arr : List BlockId) (word : Addr) (fuel : ℕ)
    (first last : UInt32) :
    findBlockLoop blocks arr word fuel first last =
      bisect (fun middle => (element blocks arr middle).map fun found => decide (word < found.2.addr)) .outOfFuel fuel
        first last := by
  induction fuel generalizing first last with
  | zero => rfl
  | succ fuel inductionHypothesis =>
    rw [findBlockLoop, bisect]
    simp only [inductionHypothesis]
    split
    · cases element blocks arr ((first + last) / 2) with
      | error fault => rfl
      | ok found => simp only [ok_bind, Except.map, decide_eq_true_eq]
    · rfl

/-- The indexes do not overflow as long as they are not above `2 ^ 31`. -/
theorem findBlockLoop_ok (visible : Shows view known marked blocks) (array : ∀ b ∈ arr, b ∈ known) {word : Addr}
    {fuel : ℕ} {first last : UInt32} (fits : last.toNat ≤ 2 ^ 31) (less : first.toNat < last.toNat)
    (inside : last.toNat < arr.length) (starts : (view arr[first.toNat]).addr ≤ word)
    (ends : word < (view arr[last.toNat]).addr) (enough : last.toNat - first.toNat ≤ fuel) :
    ∃ found, findBlockLoop blocks arr word fuel first last = .ok found ∧
      ∃ after : found.toNat + 1 < arr.length,
        (view arr[found.toNat]).addr ≤ word ∧ word < (view arr[found.toNat + 1]).addr := by
  have compared : ∀ i : UInt32, i < last →
      (element blocks arr i).map (fun found => decide (word < found.2.addr)) =
        (.ok (decide (arr[i.toNat]?.any (fun b => decide (word < (view b).addr)) = true)) : Except Fault Bool) := by
    intro i lower
    have insideI : i.toNat < arr.length := (UInt32.lt_iff_toNat_lt.mp lower).trans inside
    rw [element_ok visible array insideI]
    simp only [Except.map, shown, List.getElem?_eq_getElem insideI, Option.any_some, decide_eq_true_eq]
    exact congrArg Except.ok (decide_eq_decide.mpr Iff.rfl)
  have ended : arr[last.toNat]?.any (fun b => decide (word < (view b).addr)) = true := by
    simpa [List.getElem?_eq_getElem inside] using ends
  obtain ⟨found, ran, lower, begins, next⟩ := @bisect_ok _ _ Fault.outOfFuel
    (fun i => arr[i]?.any (fun b => decide (word < (view b).addr)) = true) _ fuel first last compared
    fits (UInt32.lt_iff_toNat_lt.mpr less) ended enough
  have lowerNat := UInt32.lt_iff_toNat_lt.mp lower
  have insideFound : found.toNat < arr.length := by omega
  refine ⟨found, by rw [findBlockLoop_eq_bisect, ran], by omega, ?_, ?_⟩
  · rcases begins with rfl | fails
    · exact starts
    · simpa [List.getElem?_eq_getElem insideFound] using fails
  · simpa [List.getElem?_eq_getElem (show found.toNat + 1 < arr.length by omega)] using next

/-- `len - 1`, where there is a last element. -/
theorem last_eq (nonempty : 0 < arr.length) (counted : arr.length < 2 ^ 32) :
    UInt32.ofNat arr.length ≠ 0 ∧ (UInt32.ofNat arr.length - 1).toNat = arr.length - 1 := by
  have length : (UInt32.ofNat arr.length).toNat = arr.length := by rw [UInt32.toNat_ofNat']; omega
  have one : (1 : UInt32).toNat = 1 := rfl
  refine ⟨fun zero => ?_, ?_⟩
  · rw [zero] at length
    exact absurd length (Nat.ne_of_lt nonempty)
  · rw [UInt32.toNat_sub_of_le _ _ (by rw [UInt32.le_iff_toNat_le, one, length]; exact nonempty), length, one]

/-- An address between two blocks tells them apart. -/
theorem pos_of_between {last : ℕ} {insideFirst : 0 < arr.length} {insideLast : last < arr.length} {word : Addr}
    (low : ¬ word < (view arr[0]).addr) (high : word < (view arr[last]).addr) : 0 < last := by
  rcases Nat.eq_zero_or_pos last with rfl | several
  · exact absurd high low
  · exact several

theorem findBlock_last (sorted : Sorted view arr) (fits : arr.length ≤ 2 ^ 31 + 1)
    (visible : Shows view known marked blocks) (array : ∀ b ∈ arr, b ∈ known) {fuel : ℕ}
    (enough : arr.length ≤ fuel) (word : Addr) :
    findBlock fuel blocks arr word = .ok (lookupLast view arr word) := by
  rw [findBlock]
  rcases Nat.eq_zero_or_pos arr.length with empty | positive
  · rw [List.eq_nil_of_length_eq_zero empty]
    rfl
  · obtain ⟨nonempty, last⟩ := last_eq positive (show arr.length < 2 ^ 32 by omega)
    have insideLast : (UInt32.ofNat arr.length - 1).toNat < arr.length := by omega
    have insideFirst : (0 : UInt32).toNat < arr.length := positive
    rw [if_neg nonempty]
    simp only [element_ok visible array insideFirst, ok_bind]
    by_cases low : word < (view arr[(0 : UInt32).toNat]).addr
    · simp only [shown, low, if_true]
      rw [lookupLast_eq_none]
      intro b member
      obtain ⟨i, inside, rfl⟩ := List.getElem_of_mem member
      exact UInt64.lt_of_lt_of_le low (sorted.addr_le (Nat.zero_le i) inside)
    · simp only [shown, low, if_false, element_ok visible array insideLast, ok_bind]
      by_cases high : word < (view arr[(UInt32.ofNat arr.length - 1).toNat]).addr
      · simp only [high, if_true]
        have several : (0 : UInt32).toNat < (UInt32.ofNat arr.length - 1).toNat := pos_of_between low high
        obtain ⟨found, ran, after, starts, ends⟩ := findBlockLoop_ok visible array (show _ ≤ 2 ^ 31 by omega) several
          insideLast (UInt64.not_lt.mp low) high (show _ ≤ fuel by omega)
        rw [ran, ok_bind, within_ok sorted visible array (Nat.lt_of_succ_lt after) starts fun _ => ends]
      · simp only [high, if_false]
        exact within_ok sorted visible array insideLast (UInt64.not_lt.mp high) (by omega)

end Search

/-! ## Marking -/

/-- The words of a block, those that `scan_block_contents` looks at. -/
def words (target : Target) (block : Block) : List Addr :=
  (List.range (block.size.toNat / sizeofPointer)).map fun i => (target.peekData (wordAddr block i)).getD 0

/-- The blocks that are found for the words of block `b`. -/
def successors (target : Target) (view : BlockId → Block) (find : Addr → Option BlockId) (b : BlockId) : List BlockId :=
  (words target (view b)).filterMap find

/-- `block_list` and the marks of the store, as a state of the abstract marking. -/
structure Simulates (view : BlockId → Block) (known : List BlockId) (marking : Worklist.Marking BlockId)
    (list : BlockList) : Prop where
  pending : list.2 = marking.pending
  visible : Shows view known marking.marked list.1
  known : ∀ b ∈ marking.pending, b ∈ known

/-- The search returns what `find` says, which is never a root. -/
structure Searches (search : ℕ) (view : BlockId → Block) (known arr : List BlockId) (find : Addr → Option BlockId) :
    Prop where
  ran : ∀ {marked blocks}, Shows view known marked blocks → ∀ word, findBlock search blocks arr word = .ok (find word)
  known : ∀ {word b}, find word = some b → b ∈ known
  plain : ∀ {word b}, find word = some b → (view b).flags = {}

section Marking

variable {view : BlockId → Block} {arr known : List BlockId} {target : Target} {search : ℕ}
  {find : Addr → Option BlockId}

theorem searches_last (ascending : Ascending view arr) (array : ∀ b ∈ arr, b ∈ known)
    (plain : ∀ b ∈ arr, (view b).flags = {}) (enough : arr.length ≤ search) :
    Searches search view known arr (lookupLast view arr) where
  ran visible word := findBlock_last ascending.sorted (by have := ascending.fits; omega) visible array enough word
  known found := array _ (lookupLast_mem found)
  plain found := plain _ (lookupLast_mem found)

theorem Shows.mark {marked : Finset BlockId} {blocks : Store Block} (visible : Shows view known marked blocks)
    {b : BlockId} (member : b ∈ known) :
    Shows view known (insert b marked) (blocks.put b (shown view (insert b marked) b)) := by
  intro c memberC
  rw [Store.get_put (Store.lt_size_of_get (visible b member))]
  split
  next same => rw [same]
  next other => rw [visible c memberC]; simp [shown, other]

/-- One word: the block it points into, if any, is pushed. -/
theorem scanWord_ok (searches : Searches search view known arr find) {marking : Worklist.Marking BlockId}
    {list : BlockList} (simulates : Simulates view known marking list) {mem : List Addr} {i : ℕ} {word : Addr}
    (read : mem[i]? = some word) :
    ∃ later, scanWord search arr mem list i = .ok later ∧
      Simulates view known ((find word).toList.foldl Worklist.Marking.push marking) later := by
  rw [scanWord, read]
  simp only [searches.ran simulates.visible word, ok_bind]
  cases found : find word with
  | none => exact ⟨list, rfl, simulates⟩
  | some b =>
    have member := searches.known found
    have plain := searches.plain found
    have isRoot : (shown view marking.marked b).flags.isRoot = false := by rw [shown, plain]
    simp only [deref, simulates.visible b member, ok_bind, isRoot, Option.toList_some, List.foldl_cons, List.foldl_nil]
    by_cases marked : b ∈ marking.marked
    · refine ⟨list, by simp [shown, marked], ?_⟩
      rwa [Worklist.Marking.push, if_pos marked]
    · rw [Worklist.Marking.push, if_neg marked]
      refine ⟨(list.1.put b (shown view (insert b marking.marked) b), b :: list.2), by simp [shown, marked, plain], ?_⟩
      refine ⟨by rw [simulates.pending], simulates.visible.mark member, ?_⟩
      intro c pending
      rcases List.mem_cons.mp pending with rfl | old
      · exact member
      · exact simulates.known c old

/-- The words at `indexes`, in order, when each of them is looked at as it should be. -/
theorem foldlM_pushes {step : BlockList → ℕ → Except Fault BlockList} (indexes : List ℕ) (content : ℕ → Addr)
    (each : ∀ i ∈ indexes, ∀ {marking list}, Simulates view known marking list → ∃ later, step list i = .ok later ∧
      Simulates view known ((find (content i)).toList.foldl Worklist.Marking.push marking) later)
    {marking : Worklist.Marking BlockId} {list : BlockList} (simulates : Simulates view known marking list) :
    ∃ later, indexes.foldlM step list = .ok later ∧ Simulates view known
      (((indexes.map content).filterMap find).foldl Worklist.Marking.push marking) later := by
  induction indexes generalizing marking list with
  | nil => exact ⟨list, rfl, simulates⟩
  | cons i indexes inductionHypothesis =>
    obtain ⟨scanned, ran, simulatesScanned⟩ := each i (by simp) simulates
    obtain ⟨later, ranRest, simulatesLater⟩ :=
      inductionHypothesis (fun j member => each j (by simp [member])) simulatesScanned
    refine ⟨later, by rw [List.foldlM_cons, ran, ok_bind, ranRest], ?_⟩
    rw [List.map_cons, List.filterMap_cons]
    cases found : find (content i) <;> simpa [found] using simulatesLater

theorem readBlock_ok (readable : ∀ addr, (target.peekData addr).isSome = true) (block : Block) :
    readBlock target block =
      some ((List.range ((block.size + 3) / 4).toNat).map fun i => (target.peekData (wordAddr block i)).getD 0) := by
  have total : target.peekData = fun addr => some ((target.peekData addr).getD 0) := by
    funext addr
    obtain ⟨word, read⟩ := Option.isSome_iff_exists.mp (readable addr)
    rw [read]
    rfl
  rw [readBlock, total]
  exact List.mapM_pure

theorem toNat_read {block : Block} (small : block.size.toNat < 2 ^ 32 - 3) :
    ((block.size + 3) / 4).toNat = (block.size.toNat + 3) / 4 := by
  have three : (3 : UInt32).toNat = 3 := rfl
  have four : (4 : UInt32).toNat = 4 := rfl
  rw [UInt32.toNat_div, UInt32.toNat_add, three, four, Nat.mod_eq_of_lt (by omega)]

/-- The sum wraps, and nothing is read of the largest blocks. -/
theorem toNat_read_eq_zero {block : Block} (large : 2 ^ 32 - 3 ≤ block.size.toNat) :
    ((block.size + 3) / 4).toNat = 0 := by
  have three : (3 : UInt32).toNat = 3 := rfl
  have four : (4 : UInt32).toNat = 4 := rfl
  have fits := block.size.toNat_lt
  rw [UInt32.toNat_div, UInt32.toNat_add, three, four]
  omega

theorem scanBlock_ok (searches : Searches search view known arr find)
    (readable : ∀ addr, (target.peekData addr).isSome = true) {marking : Worklist.Marking BlockId} {list : BlockList}
    (simulates : Simulates view known marking list) {b : BlockId} (member : b ∈ known)
    (small : (view b).size.toNat < 2 ^ 32 - 3) :
    ∃ later, scanBlock search target arr list b = .ok later ∧
      Simulates view known ((successors target view find b).foldl Worklist.Marking.push marking) later := by
  rw [scanBlock, deref, simulates.visible b member]
  simp only [ok_bind, readBlock_ok readable, scanBlockContents]
  refine foldlM_pushes _ (fun i => (target.peekData (wordAddr (view b) i)).getD 0) ?_ simulates
  intro i inside marking list simulates
  refine scanWord_ok searches simulates ?_
  -- The words read are enough.
  have inside : i < (view b).size.toNat / sizeofPointer := List.mem_range.mp inside
  have read : i < (((view b).size + 3) / 4).toNat := by
    rw [toNat_read small]
    unfold sizeofPointer at inside
    omega
  rw [List.getElem?_map, List.getElem?_range (by exact read)]
  rfl

/-- Of the largest blocks the first word is not there. -/
theorem scanBlock_small (readable : ∀ addr, (target.peekData addr).isSome = true) {marking : Worklist.Marking BlockId}
    {list later : BlockList} (simulates : Simulates view known marking list) {b : BlockId} (member : b ∈ known)
    (ran : scanBlock search target arr list b = .ok later) : (view b).size.toNat < 2 ^ 32 - 3 := by
  by_contra large
  rw [not_lt] at large
  rw [scanBlock, deref, simulates.visible b member] at ran
  simp only [ok_bind, readBlock_ok readable, scanBlockContents] at ran
  have none : ((shown view marking.marked b).size + 3) / 4 = ((view b).size + 3) / 4 := rfl
  rw [none, toNat_read_eq_zero large] at ran
  obtain ⟨n, several⟩ : ∃ n, (shown view marking.marked b).size.toNat / sizeofPointer = n + 1 := by
    refine Nat.exists_eq_succ_of_ne_zero ?_
    change (view b).size.toNat / 8 ≠ 0
    omega
  rw [several, List.range_succ_eq_map, List.foldlM_cons] at ran
  cases ran

section Fuel

variable {search' : ℕ} (more : search ≤ search')

include more

theorem findBlock_fuel (blocks : Store Block) (arr : List BlockId) (word : Addr) :
    Covers (findBlock search blocks arr word) (findBlock search' blocks arr word) := by
  unfold findBlock
  split
  · exact .refl _
  · refine .bind (.refl _) fun ⟨_, lowest⟩ => ?_
    dsimp only
    split
    · exact .refl _
    · refine .bind (.refl _) fun ⟨_, highest⟩ => ?_
      dsimp only
      split
      · refine .bind (fun found ran => ?_) fun _ => .refl _
        rw [findBlockLoop_eq_bisect] at ran ⊢
        exact bisect_fuel more ran
      · exact .refl _

theorem scanBlock_fuel (target : Target) (arr : List BlockId) (list : BlockList) (b : BlockId) :
    Covers (scanBlock search target arr list b) (scanBlock search' target arr list b) := by
  unfold scanBlock
  refine .bind (.refl _) fun block => ?_
  split
  · exact .refl _
  · refine .foldlM (fun list i => ?_) _ list
    unfold scanWord
    split
    · exact .refl _
    · exact .bind (findBlock_fuel more _ _ _) fun _ => .refl _

/-- More fuel changes nothing once the marking has ended. -/
theorem leaksMark_fuel (target : Target) (arr : List BlockId) (fuel : ℕ) (list : BlockList) :
    Covers (leaksMark search target arr fuel list) (leaksMark search' target arr fuel list) := by
  induction fuel generalizing list with
  | zero => exact .refl _
  | succ fuel inductionHypothesis =>
    obtain ⟨blocks, pending⟩ := list
    cases pending with
    | nil => exact .refl _
    | cons b pending => exact .bind (scanBlock_fuel more target arr _ b) inductionHypothesis

end Fuel

/-- The loop over `block_list` is the abstract marking. -/
theorem leaksMark_ok (searches : Searches search view known arr find)
    (readable : ∀ addr, (target.peekData addr).isSome = true) {fuel : ℕ} {marking : Worklist.Marking BlockId}
    {list : BlockList} (simulates : Simulates view known marking list) {marked : Finset BlockId}
    (finished : Worklist.mark (successors target view find) fuel marking = some marked)
    (small : ∀ b, b ∈ marking.pending ∨ b ∈ marked → (view b).size.toNat < 2 ^ 32 - 3) :
    ∃ blocks, leaksMark search target arr fuel list = .ok blocks ∧ Shows view known marked blocks := by
  induction fuel generalizing marking list with
  | zero => cases finished
  | succ fuel inductionHypothesis =>
    obtain ⟨pending, before⟩ := marking
    obtain ⟨blocks, waiting⟩ := list
    obtain ⟨rfl, visible, pendingKnown⟩ := simulates
    cases waiting with
    | nil =>
      cases finished
      exact ⟨blocks, rfl, visible⟩
    | cons b waiting =>
      have member := pendingKnown b (by simp)
      have simulates : Simulates view known ⟨waiting, before⟩ (blocks, waiting) :=
        ⟨rfl, visible, fun c pending => pendingKnown c (by simp [pending])⟩
      obtain ⟨scanned, ran, simulates⟩ := scanBlock_ok searches readable simulates member (small b (.inl (by simp)))
      have finished : Worklist.mark (successors target view find) fuel
          ((successors target view find b).foldl Worklist.Marking.push ⟨waiting, before⟩) = some marked := finished
      have keeps : ∀ c, c ∈ ((successors target view find b).foldl Worklist.Marking.push ⟨waiting, before⟩).pending ∨
          c ∈ marked → (view c).size.toNat < 2 ^ 32 - 3 := by
        rintro c (waits | isMarked)
        · rcases (Worklist.mem_pending_foldl_push _ _ c).mp waits with old | ⟨pushed, _⟩
          · exact small c (.inl (by simp [old]))
          · refine small c (.inr (Worklist.subset_mark finished ?_))
            rw [Worklist.marked_foldl_push]
            exact Finset.mem_union_right _ (List.mem_toFinset.mpr pushed)
        · exact small c (.inr isMarked)
      obtain ⟨marks, ranRest, visibleLater⟩ := inductionHypothesis simulates finished keeps
      exact ⟨marks, by rw [leaksMark, ran, ok_bind, ranRest], visibleLater⟩

/-- The loop ends only where the abstract marking does, and has then read every block. -/
theorem leaksMark_inv (searches : Searches search view known arr find)
    (readable : ∀ addr, (target.peekData addr).isSome = true) {fuel : ℕ} {marking : Worklist.Marking BlockId}
    {list : BlockList} (simulates : Simulates view known marking list) {blocks : Store Block}
    (ran : leaksMark search target arr fuel list = .ok blocks) :
    ∃ marked, Worklist.mark (successors target view find) fuel marking = some marked ∧ Shows view known marked blocks ∧
      ∀ b, b ∈ marking.pending ∨ b ∈ marked ∧ b ∉ marking.marked → (view b).size.toNat < 2 ^ 32 - 3 := by
  induction fuel generalizing marking list with
  | zero => cases ran
  | succ fuel inductionHypothesis =>
    obtain ⟨pending, before⟩ := marking
    obtain ⟨store, waiting⟩ := list
    obtain ⟨rfl, visible, pendingKnown⟩ := simulates
    cases waiting with
    | nil =>
      cases ran
      exact ⟨before, rfl, visible, by simp⟩
    | cons b waiting =>
      obtain ⟨list, scanned, ranRest⟩ := ok_of_bind ran
      have member := pendingKnown b (by simp)
      have simulates : Simulates view known ⟨waiting, before⟩ (store, waiting) :=
        ⟨rfl, visible, fun c pending => pendingKnown c (by simp [pending])⟩
      have fits := scanBlock_small readable simulates member scanned
      obtain ⟨list', scanned', simulates⟩ := scanBlock_ok searches readable simulates member fits
      rw [scanned] at scanned'
      cases scanned'
      obtain ⟨marked, finished, visibleLater, small⟩ := inductionHypothesis simulates ranRest
      refine ⟨marked, finished, visibleLater, ?_⟩
      rintro c (waits | ⟨isMarked, unmarked⟩)
      · rcases List.mem_cons.mp waits with rfl | waits
        · exact fits
        · exact small c (.inl ((Worklist.mem_pending_foldl_push _ _ c).mpr (.inl waits)))
      · by_cases pushed : c ∈ successors target view find b
        · exact small c (.inl ((Worklist.mem_pending_foldl_push _ _ c).mpr (.inr ⟨pushed, unmarked⟩)))
        · refine small c (.inr ⟨isMarked, ?_⟩)
          rw [Worklist.marked_foldl_push, Finset.mem_union, List.mem_toFinset]
          exact not_or.mpr ⟨unmarked, pushed⟩

end Marking

end Memprof.Leaks
