import Memprof.Verified.Leaks

/-! # The search for a block

`find_block` finds the one block an address lies in as long as the array has no more than
`2 ^ 31 + 1` blocks.  In a longer one the sum of two indexes wraps on the way to a block near
the end, and the loop never gets there.
-/

namespace Memprof.Leaks

open Library

/-- The loop of `find_block`, with an assertion that neither `last - 1` nor `first + last` wraps. -/
def findBlockLoopAsserted (blocks : Store Block) (arr : List BlockId) (addr : Addr) :
    ℕ → UInt32 → UInt32 → Except Fault UInt32
  | 0, _, _ => .error .outOfFuel
  | fuel + 1, first, last =>
    if last = 0 then .error .assertion
    else if first < last - 1 then
      if 2 ^ 32 ≤ first.toNat + last.toNat then .error .assertion
      else do
        let middle := (first + last) / 2
        let (_, block) ← element blocks arr middle
        if addr < block.addr then findBlockLoopAsserted blocks arr addr fuel first middle
        else findBlockLoopAsserted blocks arr addr fuel middle last
    else .ok first

/-- `find_block` with the asserted loop; `len - 1` is computed for a `len` above `0` only. -/
def findBlockAsserted (fuel : ℕ) (blocks : Store Block) (arr : List BlockId) (addr : Addr) :
    Except Fault (Option BlockId) :=
  if UInt32.ofNat arr.length = 0 then .ok none
  else do
    let last := UInt32.ofNat arr.length - 1
    let (_, lowest) ← element blocks arr 0
    if addr < lowest.addr then .ok none
    else
      let (_, highest) ← element blocks arr last
      if addr < highest.addr then
        let first ← findBlockLoopAsserted blocks arr addr fuel 0 last
        within blocks arr addr first
      else within blocks arr addr last

/-- An array of blocks that lie apart; its `len` is a `guint`. -/
structure Apart (view : BlockId → Block) (arr : List BlockId) : Prop where
  counted : arr.length < 2 ^ 32
  before : arr.IsChain fun b c => Before (view b) (view c)
  bounded : ∀ b ∈ arr, (view b).addr.toNat + (view b).size.toNat < 2 ^ 64

/-- The search ends, no index wraps or leaves the array, and it finds the block that the address
lies in, or none. -/
def FindsBlock (view : BlockId → Block) (blocks : Store Block) (arr : List BlockId) (addr : Addr) : Prop :=
  ∃ found enough, (∀ fuel ≥ enough, findBlock fuel blocks arr addr = .ok found ∧
      findBlockAsserted fuel blocks arr addr = .ok found) ∧
    ∀ b, found = some b ↔ b ∈ arr ∧ Contains (view b) addr

section Search

variable {view : BlockId → Block} {blocks : Store Block} {arr : List BlockId}

theorem Apart.pairwise (apart : Apart view arr) : arr.Pairwise fun b c => Before (view b) (view c) := by
  have trans : Trans (fun b c => Before (view b) (view c)) (fun b c => Before (view b) (view c))
      (fun b c => Before (view b) (view c)) := ⟨Before.trans⟩
  exact List.isChain_iff_pairwise.mp apart.before

theorem Apart.sorted (apart : Apart view arr) : Sorted view arr := apart.pairwise.imp And.left

theorem Apart.extent (apart : Apart view arr) {b : BlockId} (member : b ∈ arr) {addr : Addr} :
    addr < (view b).addr + (view b).size.toUInt64 ↔ addr.toNat < (view b).addr.toNat + (view b).size.toNat := by
  rw [UInt64.lt_iff_toNat_lt, UInt64.toNat_add, UInt32.toNat_toUInt64, Nat.mod_eq_of_lt (apart.bounded b member)]

/-- The last block that starts at or below an address is the only one it may lie in. -/
theorem Apart.lookupLast_iff (apart : Apart view arr) {addr : Addr} {b : BlockId} :
    lookupLast view arr addr = some b ↔ b ∈ arr ∧ Contains (view b) addr := by
  rw [lookupLast_eq_some_iff apart.sorted]
  constructor
  · rintro ⟨member, starts, ends, _⟩
    exact ⟨member, starts, (apart.extent member).mp ends⟩
  · rintro ⟨member, starts, ends⟩
    refine ⟨member, starts, (apart.extent member).mpr ends, fun c memberC startsC => ?_⟩
    by_contra higher
    -- A block that starts behind this one starts behind its end.
    obtain ⟨i, inside, rfl⟩ := List.getElem_of_mem member
    obtain ⟨j, insideJ, rfl⟩ := List.getElem_of_mem memberC
    have behind : i < j := by
      by_contra ahead
      exact higher (apart.sorted.addr_le (Nat.le_of_not_lt ahead) inside)
    have := (List.pairwise_iff_getElem.mp apart.pairwise i j inside insideJ behind).2
    have := UInt64.le_iff_toNat_le.mp startsC
    omega

/-- The blocks are shown with the marks that they have. -/
theorem shows_marks (visible : ∀ b ∈ arr, blocks.get b = some (view b)) :
    Shows view arr (arr.toFinset.filter fun b => (view b).flags.marked = true) blocks := by
  intro b member
  have same : decide (b ∈ arr.toFinset.filter fun b => (view b).flags.marked = true) = (view b).flags.marked := by
    simp [member]
  rw [visible b member, shown, same]

/-- Up to `2 ^ 31` nothing wraps. -/
theorem findBlockLoopAsserted_eq (addr : Addr) {fuel : ℕ} {first last : UInt32} (fits : last.toNat ≤ 2 ^ 31)
    (less : first.toNat < last.toNat) :
    findBlockLoopAsserted blocks arr addr fuel first last = findBlockLoop blocks arr addr fuel first last := by
  induction fuel generalizing first last with
  | zero => rfl
  | succ fuel inductionHypothesis =>
    have positive : last ≠ 0 := by
      rintro rfl
      exact Nat.not_lt_zero _ less
    have small : ¬ 2 ^ 32 ≤ first.toNat + last.toNat := by omega
    rw [findBlockLoopAsserted, findBlockLoop, if_neg positive]
    by_cases apart : first < last - 1
    · have wide := (lt_pred_iff (Nat.zero_lt_of_lt less)).mp apart
      have middle := middle_eq fits less
      have lower := @inductionHypothesis first ((first + last) / 2) (by omega) (by omega)
      have upper := @inductionHypothesis ((first + last) / 2) last fits (by omega)
      simp only [if_pos apart, if_neg small, lower, upper]
    · simp only [if_neg apart]

theorem findBlockAsserted_eq (visible : ∀ b ∈ arr, blocks.get b = some (view b)) (short : arr.length ≤ 2 ^ 31 + 1)
    (addr : Addr) (fuel : ℕ) : findBlockAsserted fuel blocks arr addr = findBlock fuel blocks arr addr := by
  rw [findBlockAsserted, findBlock]
  rcases Nat.eq_zero_or_pos arr.length with empty | positive
  · rw [if_pos (by rw [empty]; rfl), if_pos (by rw [empty]; rfl)]
  · obtain ⟨nonempty, last⟩ := last_eq positive (by omega)
    rw [if_neg nonempty, if_neg nonempty]
    have insideFirst : (0 : UInt32).toNat < arr.length := positive
    have insideLast : (UInt32.ofNat arr.length - 1).toNat < arr.length := by omega
    simp only [element_ok (shows_marks visible) (fun _ => id) insideFirst,
      element_ok (shows_marks visible) (fun _ => id) insideLast, ok_bind]
    split
    · rfl
    · split
      next low high =>
        have several : (0 : UInt32).toNat < (UInt32.ofNat arr.length - 1).toNat := pos_of_between low high
        rw [findBlockLoopAsserted_eq addr (by omega) several]
      · rfl

/-- In a longer array the loop goes on for ever on its way to the last block but one. -/
theorem findBlock_endless (apart : Apart view arr) (visible : ∀ b ∈ arr, blocks.get b = some (view b))
    (long : 2 ^ 31 + 1 < arr.length) {b : BlockId} (near : arr[arr.length - 2]? = some b) (fuel : ℕ) :
    findBlock fuel blocks arr (view b).addr = .error .outOfFuel := by
  obtain ⟨nonempty, last⟩ := last_eq (Nat.zero_lt_of_lt long) apart.counted
  obtain ⟨insideB, rfl⟩ := List.getElem?_eq_some_iff.mp near
  have shows := shows_marks visible
  have insideFirst : (0 : UInt32).toNat < arr.length := Nat.zero_lt_of_lt long
  have insideLast : (UInt32.ofNat arr.length - 1).toNat < arr.length := by omega
  have notBelow : ¬ (view arr[arr.length - 2]).addr < (view arr[(0 : UInt32).toNat]).addr :=
    UInt64.not_lt.mpr (apart.sorted.addr_le (Nat.zero_le _) insideB)
  have below : (view arr[arr.length - 2]).addr < (view arr[(UInt32.ofNat arr.length - 1).toNat]).addr :=
    apart.sorted.addr_lt (by omega) insideLast
  have upwards : ∀ i : UInt32, i.toNat < 2 ^ 31 →
      (element blocks arr i).map (fun found => decide ((view arr[arr.length - 2]).addr < found.2.addr)) = .ok false := by
    intro i low
    have inside : i.toNat < arr.length := by omega
    have lower : ¬ (view arr[arr.length - 2]).addr < (view arr[i.toNat]).addr :=
      UInt64.not_lt.mpr (apart.sorted.addr_le (by omega) insideB)
    rw [element_ok shows (fun _ => id) inside]
    exact congrArg Except.ok (decide_eq_false lower)
  rw [findBlock, if_neg nonempty]
  simp only [element_ok shows (fun _ => id) insideFirst, element_ok shows (fun _ => id) insideLast, ok_bind, shown,
    if_neg notBelow, if_pos below, findBlockLoop_eq_bisect]
  rw [bisect_endless upwards (by omega) (by decide)]
  rfl

/-- The search does what it should for every address exactly when no sum of two indexes can wrap. -/
theorem findBlock_correct_iff (apart : Apart view arr) (visible : ∀ b ∈ arr, blocks.get b = some (view b)) :
    (∀ addr, FindsBlock view blocks arr addr) ↔ arr.length ≤ 2 ^ 31 + 1 := by
  constructor
  · intro finds
    by_contra long
    obtain ⟨b, near⟩ : ∃ b, arr[arr.length - 2]? = some b := ⟨_, List.getElem?_eq_getElem (by omega)⟩
    obtain ⟨found, enough, returned, _⟩ := finds (view b).addr
    have endless := findBlock_endless apart visible (Nat.lt_of_not_le long) near enough
    rw [(returned enough (Nat.le_refl _)).1] at endless
    cases endless
  · intro short addr
    refine ⟨lookupLast view arr addr, arr.length, fun fuel enough => ?_, fun b => apart.lookupLast_iff⟩
    rw [findBlockAsserted_eq visible short]
    exact and_self_iff.mpr (findBlock_last apart.sorted short (shows_marks visible) (fun _ => id) enough addr)

end Search

/-! ## Rows of blocks -/

/-- The block of one byte at the multiple of sixteen after `16 * i`. -/
def rowBlock (i : BlockId) : Block := { addr := .ofNat (16 * (i + 1)), size := 1, stack := none }

def row (length : ℕ) : Store Block := ⟨(List.range length).map fun i => some (rowBlock i)⟩

theorem row_visible (length : ℕ) : ∀ b ∈ List.range length, (row length).get b = some (rowBlock b) := by
  intro b member
  have inside := List.mem_range.mp member
  simp [Store.get, row, inside]

theorem row_apart {length : ℕ} (counted : length < 2 ^ 32) : Apart rowBlock (List.range length) := by
  have addr : ∀ {i}, i < length → (rowBlock i).addr.toNat = 16 * (i + 1) := by
    intro i inside
    rw [rowBlock, UInt64.toNat_ofNat']
    omega
  have size : ∀ i, (rowBlock i).size.toNat = 1 := fun _ => rfl
  refine ⟨by rwa [List.length_range], ?_, fun b member => ?_⟩
  · refine List.isChain_iff_getElem.mpr fun i inside => ?_
    rw [List.length_range] at inside
    have here := addr (Nat.lt_of_succ_lt inside)
    have there := addr inside
    rw [List.getElem_range, List.getElem_range, Before, UInt64.lt_iff_toNat_lt, here, there, size]
    omega
  · rw [addr (List.mem_range.mp member), size]
    have := List.mem_range.mp member
    omega

theorem findBlock_correct_iff_row :
    Apart rowBlock (List.range 3) ∧ (∀ b ∈ List.range 3, (row 3).get b = some (rowBlock b)) ∧
      ((∀ addr, FindsBlock rowBlock (row 3) (List.range 3) addr) ↔ (List.range 3).length ≤ 2 ^ 31 + 1) :=
  ⟨row_apart (by decide), row_visible 3, findBlock_correct_iff (row_apart (by decide)) (row_visible 3)⟩

/-- The last block but one of a row of `2 ^ 31 + 2`. -/
theorem not_findsBlock_row : ¬ FindsBlock rowBlock (row (2 ^ 31 + 2)) (List.range (2 ^ 31 + 2))
    (rowBlock (2 ^ 31)).addr := by
  obtain ⟨length, spelled⟩ : ∃ length, length = 2 ^ 31 + 2 := ⟨_, rfl⟩
  rw [← spelled]
  rintro ⟨found, enough, returned, _⟩
  have near : (List.range length)[(List.range length).length - 2]? = some (2 ^ 31) := by
    rw [List.length_range, List.getElem?_range (by omega), spelled, Nat.add_sub_cancel]
  have endless := findBlock_endless (row_apart (by omega)) (row_visible length) (by rw [List.length_range]; omega) near enough
  rw [(returned enough (Nat.le_refl _)).1] at endless
  cases endless

end Memprof.Leaks
