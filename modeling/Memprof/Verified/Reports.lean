import Memprof.Verified.Accounting
import Memprof.Verified.Leaks
import Memprof.Windows

/-! # Blocks that leak reports hold

A leak report holds a reference to each of its blocks, next to the references of the
tables.  What a reset of a window discards without letting go is counted as lost, so that
the counts stay exact over any run.
-/

namespace Memprof.Reports

open Library Blocks Delivery Accounting

/-! ## What `leaks_find` does to the counts -/

/-- The counts move by `change`; blocks that survive keep their address and stay roots if
they are. -/
structure Changes (blocks : Store Block) (change : BlockId → ℤ) (later : Store Block) : Prop where
  size : blocks.size ≤ later.size
  refs : ∀ b, later.refs b = blocks.refs b + change b
  alike : ∀ b block', later.get b = some block' → b < blocks.size →
    ∃ block, blocks.get b = some block ∧ block'.addr = block.addr ∧ block'.flags.isRoot = block.flags.isRoot
  positive : blocks.Positive → later.Positive

theorem Changes.refl (blocks : Store Block) : Changes blocks (fun _ => 0) blocks :=
  ⟨Nat.le_refl _, fun _ => (add_zero _).symm, fun _ block live _ => ⟨block, live, rfl, rfl⟩, id⟩

theorem Changes.trans {first second third : Store Block} {f g : BlockId → ℤ} (left : Changes first f second)
    (right : Changes second g third) : Changes first (fun b => f b + g b) third where
  size := left.size.trans right.size
  refs b := by rw [right.refs, left.refs, add_assoc]
  alike b block'' live inside := by
    obtain ⟨block', live', addr', isRoot'⟩ := right.alike b block'' live (Nat.lt_of_lt_of_le inside left.size)
    obtain ⟨block, held, addr, isRoot⟩ := left.alike b block' live' inside
    exact ⟨block, held, addr'.trans addr, isRoot'.trans isRoot⟩
  positive := right.positive ∘ left.positive

theorem Changes.congr {blocks later : Store Block} {f g : BlockId → ℤ} (changes : Changes blocks f later)
    (same : ∀ b, f b = g b) : Changes blocks g later :=
  ⟨changes.size, fun b => by rw [changes.refs, same], changes.alike, changes.positive⟩

theorem changes_of_exchanges {blocks later : Store Block} {before after : List BlockId}
    (exchange : blocks.Exchanges before after later) :
    Changes blocks (fun b => (after.count b : ℤ) - before.count b) later where
  size := exchange.size
  refs b := by
    have moved := exchange.refs b
    omega
  alike b block' live inside := by
    obtain ⟨block, n, held, rfl⟩ := exchange.same b block' live inside
    exact ⟨block, held, rfl, rfl⟩
  positive := exchange.positive

/-- A block is replaced by one at the same address. -/
theorem changes_put {blocks : Store Block} {b : BlockId} {block block' : Block} (live : blocks.get b = some block)
    (addr : block'.addr = block.addr) (isRoot : block'.flags.isRoot = block.flags.isRoot)
    (positive : 0 < block.refcount → 0 < block'.refcount) :
    Changes blocks (fun c => if c = b then block'.refcount - block.refcount else 0) (blocks.put b block') where
  size := by simp
  refs c := by
    rw [Store.refs_put (Store.lt_size_of_get live)]
    split
    next same =>
      rw [same, Store.refs_of_get live, refs_block, refs_block]
      omega
    next => simp
  alike c other held _ := by
    rw [Store.get_put (Store.lt_size_of_get live)] at held
    split at held
    next same =>
      cases held
      exact ⟨block, same ▸ live, addr, isRoot⟩
    next => exact ⟨other, held, rfl, rfl⟩
  positive before c other held := by
    rw [Store.get_put (Store.lt_size_of_get live)] at held
    split at held
    next =>
      cases held
      exact positive (before b block live)
    next => exact before c other held

/-- The only fault that is not admitted. -/
abbrev NotFreed (fault : Fault) : Prop := fault ≠ .useAfterFree

theorem deref_ensures {blocks : Store Block} {b : BlockId} (referenced : 0 < blocks.refs b) :
    Ensures NotFreed (deref blocks b) fun block => blocks.get b = some block := by
  obtain ⟨block, live⟩ := Store.exists_get_of_refs_pos referenced
  have ran : deref blocks b = .ok block := by rw [deref, live]
  rw [ran]
  exact live

/-- The array takes a reference to each of its blocks. -/
theorem prepare_ensures {ids : List BlockId} {blocks : Store Block} (referenced : ∀ b ∈ ids, 0 < blocks.refs b)
    (arr : List BlockId) : Ensures NotFreed (ids.foldlM prepareBlock (blocks, arr)) fun later =>
      later.2 = arr ++ ids ∧ Changes blocks (fun b => (ids.count b : ℤ)) later.1 := by
  induction ids generalizing blocks arr with
  | nil => exact ⟨by simp, (Changes.refl blocks).congr fun b => by simp⟩
  | cons b ids inductionHypothesis =>
    obtain ⟨block, live⟩ := Store.exists_get_of_refs_pos (referenced b (by simp))
    rw [List.foldlM_cons, prepareBlock, deref, live]
    simp only [ok_bind]
    split
    next => exact ensures_error (by simp)
    next =>
      have taken := @changes_put blocks b block (Leaks.prepared block) live rfl rfl fun positive => by
        simp only [Leaks.prepared]
        omega
      -- References are only added, so that the blocks to come stay.
      have still : ∀ c ∈ ids, 0 < (blocks.put b (Leaks.prepared block)).refs c := by
        intro c member
        have before := referenced c (by simp [member])
        rw [taken.refs]
        split
        next => simp only [Leaks.prepared]; omega
        next => omega
      refine (inductionHypothesis still (arr ++ [b])).imp ?_
      rintro ⟨later, arr'⟩ ⟨listed, changes⟩
      refine ⟨by rw [listed, List.append_assoc, List.singleton_append], (taken.trans changes).congr fun c => ?_⟩
      rw [Store.count_cons_int]
      simp [Leaks.prepared]

/-- The roots are new blocks. -/
theorem addRoots_changes {roots : List Block} (fresh : ∀ root ∈ roots, root.refcount = 1 ∧ root.flags.isRoot = true)
    (blocks : Store Block) (list : List BlockId) :
    ∃ later ids, roots.foldl addRoot (blocks, list) = (later, ids ++ list) ∧
      Changes blocks (fun b => (ids.count b : ℤ)) later ∧ ids.Nodup ∧
      ∀ b ∈ ids, blocks.size ≤ b ∧ ∀ block, later.get b = some block → block.flags.isRoot = true := by
  induction roots generalizing blocks list with
  | nil => exact ⟨blocks, [], rfl, (Changes.refl blocks).congr fun b => by simp, List.nodup_nil, by simp⟩
  | cons root roots inductionHypothesis =>
    obtain ⟨later, ids, ran, changes, distinct, new⟩ :=
      inductionHypothesis (fun other member => fresh other (by simp [member])) (blocks.alloc root).1 (blocks.size :: list)
    obtain ⟨counted, isRoot⟩ := fresh root (by simp)
    have made := changes_of_exchanges (@Store.exchanges_alloc _ _ blocks [] root counted)
    refine ⟨later, ids ++ [blocks.size], ?_, (made.trans changes).congr fun b => ?_, ?_, fun b member => ?_⟩
    · rw [List.foldl_cons, List.append_assoc, List.singleton_append]
      exact ran
    · simp
      omega
    · rw [List.nodup_append]
      refine ⟨distinct, List.nodup_singleton _, fun b member c last same => ?_⟩
      have after := (new b member).1
      rw [Store.size_alloc, same, List.mem_singleton.mp last] at after
      omega
    · cases List.mem_append.mp member with
      | inl old => exact ⟨by have := (new b old).1; rw [Store.size_alloc] at this; omega, (new b old).2⟩
      | inr last =>
        rw [List.mem_singleton.mp last]
        refine ⟨Nat.le_refl _, fun block live => ?_⟩
        obtain ⟨original, held, _, same⟩ := changes.alike _ block live (by rw [Store.size_alloc]; omega)
        rw [Store.get_alloc, if_pos rfl, Option.some.injEq] at held
        rw [same, ← held, isRoot]

theorem sortBlocks_ensures {arr : List BlockId} {blocks : Store Block} (referenced : ∀ b ∈ arr, 0 < blocks.refs b) :
    Ensures NotFreed (sortBlocks blocks arr) fun sorted => sorted.Perm arr := by
  have held : ∀ b ∈ arr, blocks.get b = some ((blocks.get b).getD (dataRoot 0 0)) := by
    intro b member
    obtain ⟨block, live⟩ := Store.exists_get_of_refs_pos (referenced b member)
    rw [live, Option.getD_some]
  rw [Leaks.sortBlocks_eq held]
  exact Leaks.sorted_perm arr

/-! ### Marking -/

/-- While the blocks are looked into, every count is what it was. -/
structure Marking (start blocks : Store Block) (list : List BlockId) : Prop where
  changes : Changes start (fun _ => 0) blocks
  referenced : ∀ b ∈ list, 0 < start.refs b

section Mark

variable {start blocks : Store Block} {arr list : List BlockId}

theorem Marking.refs (marking : Marking start blocks list) (b : BlockId) : blocks.refs b = start.refs b := by
  rw [marking.changes.refs, add_zero]

theorem element_ensures (referenced : ∀ b ∈ arr, 0 < blocks.refs b) (i : UInt32) :
    Ensures NotFreed (element blocks arr i) fun found => found.1 ∈ arr := by
  unfold element
  split
  next => exact ensures_error (by simp)
  next b found =>
    have member : b ∈ arr := List.mem_of_getElem? found
    exact (deref_ensures (referenced b member)).bind fun _ _ => member

theorem within_ensures (referenced : ∀ b ∈ arr, 0 < blocks.refs b) (addr : Addr) (i : UInt32) :
    Ensures NotFreed (within blocks arr addr i) fun found => ∀ b ∈ found, b ∈ arr := by
  refine (element_ensures referenced i).bind ?_
  rintro ⟨b, block⟩ member
  refine ensures_ok fun c isFound => ?_
  split at isFound
  · cases isFound
    exact member
  · cases isFound

theorem findBlockLoop_ensures (referenced : ∀ b ∈ arr, 0 < blocks.refs b) (addr : Addr) (fuel : ℕ)
    (first last : UInt32) : Ensures NotFreed (findBlockLoop blocks arr addr fuel first last) fun _ => True := by
  induction fuel generalizing first last with
  | zero => exact ensures_error (by simp)
  | succ fuel inductionHypothesis =>
    rw [findBlockLoop]
    split
    · refine (element_ensures referenced _).bind ?_
      rintro ⟨b, block⟩ _
      simp only
      split
      · exact inductionHypothesis _ _
      · exact inductionHypothesis _ _
    · exact ensures_ok trivial

theorem findBlock_ensures (referenced : ∀ b ∈ arr, 0 < blocks.refs b) (fuel : ℕ) (addr : Addr) :
    Ensures NotFreed (findBlock fuel blocks arr addr) fun found => ∀ b ∈ found, b ∈ arr := by
  unfold findBlock
  split
  · exact ensures_ok (by simp)
  · refine (element_ensures referenced _).bind ?_
    rintro ⟨_, lowest⟩ _
    simp only
    split
    · exact ensures_ok (by simp)
    · refine (element_ensures referenced _).bind ?_
      rintro ⟨_, highest⟩ _
      simp only
      split
      · exact (findBlockLoop_ensures referenced addr fuel _ _).bind fun first _ => within_ensures referenced addr first
      · exact within_ensures referenced addr _

theorem scanWord_ensures (array : ∀ b ∈ arr, 0 < start.refs b) (marking : Marking start blocks list) (fuel : ℕ)
    (mem : List Addr) (i : ℕ) :
    Ensures NotFreed (scanWord fuel arr mem (blocks, list) i) fun later => Marking start later.1 later.2 := by
  have referenced : ∀ b ∈ arr, 0 < blocks.refs b := fun b member => by
    rw [marking.refs]
    exact array b member
  unfold scanWord
  split
  next => exact ensures_error (by simp)
  next word _ =>
    refine (findBlock_ensures referenced fuel word).bind fun found inArray => ?_
    cases found with
    | none => exact ensures_ok marking
    | some b =>
      refine (deref_ensures (referenced b (inArray b rfl))).bind fun block live => ?_
      split
      next => exact ensures_error (by simp)
      next =>
        split
        next => exact ensures_ok marking
        next =>
          -- A mark changes no count, and a block of the array has one.
          have marked := @changes_put blocks b block
            { block with flags := { block.flags with marked := true } } live rfl rfl id
          refine ensures_ok ⟨(marking.changes.trans marked).congr fun c => by simp, fun c member => ?_⟩
          cases List.mem_cons.mp member with
          | inl same => exact same ▸ array b (inArray b rfl)
          | inr old => exact marking.referenced c old

theorem scanBlock_ensures (array : ∀ b ∈ arr, 0 < start.refs b) {b : BlockId}
    (marking : Marking start blocks (b :: list)) (fuel : ℕ) (target : Target) :
    Ensures NotFreed (scanBlock fuel target arr (blocks, list) b) fun later => Marking start later.1 later.2 := by
  have rest : Marking start blocks list := ⟨marking.changes, fun c member => marking.referenced c (by simp [member])⟩
  have referenced : 0 < blocks.refs b := by
    rw [marking.refs]
    exact marking.referenced b (by simp)
  refine (deref_ensures referenced).bind fun block live => ?_
  split
  · exact ensures_ok rest
  · refine @ensures_foldlM _ _ _ _ _ _ (fun later : BlockList => Marking start later.1 later.2) ?_ _ rest
    rintro ⟨blocks', list'⟩ i _ marking'
    exact scanWord_ensures array marking' fuel _ i

theorem leaksMark_ensures (array : ∀ b ∈ arr, 0 < start.refs b) (marking : Marking start blocks list)
    (search fuel : ℕ) (target : Target) :
    Ensures NotFreed (leaksMark search target arr fuel (blocks, list)) fun later =>
      Changes start (fun _ => 0) later := by
  induction fuel generalizing blocks list with
  | zero => exact ensures_error (by simp)
  | succ fuel inductionHypothesis =>
    cases list with
    | nil => exact ensures_ok marking.changes
    | cons b list =>
      rw [leaksMark]
      refine (scanBlock_ensures array marking search target).bind ?_
      rintro ⟨blocks', list'⟩ marking'
      exact inductionHypothesis marking'

end Mark

/-! ### The result -/

/-- The array's references to marked blocks are dropped, the other ones are the result. -/
theorem leaksSweep_ensures {arr : List BlockId} {blocks : Store Block} (positive : blocks.Positive)
    (held : ∀ b, (arr.count b : ℤ) ≤ blocks.refs b) (i : ℕ) (result : List BlockId) :
    Ensures NotFreed (leaksSweep i arr (blocks, result)) fun later => ∃ found dropped, later.2 = found ++ result ∧
      arr.Perm (found ++ dropped) ∧ Changes blocks (fun b => -(dropped.count b : ℤ)) later.1 := by
  induction arr generalizing blocks i result with
  | nil => exact ⟨[], [], rfl, .refl _, (Changes.refl blocks).congr fun b => by simp⟩
  | cons b arr inductionHypothesis =>
    have referenced := Store.refs_pos_of_held held (List.mem_cons_self (a := b) (l := arr))
    rw [leaksSweep]
    obtain ⟨block, live⟩ := Store.exists_get_of_refs_pos referenced
    have read : deref blocks b = .ok block := by rw [deref, live]
    rw [sweepBlock, read, ok_bind]
    have counted : ∀ j, Ensures NotFreed (increment j) fun _ => True := by
      intro j
      unfold increment
      split
      · exact ensures_error (by simp)
      · exact ensures_ok trivial
    by_cases marked : block.flags.marked = true
    -- A marked block loses the reference of the array, an unmarked one hands it to the report.
    · obtain ⟨released, ran, exchange⟩ := Store.release_exchanges referenced positive arr
      have letGo : blockUnref blocks b = .ok released := by rw [blockUnref, ran]
      have changes := changes_of_exchanges exchange
      rw [if_pos marked, letGo, ok_bind, ok_bind]
      refine (counted i).bind fun j _ => ?_
      refine (inductionHypothesis (exchange.positive positive) (exchange.held held) j result).imp ?_
      rintro ⟨later, result'⟩ ⟨found, dropped, listed, perm, changesRest⟩
      refine ⟨found, b :: dropped, listed, (perm.cons b).trans List.perm_middle.symm, ?_⟩
      refine (changes.trans changesRest).congr fun c => ?_
      rw [Store.count_cons_int, Store.count_cons_int]
      omega
    · rw [if_neg marked, ok_bind]
      refine (counted i).bind fun j _ => ?_
      have heldRest : ∀ c, (arr.count c : ℤ) ≤ blocks.refs c := fun c => by
        have := held c
        rw [Store.count_cons_int] at this
        split at this <;> omega
      refine (inductionHypothesis positive heldRest j (b :: result)).imp ?_
      rintro ⟨later, result'⟩ ⟨found, dropped, listed, perm, changesRest⟩
      refine ⟨found ++ [b], dropped, by rw [listed]; simp, ?_, changesRest⟩
      rw [List.append_assoc, List.singleton_append]
      exact (perm.cons b).trans List.perm_middle.symm

/-- `leaks_find` takes one reference to each block of its result, and leaves its roots. -/
theorem leaksFind_ensures {world : World} {p : ProcId} {process : MPProcess} (found : world.process p = .ok process)
    (positive : world.blocks.Positive) (distinct : process.held.Nodup)
    (referenced : ∀ b ∈ process.held, 0 < world.blocks.refs b) (fuel : ℕ) (target : Target) :
    Ensures NotFreed (leaksFind fuel world p target) fun outcome => ∃ (blocks : Store Block) (roots : List BlockId),
      outcome.1 = { world.setProcess p (getBlockTable process) with blocks := blocks } ∧ outcome.2.Nodup ∧
      Changes world.blocks (fun b => (roots.count b : ℤ) + outcome.2.count b) blocks ∧
      (∀ b ∈ roots, world.blocks.size ≤ b ∧ ∀ block, blocks.get b = some block → block.flags.isRoot = true) ∧
      roots.Nodup ∧ ∀ b ∈ outcome.2, b ∈ process.held := by
  have same : (world.setProcess p (getBlockTable process)).blocks = world.blocks := rfl
  rw [leaksFind, found, ok_bind]
  simp only [same]
  refine (prepare_ensures referenced []).bind ?_
  rintro ⟨ready, arr⟩ ⟨listed, prepared⟩
  rw [List.nil_append] at listed
  simp only at listed prepared
  subst listed
  -- The array now holds what the table holds, and once more.
  have readyHeld : ∀ b, (process.held.count b : ℤ) ≤ ready.refs b := fun b => by
    have := prepared.refs b
    have := positive.refs_nonneg b
    omega
  refine (sortBlocks_ensures fun b => Store.refs_pos_of_held readyHeld).bind fun sorted perm => ?_
  obtain ⟨started, ids, ranRoots, rooted, distinctIds, new⟩ :=
    @addRoots_changes target.roots (fun _ isRoot => ⟨(Leaks.roots_made isRoot).1, (Leaks.roots_made isRoot).2.1⟩) ready []
  rw [List.append_nil] at ranRoots
  simp only [Leaks.addRoots_eq, ranRoots]
  have startedHeld : ∀ b, (sorted.count b : ℤ) ≤ started.refs b := fun b => by
    have := rooted.refs b
    have := readyHeld b
    rw [perm.count_eq]
    omega
  have startedPositive := rooted.positive (prepared.positive positive)
  have idsReferenced : ∀ b ∈ ids, 0 < started.refs b := fun b member => by
    have := rooted.refs b
    have := (prepared.positive positive).refs_nonneg b
    have := List.count_pos_iff.mpr member
    omega
  refine (leaksMark_ensures (fun b => Store.refs_pos_of_held startedHeld) ⟨Changes.refl started, idsReferenced⟩ fuel fuel
    target).bind fun marked marking => ?_
  have markedHeld : ∀ b, (sorted.count b : ℤ) ≤ marked.refs b := fun b => by
    rw [marking.refs, add_zero]
    exact startedHeld b
  refine (leaksSweep_ensures (marking.positive startedPositive) markedHeld 0 []).bind ?_
  rintro ⟨swept, result⟩ ⟨leaks, dropped, listed, parts, changes⟩
  rw [List.append_nil] at listed
  simp only at listed
  subst listed
  -- What the array took is given back or reported; the roots have their own reference.
  have split := perm.symm.trans parts
  refine ensures_ok ⟨swept, ids, rfl, ?_, ?_, ?_, distinctIds, fun b member => ?_⟩
  · exact (List.nodup_append.mp (split.nodup_iff.mp distinct)).1
  · refine (((prepared.trans rooted).trans marking).trans changes).congr fun b => ?_
    rw [split.count_eq, List.count_append]
    push_cast
    ring
  · intro b member
    obtain ⟨fresh, isRoot⟩ := new b member
    refine ⟨prepared.size.trans fresh, fun block live => ?_⟩
    have inside : b < started.size := by
      obtain ⟨_, held⟩ := Store.exists_get_of_refs_pos (idsReferenced b member)
      exact Store.lt_size_of_get held
    obtain ⟨original, held, _, flag⟩ := (marking.trans changes).alike b block live inside
    rw [flag, isRoot original held]
  · exact split.mem_iff.mpr (List.mem_append_left _ member)

/-- Every count is at most `limit`. -/
def Below (limit : ℤ) (blocks : Store Block) : Prop := ∀ b, blocks.refs b ≤ limit

/-- A search takes one reference to a block at most, and it takes those of the table. -/
theorem below_leaksFind {limit : ℤ} (one : 1 ≤ limit) {blocks later : Store Block} {held roots result : List BlockId}
    (below : Below limit blocks) (referenced : ∀ b ∈ held, 0 < blocks.refs b) (room : ∀ b ∈ held, blocks.refs b < limit)
    (changes : Changes blocks (fun b => (roots.count b : ℤ) + result.count b) later)
    (fresh : ∀ b ∈ roots, blocks.size ≤ b) (distinctRoots : roots.Nodup) (distinct : result.Nodup)
    (own : ∀ b ∈ result, b ∈ held) : Below limit later := by
  intro b
  have once := List.nodup_iff_count_le_one.mp distinctRoots b
  rw [changes.refs]
  by_cases listed : b ∈ result
  · have old : b ∉ roots := by
      intro isRoot
      obtain ⟨_, live⟩ := Store.exists_get_of_refs_pos (referenced b (own b listed))
      exact absurd (fresh b isRoot) (Nat.not_le.mpr (Store.lt_size_of_get live))
    have reported := List.nodup_iff_count_le_one.mp distinct b
    have := room b (own b listed)
    rw [List.count_eq_zero_of_not_mem old]
    omega
  · rw [List.count_eq_zero_of_not_mem listed]
    by_cases isRoot : b ∈ roots
    -- A root is a new block.
    · have unused : blocks.refs b = 0 := by simp [Store.refs, Store.get_of_size_le (fresh b isRoot)]
      omega
    · rw [List.count_eq_zero_of_not_mem isRoot]
      have := below b
      omega

/-! ## The counts of a session -/

def inTables (world : World) (b : BlockId) : ℕ := (world.processes.map MPProcess.held).flatten.count b

def inReports (windows : List ProcessWindow) (b : BlockId) : ℕ := (windows.map ProcessWindow.leaks).flatten.count b

/-- Every count is what the tables, the reports and the resets that discarded a report
account for, and `1` for a root. -/
structure Pinned (session : Session) (roots lost : List BlockId) : Prop where
  positive : session.world.blocks.Positive
  counted : ∀ b, session.world.blocks.refs b =
    ((inTables session.world b + inReports session.windows b + roots.count b + lost.count b : ℕ) : ℤ)
  stashes : session.world.stashes.Shared (session.world.processes.map fun process => process.stackStash.toList)
  keyed : ∀ process ∈ session.world.processes, Keyed session.world.blocks process.table
  nonNull : ∀ process ∈ session.world.processes, process.table.lookup 0 = none
  distinct : ∀ pwin ∈ session.windows, pwin.leaks.Nodup
  rooted : ∀ b ∈ roots, ∀ block, session.world.blocks.get b = some block → block.flags.isRoot = true

theorem pinned_start : Pinned {} [] [] where
  positive _ _ live := by cases live
  counted _ := rfl
  stashes := sound_start.sharedStashes
  keyed _ member := by cases member
  nonNull _ member := by cases member
  distinct _ member := by cases member
  rooted _ member := by cases member

theorem count_le_inTables {world : World} {process : MPProcess} (member : process ∈ world.processes) (b : BlockId) :
    process.held.count b ≤ inTables world b :=
  (List.sublist_flatten_of_mem (List.mem_map_of_mem member)).count_le b

theorem count_le_inReports {windows : List ProcessWindow} {pwin : ProcessWindow} (member : pwin ∈ windows)
    (b : BlockId) : pwin.leaks.count b ≤ inReports windows b :=
  (List.sublist_flatten_of_mem (List.mem_map_of_mem member)).count_le b

theorem inTables_set {world : World} {p : ProcId} {process : MPProcess} (found : world.process p = .ok process)
    (process' : MPProcess) (b : BlockId) :
    inTables (world.setProcess p process') b + process.held.count b = inTables world b + process'.held.count b := by
  rw [World.process_eq_ok] at found
  unfold inTables World.setProcess
  rw [List.map_set]
  exact Store.count_flatten_set (by rw [List.getElem?_map, found]; rfl) _ b

theorem inReports_set {windows : List ProcessWindow} {w : ℕ} {pwin : ProcessWindow} (found : windows[w]? = some pwin)
    (pwin' : ProcessWindow) (b : BlockId) :
    inReports (windows.set w pwin') b + pwin.leaks.count b = inReports windows b + pwin'.leaks.count b := by
  unfold inReports
  rw [List.map_set]
  exact Store.count_flatten_set (by rw [List.getElem?_map, found]; rfl) _ b

/-- The blocks of a table differ by their addresses. -/
theorem nodup_values {blocks : Store Block} {table : BlockTable} (keyed : Keyed blocks table) : table.values.Nodup := by
  unfold HashTable.values
  refine (List.Nodup.of_map Sigma.fst table.nodupKeys).map_on ?_
  rintro ⟨address, b⟩ member ⟨address', b'⟩ member' same
  simp only at same
  subst same
  obtain ⟨block, live, addressed⟩ := keyed address b (HashTable.mem_entries_iff.mp member)
  obtain ⟨block', live', addressed'⟩ := keyed address' b (HashTable.mem_entries_iff.mp member')
  rw [live] at live'
  cases live'
  rw [← addressed, ← addressed']

section Pinned

variable {session later : Session} {roots lost : List BlockId}

theorem Pinned.held (pinned : Pinned session roots lost) {process : MPProcess}
    (member : process ∈ session.world.processes) (b : BlockId) :
    (process.held.count b : ℤ) ≤ session.world.blocks.refs b := by
  rw [pinned.counted]
  have := count_le_inTables member b
  omega

theorem Pinned.coherent (pinned : Pinned session roots lost) {process : MPProcess}
    (member : process ∈ session.world.processes) : Coherent session.world.blocks process.table where
  positive := pinned.positive
  keyed := pinned.keyed process member
  nonNull := pinned.nonNull process member
  held := pinned.held member

theorem Pinned.reported (pinned : Pinned session roots lost) {pwin : ProcessWindow} (member : pwin ∈ session.windows)
    (b : BlockId) : (pwin.leaks.count b : ℤ) ≤ session.world.blocks.refs b := by
  rw [pinned.counted]
  have := count_le_inReports member b
  omega

/-- A block that is no root is none of the roots that are left. -/
theorem Pinned.count_roots (pinned : Pinned session roots lost) {b : BlockId} {block : Block}
    (live : session.world.blocks.get b = some block) (plain : block.flags.isRoot = false) : roots.count b = 0 := by
  rw [List.count_eq_zero]
  intro member
  rw [pinned.rooted b member block live] at plain
  cases plain

/-- Whatever moves the counts by what the holders take and let go keeps them exact. -/
theorem Pinned.changes (pinned : Pinned session roots lost) {change : BlockId → ℤ}
    (changes : Changes session.world.blocks change later.world.blocks) {newRoots newLost : List BlockId}
    (moved : ∀ b, (inTables later.world b + inReports later.windows b + newRoots.count b + newLost.count b : ℤ) =
      inTables session.world b + inReports session.windows b + change b)
    (stashes : later.world.stashes.Shared (later.world.processes.map fun process => process.stackStash.toList))
    (tables : ∀ process ∈ later.world.processes,
      (∃ before ∈ session.world.processes, before.table = process.table) ∨
        Keyed later.world.blocks process.table ∧ process.table.lookup 0 = none)
    (distinct : ∀ pwin ∈ later.windows, pwin.leaks.Nodup)
    (fresh : ∀ b ∈ newRoots, session.world.blocks.size ≤ b ∧
      ∀ block, later.world.blocks.get b = some block → block.flags.isRoot = true) :
    Pinned later (roots ++ newRoots) (lost ++ newLost) := by
  have counted : ∀ b, later.world.blocks.refs b = ((inTables later.world b + inReports later.windows b +
      (roots ++ newRoots).count b + (lost ++ newLost).count b : ℕ) : ℤ) := by
    intro b
    have := moved b
    have := pinned.counted b
    rw [changes.refs, List.count_append, List.count_append]
    push_cast at *
    omega
  refine ⟨changes.positive pinned.positive, counted, stashes, ?_, ?_, distinct, ?_⟩
  · intro process member
    rcases tables process member with ⟨before, memberBefore, same⟩ | ⟨keyed, _⟩
    · intro address b found
      -- The block is still referenced, so it is the one it was.
      have referenced : 0 < later.world.blocks.refs b := by
        have inHeld : b ∈ process.held := HashTable.mem_values_iff.mpr ⟨address, found⟩
        have := count_le_inTables member b
        have := List.count_pos_iff.mpr inHeld
        rw [counted]
        omega
      obtain ⟨block', live'⟩ := Store.exists_get_of_refs_pos referenced
      rw [← same] at found
      obtain ⟨block, live, addressed⟩ := pinned.keyed before memberBefore address b found
      obtain ⟨original, held, addr, _⟩ := changes.alike b block' live' (Store.lt_size_of_get live)
      rw [live] at held
      cases held
      exact ⟨block', live', addr.trans addressed⟩
    · exact keyed
  · intro process member
    rcases tables process member with ⟨before, memberBefore, same⟩ | ⟨_, nonNull⟩
    · rw [← same]
      exact pinned.nonNull before memberBefore
    · exact nonNull
  · intro b member block live
    cases List.mem_append.mp member with
    | inr new => exact (fresh b new).2 block live
    | inl old =>
      have referenced : 0 < session.world.blocks.refs b := by
        have := List.count_pos_iff.mpr old
        rw [pinned.counted]
        omega
      obtain ⟨before, live'⟩ := Store.exists_get_of_refs_pos referenced
      obtain ⟨original, held, _, flag⟩ := changes.alike b block live (Store.lt_size_of_get live')
      rw [flag]
      exact pinned.rooted b old original held

/-- One process takes a step of its own. -/
theorem Pinned.replace (pinned : Pinned session roots lost) {p : ProcId} {process process' : MPProcess}
    (found : session.world.process p = .ok process) {world : World}
    (processes : world.processes = session.world.processes.set p process')
    (exchange : session.world.blocks.Exchanges process.held process'.held world.blocks)
    (coherent : Coherent world.blocks process'.table)
    (stashed : session.world.stashes.Exchanges process.stackStash.toList process'.stackStash.toList world.stashes) :
    Pinned { session with world := world } roots lost := by
  -- What the blocks lose or gain is what this table does; the windows stay.
  have replaced := @Pinned.changes session { session with world := world } roots lost pinned _
    (changes_of_exchanges exchange) [] []
  simp only [List.append_nil] at replaced
  refine replaced ?_ ?_ ?_ pinned.distinct (by simp)
  · intro b
    have moved := inTables_set found process' b
    have same : inTables (session.world.setProcess p process') b = inTables world b := by
      unfold inTables World.setProcess
      rw [processes]
    rw [same] at moved
    simp only [List.count_nil]
    push_cast
    omega
  · rw [World.process_eq_ok] at found
    rw [processes, List.map_set]
    exact pinned.stashes.exchange (by rw [List.getElem?_map, found]; rfl) stashed
  · intro other member
    rw [processes] at member
    rcases List.mem_or_eq_of_mem_set member with kept | rfl
    · exact .inl ⟨other, kept, rfl⟩
    · exact .inr ⟨coherent.keyed, coherent.nonNull⟩

/-- What a process has besides its blocks and its stash may change freely. -/
theorem Pinned.setProcess (pinned : Pinned session roots lost) {p : ProcId} {process process' : MPProcess}
    (found : session.world.process p = .ok process) {world : World}
    (processes : world.processes = session.world.processes.set p process') (blocks : world.blocks = session.world.blocks)
    (stashes : world.stashes = session.world.stashes) (table : process'.table = process.table)
    (stash : process'.stackStash = process.stackStash) : Pinned { session with world := world } roots lost := by
  refine pinned.replace found processes ?_ ?_ ?_
  · rw [blocks, MPProcess.held, MPProcess.held, table]
    exact Store.Exchanges.refl _ _
  · rw [blocks, table]
    exact pinned.coherent (World.mem_of_process found)
  · rw [stashes, stash]
    exact Store.Exchanges.refl _ _

/-! ## The operations on processes -/

theorem nullDereference_admitted : NotFreed .nullDereference := by simp

/-- On a process that is not there an operation faults without touching a block. -/
theorem process_ensures {world : World} {p : ProcId} {α : Type} {next : MPProcess → Except Fault α} {post : α → Prop}
    (each : ∀ process, world.process p = .ok process → Ensures NotFreed (next process) post) :
    Ensures NotFreed (world.process p >>= next) post := by
  cases found : world.process p with
  | ok process => exact each process found
  | error fault =>
    unfold World.process at found
    split at found
    · cases found
    · cases found
      exact nullDereference_admitted

theorem Pinned.processNew (pinned : Pinned session roots lost) :
    Pinned { session with world := session.world.processNew.1 } roots lost := by
  have grown := @Pinned.changes session { session with world := session.world.processNew.1 } roots lost pinned _
    (Changes.refl _) [] []
  simp only [List.append_nil] at grown
  refine grown ?_ ?_ ?_ pinned.distinct (by simp)
  · intro b
    simp [inTables, World.processNew, MPProcess.held, MPProcess.table, HashTable.values]
  · simp only [World.processNew, List.map_append, List.map_singleton]
    exact pinned.stashes.join
  · intro process member
    cases List.mem_append.mp member with
    | inl old => exact .inl ⟨process, old, rfl⟩
    | inr new =>
      rw [List.mem_singleton.mp new]
      refine .inr ⟨?_, rfl⟩
      intro address b found
      cases found

theorem Pinned.getStackStash (pinned : Pinned session roots lost) (p : ProcId) :
    Ensures NotFreed (session.world.getStackStash p) fun result =>
      Pinned { session with world := result.1 } roots lost := by
  refine process_ensures fun process found => ?_
  cases stash : process.stackStash with
  | some s => exact pinned
  | none =>
    have coherent := pinned.coherent (World.mem_of_process found)
    refine pinned.replace found rfl (Store.Exchanges.refl _ _) coherent ?_
    rw [stash]
    exact Store.exchanges_alloc _ _ rfl

theorem Pinned.command (pinned : Pinned session roots lost) (p : ProcId) (info : MIInfo) (stack : StackPtr) :
    Ensures NotFreed (session.world.command p info stack) fun world =>
      Pinned { session with world := world } roots lost := by
  refine process_ensures fun process found => ?_
  refine (processCommand_ensures (pinned.coherent (World.mem_of_process found)) info stack
    fun _ _ => .inr (by simp)).bind ?_
  rintro ⟨blocks, process', info'⟩ ⟨step, same, _⟩
  refine pinned.replace found rfl step.exchange step.coherent ?_
  rw [same.stackStash]
  exact Store.Exchanges.refl _ _

theorem Pinned.dropBlocks (pinned : Pinned session roots lost) (p : ProcId) :
    Ensures NotFreed (session.world.dropBlocks p) fun world => Pinned { session with world := world } roots lost := by
  refine process_ensures fun process found => ?_
  have own := World.mem_of_process found
  obtain ⟨blocks, freed, exchange⟩ := freeBlocks_ok (pinned.coherent own)
  obtain ⟨stashes, unreferenced, stashed⟩ := stackStashUnref_ok pinned.stashes own
  rw [freed, ok_bind, unreferenced, ok_bind]
  exact pinned.replace found rfl exchange (coherent_empty (exchange.positive pinned.positive)) stashed

theorem Pinned.processStopInput (pinned : Pinned session roots lost) (p : ProcId) :
    Ensures NotFreed (session.world.processStopInput p) fun world =>
      Pinned { session with world := world } roots lost ∧ world.blocks = session.world.blocks ∧
        ∀ quiet ∈ world.processes[p]?, ∃ process ∈ session.world.processes[p]?, quiet.held = process.held := by
  refine process_ensures fun process found => ?_
  have here := World.process_eq_ok.mp found
  split
  · refine ⟨pinned.setProcess found rfl rfl rfl rfl rfl, rfl, fun quiet stopped => ⟨process, here, ?_⟩⟩
    rw [World.setProcess, List.getElem?_set_self (List.getElem?_eq_some_iff.mp here).1] at stopped
    cases stopped
    rfl
  · exact ⟨pinned, rfl, fun quiet same => ⟨quiet, same, rfl⟩⟩

theorem Pinned.processStartInput (pinned : Pinned session roots lost) (p : ProcId) :
    Ensures NotFreed (session.world.processStartInput p) fun world =>
      Pinned { session with world := world } roots lost ∧ world.blocks = session.world.blocks := by
  refine process_ensures fun process found => ?_
  split
  · exact ⟨pinned.setProcess found rfl rfl rfl rfl rfl, rfl⟩
  · exact ⟨pinned, rfl⟩

theorem Pinned.processReinit (pinned : Pinned session roots lost) (p : ProcId) :
    Ensures NotFreed (session.world.processReinit p) fun world =>
      Pinned { session with world := world } roots lost := by
  refine (pinned.processStopInput p).bind fun quiet ⟨pinnedQuiet, _, _⟩ => ?_
  refine (pinnedQuiet.dropBlocks p).bind fun empty pinnedEmpty => ?_
  refine process_ensures fun process found => ?_
  exact pinnedEmpty.setProcess found rfl rfl rfl rfl rfl

theorem Pinned.processDuplicate (pinned : Pinned session roots lost) (p : ProcId) :
    Ensures NotFreed (session.world.processDuplicate p) fun result =>
      Pinned { session with world := result.1 } roots lost := by
  refine process_ensures fun process found => ?_
  have coherent := pinned.coherent (World.mem_of_process found)
  obtain ⟨blocks, copy, ran, copied, exchange⟩ := duplicateBlocks_ok coherent
  rw [ran, ok_bind]
  have referenced : ∀ b ∈ process.table.values, 0 < blocks.refs b := fun b member => by
    have := exchange.refs b
    have := Store.refs_pos_of_held coherent.held member
    rw [List.count_nil] at *
    omega
  have keyed : Keyed blocks (copy.getD ∅) := fun address b isCopied =>
    coherent.keyed.exchange exchange referenced address b ((copied address).symm.trans isCopied)
  have fresh : session.world.processNew.1.process session.world.processes.length = .ok {} := by
    simp [World.process_eq_ok, World.processNew]
  have new := pinned.processNew
  refine new.replace fresh rfl exchange ⟨exchange.positive pinned.positive, keyed, ?_, ?_⟩ (Store.Exchanges.refl _ _)
  · exact (copied 0).trans coherent.nonNull
  · exact exchange.held fun b => by
      rw [List.count_nil]
      exact pinned.positive.refs_nonneg b

/-- The operations of `process.c`. -/
theorem Pinned.processOperation (pinned : Pinned session roots lost) (operation : Accounting.Operation) :
    Ensures NotFreed (Accounting.perform session.world operation) fun world =>
      Pinned { session with world := world } roots lost := by
  cases operation with
  | processNew => exact pinned.processNew
  | getStackStash p => exact (pinned.getStackStash p).map
  | processCommand p info stack => exact pinned.command p info stack
  | processClearInput p => exact pinned.dropBlocks p
  | processExecReset p => exact pinned.processReinit p
  | processDuplicate p => exact (pinned.processDuplicate p).map

/-! ## The operations on windows -/

theorem window_ensures {w : ℕ} {next : ProcessWindow → Except Fault Session} {post : Session → Prop}
    (each : ∀ pwin, session.windows[w]? = some pwin → Ensures NotFreed (next pwin) post) :
    Ensures NotFreed (session.window w >>= next) post := by
  cases found : session.windows[w]? with
  | some pwin =>
    have read : session.window w = .ok pwin := by rw [Session.window, found]
    rw [read, ok_bind]
    exact each pwin found
  | none =>
    have read : session.window w = .error .nullDereference := by rw [Session.window, found]
    rw [read]
    exact nullDereference_admitted

theorem Pinned.processCreated (pinned : Pinned session roots lost) (p : ProcId) :
    Pinned (session.processCreated p) roots lost := by
  have created := @Pinned.changes session (session.processCreated p) roots lost pinned _ (Changes.refl _) [] []
  simp only [List.append_nil] at created
  refine created ?_ pinned.stashes (fun process member => .inl ⟨process, member, rfl⟩) ?_ (by simp)
  · intro b
    simp [inReports, Session.processCreated]
  · intro pwin member
    cases List.mem_append.mp member with
    | inl old => exact pinned.distinct pwin old
    | inr new =>
      rw [List.mem_singleton.mp new]
      exact List.nodup_nil

/-- A window's report is exchanged for another one. -/
theorem Pinned.setWindow (pinned : Pinned session roots lost) {w : ℕ} {pwin pwin' : ProcessWindow}
    (found : session.windows[w]? = some pwin) {world : World} {process : MPProcess} {p : ProcId}
    {change : BlockId → ℤ} (changes : Changes session.world.blocks change world.blocks)
    {newRoots newLost : List BlockId}
    (moved : ∀ b, (pwin'.leaks.count b + newRoots.count b + newLost.count b : ℤ) = pwin.leaks.count b + change b)
    (processes : world.processes = session.world.processes ∨ session.world.process p = .ok process ∧
      world.processes = session.world.processes.set p (getBlockTable process))
    (stashes : world.stashes = session.world.stashes) (distinct : pwin'.leaks.Nodup)
    (fresh : ∀ b ∈ newRoots, session.world.blocks.size ≤ b ∧
      ∀ block, world.blocks.get b = some block → block.flags.isRoot = true) :
    Pinned ({ session with world := world }.setWindow w pwin') (roots ++ newRoots) (lost ++ newLost) := by
  -- A table that is made for the search is empty.
  have sameMaps : world.processes.map MPProcess.held = session.world.processes.map MPProcess.held ∧
      (world.processes.map fun process => process.stackStash.toList) =
        session.world.processes.map (fun process => process.stackStash.toList) ∧
      ∀ process ∈ world.processes, ∃ before ∈ session.world.processes, before.table = process.table := by
    rcases processes with same | ⟨foundP, same⟩
    · rw [same]
      exact ⟨rfl, rfl, fun process member => ⟨process, member, rfl⟩⟩
    · rw [World.process_eq_ok] at foundP
      obtain ⟨inside, isProcess⟩ := List.getElem?_eq_some_iff.mp foundP
      have held : (getBlockTable process).held = process.held := rfl
      have stash : (getBlockTable process).stackStash = process.stackStash := rfl
      rw [same, List.map_set, List.map_set, held, stash]
      refine ⟨?_, ?_, fun other member => ?_⟩
      · rw [← List.map_set, ← isProcess, List.set_getElem_self]
      · rw [← isProcess, ← List.map_set (f := fun process : MPProcess => process.stackStash.toList), List.set_getElem_self]
      · rcases List.mem_or_eq_of_mem_set member with kept | rfl
        · exact ⟨other, kept, rfl⟩
        · exact ⟨process, List.mem_of_getElem? foundP, rfl⟩
  obtain ⟨held, stashed, tables⟩ := sameMaps
  refine @Pinned.changes session ({ session with world := world }.setWindow w pwin') roots lost pinned _ changes
    newRoots newLost ?_ ?_ (fun process member => .inl (tables process member)) ?_ fresh
  · intro b
    have tablesSame : inTables ({ session with world := world }.setWindow w pwin').world b =
        inTables session.world b := by
      unfold inTables Session.setWindow
      rw [held]
    have reports := inReports_set found pwin' b
    have := moved b
    have windows : ({ session with world := world }.setWindow w pwin').windows = session.windows.set w pwin' := rfl
    rw [tablesSame, windows]
    omega
  · simp only [Session.setWindow, stashes, stashed]
    exact pinned.stashes
  · intro other member
    rcases List.mem_or_eq_of_mem_set member with kept | rfl
    · exact pinned.distinct other kept
    · exact distinct

theorem releaseLeaks_ok {blocks : Store Block} {leaks : List BlockId} (positive : blocks.Positive)
    (held : ∀ b, (leaks.count b : ℤ) ≤ blocks.refs b) :
    ∃ later, Session.releaseLeaks blocks leaks = .ok later ∧ blocks.Exchanges leaks [] later := by
  induction leaks generalizing blocks with
  | nil => exact ⟨blocks, rfl, Store.Exchanges.refl _ _⟩
  | cons b leaks inductionHypothesis =>
    obtain ⟨next, released, exchange⟩ := Store.release_exchanges
      (Store.refs_pos_of_held held (List.mem_cons_self (a := b) (l := leaks))) positive leaks
    obtain ⟨later, ran, exchangeRest⟩ := inductionHypothesis (exchange.positive positive) (exchange.held held)
    refine ⟨later, ?_, exchange.trans exchangeRest⟩
    have letGo : blockUnref blocks b = .ok next := by rw [blockUnref, released]
    rw [Session.releaseLeaks, List.foldlM_cons, letGo, ok_bind]
    exact ran

theorem usageOf_ensures {blocks : Store Block} {leaks : List BlockId} (referenced : ∀ b ∈ leaks, 0 < blocks.refs b) :
    Ensures NotFreed (Session.usageOf blocks leaks) fun _ => True := by
  refine @ensures_foldlM _ _ _ _ _ _ (fun _ => True) ?_ _ trivial
  intro usage b member _
  exact (deref_ensures (referenced b member)).bind fun block _ => ensures_ok trivial

theorem Pinned.processWindowReset (pinned : Pinned session roots lost) (w : ℕ) :
    Ensures NotFreed (session.processWindowReset w) fun later => ∃ discarded,
      (∀ pwin, session.windows[w]? = some pwin → discarded = pwin.leaks) ∧
      Pinned later roots (lost ++ discarded) := by
  refine window_ensures fun pwin found => ?_
  refine ⟨pwin.leaks, fun other same => ?_, ?_⟩
  · rw [found] at same
    cases same
    rfl
  · have reset := @Pinned.setWindow session roots lost pinned w pwin { pwin with leaks := [], usageLeaked := 0 } found
      session.world {} 0 _ (Changes.refl _) [] pwin.leaks (by simp) (.inl rfl) rfl List.nodup_nil (by simp)
    rwa [List.append_nil] at reset

/-- The search for leaks, for a window whose old report is released. -/
theorem Pinned.findLeaks (pinned : Pinned session roots lost) {w : ℕ} {pwin : ProcessWindow}
    (found : session.windows[w]? = some pwin) (empty : pwin.leaks = []) (fuel : ℕ) (p : ProcId)
    (target : Option Target) :
    Ensures NotFreed (Session.findLeaks fuel session.world p target) fun outcome => ∃ newRoots,
      (∀ pwin' : ProcessWindow, pwin'.leaks = outcome.2 →
        Pinned ({ session with world := outcome.1 }.setWindow w pwin') (roots ++ newRoots) lost) ∧
      ∀ limit : ℤ, 1 ≤ limit → Below limit session.world.blocks → (target ≠ none → ∀ process ∈ session.world.processes[p]?,
        ∀ b ∈ process.held, session.world.blocks.refs b < limit) → Below limit outcome.1.blocks := by
  cases target with
  | none =>
    refine ensures_ok ⟨[], fun pwin' report => ?_, fun _ _ below _ => below⟩
    have unread := @Pinned.setWindow session roots lost pinned w pwin pwin' found session.world {} 0 _ (Changes.refl _)
      [] [] (by simp [report, empty]) (.inl rfl) rfl (by rw [report]; exact List.nodup_nil) (by simp)
    simp only [List.append_nil] at unread ⊢
    exact unread
  | some target =>
    cases foundP : session.world.process p with
    | error fault =>
      have faulted : Session.findLeaks fuel session.world p (some target) = .error fault := by
        rw [Session.findLeaks, leaksFind, foundP]
        rfl
      rw [faulted]
      unfold World.process at foundP
      split at foundP
      · cases foundP
      · cases foundP
        exact nullDereference_admitted
    | ok process =>
      have own := World.mem_of_process foundP
      have referenced : ∀ b ∈ process.held, 0 < session.world.blocks.refs b :=
        fun b => Store.refs_pos_of_held (pinned.held own)
      -- The result is the new report, and the roots of the search are nobody's.
      refine (leaksFind_ensures foundP pinned.positive (nodup_values (pinned.keyed process own)) referenced fuel
        target).imp ?_
      rintro ⟨world, leaks⟩ ⟨blocks, newRoots, rfl, distinct, changes, fresh, distinctRoots, listed⟩
      refine ⟨newRoots, fun pwin' report => ?_, fun limit one below room => ?_⟩
      rotate_left
      · exact below_leaksFind one below referenced (room (by simp) process (World.process_eq_ok.mp foundP)) changes
          (fun b isRoot => (fresh b isRoot).1) distinctRoots distinct listed
      have reported := @Pinned.setWindow session roots lost pinned w pwin pwin' found
        { session.world.setProcess p (getBlockTable process) with blocks := blocks } process p _ changes newRoots []
        (by
          intro b
          rw [report, empty]
          simp
          omega) (.inr ⟨foundP, rfl⟩) rfl (by rw [report]; exact distinct) fresh
      rwa [List.append_nil] at reported

theorem Pinned.generateLeakCb (pinned : Pinned session roots lost) (w fuel : ℕ) (target : Option Target) :
    Ensures NotFreed (session.generateLeakCb w fuel target) fun later => ∃ newRoots,
      Pinned later (roots ++ newRoots) lost ∧
      ∀ limit : ℤ, 1 ≤ limit → Below limit session.world.blocks →
        (target ≠ none → ∀ pwin ∈ session.windows[w]?, ∀ p ∈ pwin.process, ∀ process ∈ session.world.processes[p]?,
          ∀ b ∈ process.held, session.world.blocks.refs b - pwin.leaks.count b < limit) →
        Below limit later.world.blocks := by
  refine window_ensures fun pwin found => ?_
  cases shown : pwin.process with
  | none => exact ⟨[], by rwa [List.append_nil], fun _ _ below _ => below⟩
  | some p =>
    simp only
    refine (pinned.processStopInput p).bind fun quiet ⟨pinnedQuiet, sameBlocks, sameHeld⟩ => ?_
    have member : pwin ∈ session.windows := List.mem_of_getElem? found
    obtain ⟨blocks, released, exchange⟩ := releaseLeaks_ok pinnedQuiet.positive (pinnedQuiet.reported member)
    simp only at released
    rw [released, ok_bind]
    -- Between the release and the search the window has an empty report.
    have letGo := @Pinned.setWindow _ roots lost pinnedQuiet w pwin { pwin with leaks := [] } found
      { quiet with blocks := blocks } {} 0 _ (changes_of_exchanges exchange) [] [] (by simp) (.inl rfl) rfl
      List.nodup_nil (by simp)
    rw [List.append_nil, List.append_nil] at letGo
    have foundLetGo : (session.windows.set w { pwin with leaks := [] })[w]? = some { pwin with leaks := [] } := by
      rw [List.getElem?_set_self (List.getElem?_eq_some_iff.mp found).1]
    refine (letGo.findLeaks foundLetGo rfl fuel p target).bind ?_
    rintro ⟨world, leaks⟩ ⟨newRoots, reported, below⟩
    simp only [Session.setWindow, List.set_set] at reported below
    have usage := usageOf_ensures fun b inLeaks => by
      have held := (reported { pwin with leaks := leaks } rfl).reported
        (List.mem_set (List.getElem?_eq_some_iff.mp found).1 _)
      exact Store.refs_pos_of_held held inLeaks
    refine usage.bind fun usageLeaked _ => ?_
    refine ((reported { pwin with leaks := leaks, usageLeaked := usageLeaked } rfl).processStartInput p).bind ?_
    rintro started ⟨pinnedStarted, startedBlocks⟩
    refine ⟨newRoots, by rw [← shown]; exact pinnedStarted, fun limit one belowBefore room => ?_⟩
    -- The old report makes room for the new one.
    have dropped : ∀ b, blocks.refs b = session.world.blocks.refs b - pwin.leaks.count b := fun b => by
      have := exchange.refs b
      rw [sameBlocks, List.count_nil] at this
      omega
    have belowFound := below limit one
      (fun b => by have := belowBefore b; rw [dropped]; omega) fun searched process isHere b own => by
        obtain ⟨before, here, same⟩ := sameHeld process isHere
        rw [dropped]
        exact room searched pwin found p shown before here b (same ▸ own)
    intro b
    rw [Session.setWindow, startedBlocks]
    exact belowFound b

end Pinned

/-! ## Runs -/

inductive Operation where
  | process (operation : Accounting.Operation)
  | processCreated (p : ProcId)
  | generateLeakCb (w : ℕ) (fuel : ℕ) (target : Option Target)
  | processWindowReset (w : ℕ)

def perform (session : Session) : Operation → Except Fault Session
  | .process operation => (Accounting.perform session.world operation).map fun world => { session with world := world }
  | .processCreated p => .ok (session.processCreated p)
  | .generateLeakCb w fuel target => session.generateLeakCb w fuel target
  | .processWindowReset w => session.processWindowReset w

/-- A window is reset while its report is not empty. -/
def discards (session : Session) : Operation → Bool
  | .processWindowReset w => (session.windows[w]?).any fun pwin => !pwin.leaks.isEmpty
  | .process _ | .processCreated _ | .generateLeakCb _ _ _ => false

/-- What any operations lead to, and whether one of them discarded a report. -/
inductive Run : Bool → Session → Prop
  | start : Run false {}
  | step {discarded : Bool} {session later : Session} {operation : Operation} (run : Run discarded session)
      (performed : perform session operation = .ok later) : Run (discarded || discards session operation) later

theorem Pinned.operation {session : Session} {roots lost : List BlockId} (pinned : Pinned session roots lost)
    (operation : Operation) : Ensures NotFreed (perform session operation) fun later => ∃ newRoots newLost,
      Pinned later (roots ++ newRoots) (lost ++ newLost) ∧ (discards session operation = false → newLost = []) := by
  cases operation with
  | process operation =>
    refine ((pinned.processOperation operation).imp fun world kept => ?_).map
    exact ⟨[], [], by simpa using kept, fun _ => rfl⟩
  | processCreated p => exact ⟨[], [], by simpa using pinned.processCreated p, fun _ => rfl⟩
  | generateLeakCb w fuel target =>
    refine (pinned.generateLeakCb w fuel target).imp fun later ⟨newRoots, kept, _⟩ => ?_
    exact ⟨newRoots, [], by simpa using kept, fun _ => rfl⟩
  | processWindowReset w =>
    refine window_ensures fun pwin found => ?_
    have ran : session.processWindowReset w =
        .ok (session.setWindow w { pwin with leaks := [], usageLeaked := 0 }) := by
      rw [Session.processWindowReset, Session.window, found]
      rfl
    obtain ⟨discarded, same, kept⟩ := (pinned.processWindowReset w).of_ok ran
    refine ⟨[], discarded, by simpa using kept, fun empty => ?_⟩
    rw [same pwin found]
    simpa [discards, found] using empty

/-- The tables that contain a block and the reports that list it. -/
def holders (session : Session) (b : BlockId) : ℕ :=
  session.world.processes.countP (b ∈ ·.held) + session.windows.countP (b ∈ ·.leaks)

theorem count_flatten_of_nodup {lists : List (List ℕ)} (distinct : ∀ ids ∈ lists, ids.Nodup) (b : ℕ) :
    lists.flatten.count b = lists.countP (b ∈ ·) := by
  induction lists with
  | nil => rfl
  | cons ids lists inductionHypothesis =>
    rw [List.flatten_cons, List.count_append, inductionHypothesis fun other member => distinct other (by simp [member]),
      List.countP_cons, (distinct ids (by simp)).count, Nat.add_comm]
    simp

theorem Pinned.holders_eq {session : Session} {roots lost : List BlockId} (pinned : Pinned session roots lost)
    (b : BlockId) : holders session b = inTables session.world b + inReports session.windows b := by
  have tables : ∀ ids ∈ session.world.processes.map MPProcess.held, ids.Nodup := by
    intro ids member
    obtain ⟨process, own, rfl⟩ := List.mem_map.mp member
    exact nodup_values (pinned.keyed process own)
  have reports : ∀ ids ∈ session.windows.map ProcessWindow.leaks, ids.Nodup := by
    intro ids member
    obtain ⟨pwin, own, rfl⟩ := List.mem_map.mp member
    exact pinned.distinct pwin own
  rw [inTables, inReports, count_flatten_of_nodup tables, count_flatten_of_nodup reports, List.countP_map,
    List.countP_map]
  rfl

/-- The operations of a list one after the other, with what they discard. -/
def runAll (operations : List Operation) : Except Fault (Bool × Session) :=
  operations.foldlM (fun state operation => (perform state.2 operation).map fun later =>
    (state.1 || discards state.2 operation, later)) (false, {})

/-- A fork after one allocation, and a search in a target whose memory has no pointers. -/
def leaking : List Operation :=
  [.process .processNew, .process (.processCommand 0 { operation := .malloc, newPtr := 16, size := 8 } none),
    .process (.processDuplicate 0), .processCreated 0, .generateLeakCb 0 9 (some { peekData := fun _ => none })]

end Memprof.Reports
