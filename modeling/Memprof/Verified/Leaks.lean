import Memprof.Verified.Marking

/-! # Leaks are the blocks that no root reaches

The blocks of the array are apart, so that the search finds the one block a word points
into; what is marked is what the roots reach in this way, and the sweep finds the others.
-/

namespace Memprof.Leaks

open Library

/-- The word points into the block. -/
def Contains (block : Block) (word : Addr) : Prop :=
  block.addr ≤ word ∧ word.toNat < block.addr.toNat + block.size.toNat

instance (block : Block) (word : Addr) : Decidable (Contains block word) := inferInstanceAs (Decidable (_ ∧ _))

/-- The first block lies in front of the second one. -/
def Before (block other : Block) : Prop :=
  block.addr < other.addr ∧ block.addr.toNat + block.size.toNat ≤ other.addr.toNat

theorem Before.trans {first second third : Block} (left : Before first second) (right : Before second third) :
    Before first third :=
  ⟨UInt64.lt_trans left.1 right.1, left.2.trans (by have := UInt64.lt_iff_toNat_lt.mp right.1; omega)⟩

/-! ## The search -/

/-- The array of blocks as it is during the run; `view` shows the block that an element
points at, without its mark. -/
structure Layout (view : BlockId → Block) (arr : List BlockId) : Prop where
  fits : arr.length < 2 ^ 31
  sorted : arr.Pairwise fun b c => Before (view b) (view c)
  bounded : ∀ b ∈ arr, (view b).addr.toNat + (view b).size.toNat < 2 ^ 64
  plain : ∀ b ∈ arr, (view b).flags = {}

/-- The block of the array that a word points into. -/
def lookup (view : BlockId → Block) (arr : List BlockId) (word : Addr) : Option BlockId :=
  arr.find? fun b => Contains (view b) word

section Search

variable {view : BlockId → Block} {arr : List BlockId}

theorem Layout.before (layout : Layout view arr) {i j : ℕ} (insideI : i < arr.length) (insideJ : j < arr.length)
    (ordered : i < j) : Before (view arr[i]) (view arr[j]) :=
  List.pairwise_iff_getElem.mp layout.sorted i j insideI insideJ ordered

theorem Layout.ascending (layout : Layout view arr) : Ascending view arr :=
  ⟨layout.fits, layout.sorted.imp And.left⟩

/-- No word points into two blocks. -/
theorem Layout.unique (layout : Layout view arr) {i j : ℕ} (insideI : i < arr.length) (insideJ : j < arr.length)
    {word : Addr} (containsI : Contains (view arr[i]) word) (containsJ : Contains (view arr[j]) word) : i = j := by
  have apart : ∀ {m n : ℕ} (insideM : m < arr.length) (insideN : n < arr.length),
      Contains (view arr[m]) word → Contains (view arr[n]) word → ¬ m < n := by
    intro m n insideM insideN containsM containsN less
    have := (layout.before insideM insideN less).2
    have := UInt64.le_iff_toNat_le.mp containsN.1
    have := containsM.2
    omega
  exact Nat.le_antisymm (Nat.le_of_not_lt (apart insideJ insideI containsJ containsI))
    (Nat.le_of_not_lt (apart insideI insideJ containsI containsJ))

theorem lookup_eq_some (layout : Layout view arr) {i : ℕ} (inside : i < arr.length) {word : Addr}
    (contains : Contains (view arr[i]) word) : lookup view arr word = some arr[i] := by
  have isSome : (lookup view arr word).isSome = true := by
    rw [lookup, List.find?_isSome]
    exact ⟨arr[i], List.getElem_mem inside, by simpa using contains⟩
  obtain ⟨b, found⟩ := Option.isSome_iff_exists.mp isSome
  obtain ⟨j, insideJ, rfl⟩ := List.getElem_of_mem (List.mem_of_find?_eq_some found)
  have containsJ : Contains (view arr[j]) word := by simpa using List.find?_some found
  rw [found]
  simp only [layout.unique insideJ inside containsJ contains]

theorem Layout.extent (layout : Layout view arr) {b : BlockId} (member : b ∈ arr) {word : Addr} :
    word < (view b).addr + (view b).size.toUInt64 ↔ word.toNat < (view b).addr.toNat + (view b).size.toNat := by
  rw [UInt64.lt_iff_toNat_lt, UInt64.toNat_add, UInt32.toNat_toUInt64, Nat.mod_eq_of_lt (layout.bounded b member)]

/-- The search need not look at any other block. -/
theorem lookupLast_eq_lookup (layout : Layout view arr) : lookupLast view arr = lookup view arr := by
  funext word
  apply Option.ext
  intro b
  rw [lookupLast_eq_some_iff layout.ascending.sorted]
  constructor
  · rintro ⟨member, starts, extent, _⟩
    have contains : Contains (view b) word := ⟨starts, (layout.extent member).mp extent⟩
    obtain ⟨i, inside, rfl⟩ := List.getElem_of_mem member
    exact lookup_eq_some layout inside contains
  · intro found
    have member := List.mem_of_find?_eq_some found
    have contains : Contains (view b) word := by simpa using List.find?_some found
    refine ⟨member, contains.1, (layout.extent member).mpr contains.2, fun c memberC startsC => ?_⟩
    -- A block that starts behind this one starts behind its end.
    obtain ⟨i, inside, rfl⟩ := List.getElem_of_mem member
    obtain ⟨j, insideJ, rfl⟩ := List.getElem_of_mem memberC
    rcases Nat.lt_or_ge i j with behind | ahead
    · have := (layout.before inside insideJ behind).2
      have := UInt64.le_iff_toNat_le.mp startsC
      have := contains.2
      omega
    · exact Sorted.addr_le layout.ascending.sorted ahead inside

end Search

/-- The blocks that the words of block `b` point into. -/
def next (target : Target) (view : BlockId → Block) (arr : List BlockId) (b : BlockId) : List BlockId :=
  (words target (view b)).filterMap (lookup view arr)

theorem lookup_mem {view : BlockId → Block} {arr : List BlockId} {word : Addr} {b : BlockId}
    (found : lookup view arr word = some b) : b ∈ arr := List.mem_of_find?_eq_some found

/-! ## Before and after the marking -/

section Around

variable {blocks : Store Block}

/-- A block as `prepare_block` leaves it. -/
def prepared (block : Block) : Block :=
  { block with
    flags := { block.flags with marked := false }
    refcount := block.refcount + 1 }

theorem prepareBlock_ok {b : BlockId} {block : Block} (live : blocks.get b = some block)
    (plain : block.flags.isRoot = false) (arr : List BlockId) :
    prepareBlock (blocks, arr) b = .ok (blocks.put b (prepared block), arr ++ [b]) := by
  rw [prepareBlock, deref, live]
  exact if_neg (by rw [plain]; exact Bool.false_ne_true)

theorem prepare_ok {ids : List BlockId} (distinct : ids.Nodup)
    (live : ∀ b ∈ ids, ∃ block, blocks.get b = some block ∧ block.flags.isRoot = false) (arr : List BlockId) :
    ∃ later, ids.foldlM prepareBlock (blocks, arr) = .ok (later, arr ++ ids) ∧
      ∀ b, later.get b = if b ∈ ids then (blocks.get b).map prepared else blocks.get b := by
  induction ids generalizing blocks arr with
  | nil => exact ⟨blocks, by simp; rfl, by simp⟩
  | cons b ids inductionHypothesis =>
    obtain ⟨fresh, distinct⟩ := List.nodup_cons.mp distinct
    obtain ⟨block, held, plain⟩ := live b (by simp)
    have get := Store.get_put (Store.lt_size_of_get held) (prepared block)
    have others : ∀ c ∈ ids, (blocks.put b (prepared block)).get c = blocks.get c := by
      intro c member
      rw [get, if_neg (by rintro rfl; exact fresh member)]
    obtain ⟨later, ran, getLater⟩ := @inductionHypothesis (blocks.put b (prepared block)) distinct
      (fun c member => by rw [others c member]; exact live c (by simp [member])) (arr ++ [b])
    refine ⟨later, ?_, ?_⟩
    · rw [List.foldlM_cons, prepareBlock_ok held plain, ok_bind, ran, List.append_assoc, List.singleton_append]
    · intro c
      rw [getLater]
      by_cases same : c = b
      · subst same
        rw [if_neg fresh, get, if_pos rfl, held, if_pos (by simp), Option.map_some]
      · by_cases member : c ∈ ids
        · rw [if_pos member, others c member, if_pos (by simp [member])]
        · rw [if_neg member, get, if_neg same, if_neg (by simp [member, same])]

theorem addRoots_eq (target : Target) (list : BlockList) :
    addDataRoots target (addStackRoots target list) = target.roots.foldl addRoot list := by
  have stack : ∀ stats : List (Option (UInt64 × UInt64)), stats.foldl (addStackRoot target.stackMaps) list =
      (stats.filterMap (cloneRoot target.stackMaps)).foldl addRoot list := by
    intro stats
    induction stats generalizing list with
    | nil => rfl
    | cons stat stats inductionHypothesis =>
      rw [List.foldl_cons, inductionHypothesis, List.filterMap_cons, addStackRoot]
      cases cloneRoot target.stackMaps stat <;> rfl
  rw [addDataRoots, addStackRoots, stack, Target.roots, List.foldl_append, List.foldl_map]
  rfl

theorem addRoots_ok (roots : List Block) (blocks : Store Block) (list : List BlockId) :
    ∃ later ids, roots.foldl addRoot (blocks, list) = (later, ids ++ list) ∧
      (∀ b block, blocks.get b = some block → later.get b = some block) ∧
      (∀ b ∈ ids, ∃ root ∈ roots, later.get b = some root) ∧ ∀ root ∈ roots, ∃ b ∈ ids, later.get b = some root := by
  induction roots generalizing blocks list with
  | nil => exact ⟨blocks, [], rfl, fun _ _ held => held, by simp, by simp⟩
  | cons root roots inductionHypothesis =>
    obtain ⟨later, ids, ran, keeps, fromRoots, allRoots⟩ :=
      inductionHypothesis (blocks.alloc root).1 (blocks.size :: list)
    have fresh : later.get blocks.size = some root := keeps _ _ (by rw [Store.get_alloc, if_pos rfl])
    refine ⟨later, ids ++ [blocks.size], ?_, ?_, ?_, ?_⟩
    · rw [List.foldl_cons, List.append_assoc, List.singleton_append]
      exact ran
    · intro b block held
      apply keeps
      rw [Store.get_alloc, if_neg (Nat.ne_of_lt (Store.lt_size_of_get held)), held]
    · intro b member
      rcases List.mem_append.mp member with old | new
      · obtain ⟨other, isRoot, held⟩ := fromRoots b old
        exact ⟨other, by simp [isRoot], held⟩
      · rw [List.mem_singleton.mp new]
        exact ⟨root, by simp, fresh⟩
    · intro other isRoot
      rcases List.mem_cons.mp isRoot with rfl | isRoot
      · exact ⟨blocks.size, by simp, fresh⟩
      · obtain ⟨b, member, held⟩ := allRoots other isRoot
        exact ⟨b, by simp [member], held⟩

theorem compareBlocks_le {block other : Block} : compareBlocks block other ≤ 0 ↔ block.addr ≤ other.addr := by
  unfold compareBlocks
  split
  next less => simp [UInt64.le_of_lt less]
  next notLess =>
    split
    next same => simp [same]
    next differ =>
      simp only [Int.reduceLE, false_iff]
      intro le
      exact notLess (UInt64.lt_of_le_of_ne le differ)

/-- The array as `qsort` leaves it, when `view` gives the block behind each pointer. -/
def sorted (view : BlockId → Block) (arr : List BlockId) : List (BlockId × Block) :=
  (arr.map fun b => (b, view b)).mergeSort fun b1 b2 => compareBlocks b1.2 b2.2 ≤ 0

theorem sortBlocks_eq {view : BlockId → Block} {arr : List BlockId}
    (held : ∀ b ∈ arr, blocks.get b = some (view b)) :
    sortBlocks blocks arr = .ok ((sorted view arr).map Prod.fst) := by
  have data : (arr.mapM fun b => (deref blocks b).map (Prod.mk b)) = .ok (arr.map fun b => (b, view b)) := by
    apply mapM_ok
    intro b member
    rw [deref, held b member]
    rfl
  rw [sortBlocks, data, ok_bind]
  rfl

theorem sorted_perm {view : BlockId → Block} (arr : List BlockId) : ((sorted view arr).map Prod.fst).Perm arr := by
  have perm := (List.mergeSort_perm (arr.map fun b => (b, view b)) fun b1 b2 => compareBlocks b1.2 b2.2 ≤ 0).map Prod.fst
  rwa [List.map_map, show (Prod.fst ∘ fun b => (b, view b)) = id from rfl, List.map_id] at perm

/-- Each pointer is still beside its own block. -/
theorem mem_sorted {view : BlockId → Block} {arr : List BlockId} {x : BlockId × Block} (member : x ∈ sorted view arr) :
    x.2 = view x.1 := by
  obtain ⟨b, _, rfl⟩ := List.mem_map.mp ((List.mergeSort_perm _ _).mem_iff.mp member)
  rfl

theorem sorted_pairwise (view : BlockId → Block) (arr : List BlockId) :
    (sorted view arr).Pairwise fun x y => x.2.addr ≤ y.2.addr := by
  have total : ∀ a b : BlockId × Block,
      (decide (compareBlocks a.2 b.2 ≤ 0) || decide (compareBlocks b.2 a.2 ≤ 0)) = true := by
    intro a b
    simp only [compareBlocks_le, Bool.or_eq_true, decide_eq_true_eq]
    exact UInt64.le_total _ _
  have transitive : ∀ a b c : BlockId × Block, decide (compareBlocks a.2 b.2 ≤ 0) = true →
      decide (compareBlocks b.2 c.2 ≤ 0) = true → decide (compareBlocks a.2 c.2 ≤ 0) = true := by
    intro a b c
    simp only [compareBlocks_le, decide_eq_true_eq]
    exact UInt64.le_trans
  have ordered := List.pairwise_mergeSort transitive total (arr.map fun b => (b, view b))
  exact ordered.imp fun le => compareBlocks_le.mp (of_decide_eq_true le)

theorem sortBlocks_ok {view : BlockId → Block} {arr : List BlockId} (held : ∀ b ∈ arr, blocks.get b = some (view b))
    (distinct : arr.Pairwise fun b c => (view b).addr ≠ (view c).addr) :
    ∃ inOrder, sortBlocks blocks arr = .ok inOrder ∧ inOrder.Perm arr ∧
      inOrder.Pairwise fun b c => (view b).addr < (view c).addr := by
  have perm := @sorted_perm view arr
  refine ⟨_, sortBlocks_eq held, perm, ?_⟩
  have distinctSorted : ((sorted view arr).map Prod.fst).Pairwise fun b c => (view b).addr ≠ (view c).addr :=
    (perm.pairwise_iff Ne.symm).mpr distinct
  rw [List.pairwise_map] at distinctSorted ⊢
  refine ((sorted_pairwise view arr).and distinctSorted).imp_of_mem ?_
  rintro x y memberX memberY ⟨le, differ⟩
  rw [mem_sorted memberX, mem_sorted memberY] at le
  exact UInt64.lt_of_le_of_ne le differ

theorem leaksSweep_ok {arr : List BlockId} (distinct : arr.Nodup) (isMarked : BlockId → Bool)
    (held : ∀ b ∈ arr, ∃ block, blocks.get b = some block ∧ block.flags.marked = isMarked b) {i : ℕ}
    (fits : i + arr.length < 2 ^ 31) (result : List BlockId) :
    ∃ later, leaksSweep i arr (blocks, result) = .ok (later, (arr.filter fun b => !isMarked b).reverse ++ result) := by
  induction arr generalizing blocks i result with
  | nil => exact ⟨blocks, rfl⟩
  | cons b arr inductionHypothesis =>
    obtain ⟨fresh, distinct⟩ := List.nodup_cons.mp distinct
    obtain ⟨block, live, flag⟩ := held b (by simp)
    rw [List.length_cons] at fits
    have counted : increment i = .ok (i + 1) := by rw [increment, if_neg (by omega)]
    rw [leaksSweep, sweepBlock, deref, live]
    simp only [ok_bind, flag]
    by_cases marked : isMarked b = true
    · obtain ⟨released, ran⟩ := Store.exists_release live
      have heldReleased : ∀ c ∈ arr, ∃ block, released.get c = some block ∧ block.flags.marked = isMarked c := by
        intro c member
        rw [Store.get_release_of_ne ran (by rintro rfl; exact fresh member)]
        exact held c (by simp [member])
      obtain ⟨later, ranRest⟩ := inductionHypothesis distinct heldReleased (show i + 1 + arr.length < _ by omega) result
      refine ⟨later, ?_⟩
      rw [if_pos marked, blockUnref, ran, List.filter_cons_of_neg (by simp [marked])]
      simp only [ok_bind, counted, ranRest]
    · obtain ⟨later, ranRest⟩ := inductionHypothesis distinct (fun c member => held c (by simp [member]))
        (show i + 1 + arr.length < _ by omega) (b :: result)
      refine ⟨later, ?_⟩
      rw [if_neg marked, List.filter_cons_of_pos (by simp [marked])]
      simp only [ok_bind, counted, ranRest, List.reverse_cons, List.append_assoc, List.singleton_append]

/-- The sweep never comes to the end of an array that its `int` cannot index. -/
theorem leaksSweep_fits {arr : List BlockId} {i : ℕ} (start : i < 2 ^ 31) {list later : BlockList}
    (ran : leaksSweep i arr list = .ok later) : i + arr.length < 2 ^ 31 := by
  induction arr generalizing i list with
  | nil => simpa using start
  | cons b arr inductionHypothesis =>
    rw [leaksSweep] at ran
    obtain ⟨_, _, ran⟩ := ok_of_bind ran
    obtain ⟨j, counted, ran⟩ := ok_of_bind ran
    unfold increment at counted
    split at counted
    · cases counted
    · cases counted
      have := inductionHypothesis (by omega) ran
      rw [List.length_cons]
      omega

end Around

/-! ## The result -/

/-- A word of `scanned` points into `block`. -/
def PointsInto (target : Target) (scanned block : Block) : Prop :=
  ∃ i < scanned.size.toNat / sizeofPointer, ∃ word,
    target.peekData (wordAddr scanned i) = some word ∧ Contains block word

/-- The blocks of a table that the roots reach, directly or through other blocks of it. -/
inductive Reached (target : Target) (blocks : Store Block) (held : List BlockId) : BlockId → Prop
  | root {root block : Block} {b : BlockId} (isRoot : root ∈ target.roots) (member : b ∈ held)
      (live : blocks.get b = some block) (points : PointsInto target root block) : Reached target blocks held b
  | block {scanned block : Block} {a b : BlockId} (reached : Reached target blocks held a)
      (source : blocks.get a = some scanned) (member : b ∈ held) (live : blocks.get b = some block)
      (points : PointsInto target scanned block) : Reached target blocks held b

theorem Reached.mem {target : Target} {blocks : Store Block} {held : List BlockId} {b : BlockId}
    (reached : Reached target blocks held b) : b ∈ held := by
  cases reached with
  | root _ member => exact member
  | block _ _ member => exact member

/-- The blocks of a table are apart from each other, small and not roots; they may be
marked. -/
structure Scannable (blocks : Store Block) (held : List BlockId) : Prop where
  live : ∀ b ∈ held, ∃ block, blocks.get b = some block ∧ block.flags.isRoot = false ∧
    block.size.toNat < 2 ^ 32 - 3 ∧ block.addr.toNat + block.size.toNat < 2 ^ 64
  apart : held.Pairwise fun b c => ∀ block other, blocks.get b = some block → blocks.get c = some other →
    Before block other ∨ Before other block

/-- What `leaks_find` has made when it starts to mark: the sorted array, the store and the
roots `ids` of `block_list`. -/
structure Started (world : World) (process : MPProcess) (target : Target) (view : BlockId → Block)
    (arr ids : List BlockId) (blocks : Store Block) : Prop where
  perm : arr.Perm process.held
  layout : arr.length < 2 ^ 31 → Layout view arr
  visible : Shows view (arr ++ ids) ∅ blocks
  held : ∀ b ∈ arr, ∃ block, world.blocks.get b = some block ∧ view b = prepared block
  fromRoots : ∀ b ∈ ids, view b ∈ target.roots
  allRoots : ∀ root ∈ target.roots, ∃ b ∈ ids, view b = root

/-- Stacks and data sections are made alike. -/
theorem roots_made {target : Target} {root : Block} (isRoot : root ∈ target.roots) :
    root.refcount = 1 ∧ root.flags.isRoot = true ∧ root.flags.marked = false := by
  rcases List.mem_append.mp isRoot with stack | data
  · obtain ⟨stat, _, made⟩ := List.mem_filterMap.mp stack
    rcases stat with _ | ⟨startStack, endStack⟩
    · cases made
    · obtain ⟨map, _, made⟩ := List.exists_of_findSome?_eq_some made
      unfold stackRoot at made
      split at made <;> cases made
      exact ⟨rfl, rfl, rfl⟩
  · obtain ⟨part, _, rfl⟩ := List.mem_map.mp data
    exact ⟨rfl, rfl, rfl⟩

/-- The blocks of a table, of which no two start at the same address and none is a root. -/
structure Listed (blocks : Store Block) (held : List BlockId) : Prop where
  live : ∀ b ∈ held, ∃ block, blocks.get b = some block ∧ block.flags.isRoot = false
  distinct : held.Pairwise fun b c => ∀ block other, blocks.get b = some block → blocks.get c = some other →
    block.addr ≠ other.addr

theorem Listed.nodup {blocks : Store Block} {held : List BlockId} (listed : Listed blocks held) : held.Nodup := by
  refine listed.distinct.imp_of_mem ?_
  rintro b c memberB _ distinct rfl
  obtain ⟨block, live, _⟩ := listed.live b memberB
  exact distinct block block live live rfl

theorem Scannable.listed {blocks : Store Block} {held : List BlockId} (scannable : Scannable blocks held) :
    Listed blocks held where
  live b member := (scannable.live b member).imp fun _ facts => ⟨facts.1, facts.2.1⟩
  distinct := scannable.apart.imp fun apart block other live live' same => by
    rcases apart block other live live' with before | before <;> exact absurd before.1 (by rw [same]; exact UInt64.lt_irrefl _)

/-- The array is in the order of the addresses, even if some of its blocks overlap. -/
structure Begun (world : World) (process : MPProcess) (target : Target) (view : BlockId → Block)
    (arr ids : List BlockId) (blocks : Store Block) : Prop where
  perm : arr.Perm process.held
  sorted : arr.Pairwise fun b c => (view b).addr < (view c).addr
  visible : Shows view (arr ++ ids) ∅ blocks
  held : ∀ b ∈ arr, ∃ block, world.blocks.get b = some block ∧ view b = prepared block
  fromRoots : ∀ b ∈ ids, view b ∈ target.roots
  allRoots : ∀ root ∈ target.roots, ∃ b ∈ ids, view b = root

section Result

variable {world : World} {p : ProcId} {process : MPProcess} {target : Target}

theorem leaksFind_begun (found : world.process p = .ok process) (listed : Listed world.blocks process.held)
    (target : Target) : ∃ view arr ids blocks, Begun world process target view arr ids blocks ∧
      ∀ fuel, leaksFind fuel world p target = (do
        let blocks ← leaksMark fuel target arr fuel (blocks, ids)
        let (blocks, result) ← leaksSweep 0 arr (blocks, [])
        .ok ({ world.setProcess p (getBlockTable process) with blocks := blocks }, result)) := by
  obtain ⟨ready, ranPrepare, getReady⟩ := prepare_ok listed.nodup listed.live []
  obtain ⟨blocks, ids, ranRoots, keeps, fromRoots, allRoots⟩ := addRoots_ok target.roots ready []
  rw [List.append_nil] at ranRoots
  rw [List.nil_append] at ranPrepare
  let view : BlockId → Block := fun b => (blocks.get b).getD (dataRoot 0 0)
  have viewEq : ∀ {b block}, blocks.get b = some block → view b = block := by
    intro b block live
    simp only [view, live, Option.getD_some]
  have viewHeld : ∀ b ∈ process.held, ∃ block, world.blocks.get b = some block ∧
      ready.get b = some (prepared block) ∧ blocks.get b = some (prepared block) ∧ view b = prepared block := by
    intro b member
    obtain ⟨block, live, _⟩ := listed.live b member
    have readyB : ready.get b = some (prepared block) := by rw [getReady, if_pos member, live, Option.map_some]
    exact ⟨block, live, readyB, keeps b _ readyB, viewEq (keeps b _ readyB)⟩
  have distinct : process.held.Pairwise fun b c => (view b).addr ≠ (view c).addr := by
    refine listed.distinct.imp_of_mem ?_
    intro b c memberB memberC distinct
    obtain ⟨blockB, liveB, _, _, viewB⟩ := viewHeld b memberB
    obtain ⟨blockC, liveC, _, _, viewC⟩ := viewHeld c memberC
    rw [viewB, viewC]
    exact distinct blockB blockC liveB liveC
  have readyView : ∀ b ∈ process.held, ready.get b = some (view b) := by
    intro b member
    obtain ⟨block, _, readyB, _, viewB⟩ := viewHeld b member
    rw [readyB, viewB]
  obtain ⟨arr, ranSort, perm, sorted⟩ := sortBlocks_ok readyView distinct
  refine ⟨view, arr, ids, blocks, ⟨perm, sorted, ?_, ?_, ?_, ?_⟩, ?_⟩
  · intro b known
    rcases List.mem_append.mp known with member | member
    · obtain ⟨block, _, _, blocksB, viewB⟩ := viewHeld b (perm.mem_iff.mp member)
      rw [blocksB, shown, viewB]
      simp [prepared]
    · obtain ⟨root, isRoot, blocksB⟩ := fromRoots b member
      rw [blocksB, shown, viewEq blocksB]
      have unmarked := (roots_made isRoot).2.2
      obtain ⟨⟨marked, isRootFlag⟩, addr, size, stack, refcount⟩ := root
      simp only at unmarked
      simp [unmarked]
  · intro b member
    obtain ⟨block, live, _, _, viewB⟩ := viewHeld b (perm.mem_iff.mp member)
    exact ⟨block, live, viewB⟩
  · intro b member
    obtain ⟨root, isRoot, blocksB⟩ := fromRoots b member
    rwa [viewEq blocksB]
  · intro root isRoot
    obtain ⟨b, member, blocksB⟩ := allRoots root isRoot
    exact ⟨b, member, viewEq blocksB⟩
  · intro fuel
    have blocksSame : (world.setProcess p (getBlockTable process)).blocks = world.blocks := rfl
    rw [leaksFind, found, ok_bind]
    simp only [blocksSame, ranPrepare, ok_bind, ranSort, addRoots_eq, ranRoots]

/-- Of two blocks that do not overlap, the one with the smaller address is before the other. -/
theorem Begun.started {view : BlockId → Block} {arr ids : List BlockId} {blocks : Store Block}
    (begun : Begun world process target view arr ids blocks) (scannable : Scannable world.blocks process.held) :
    Started world process target view arr ids blocks := by
  have live : ∀ b ∈ arr, ∃ block, world.blocks.get b = some block ∧ view b = prepared block ∧
      block.flags.isRoot = false ∧ block.addr.toNat + block.size.toNat < 2 ^ 64 := by
    intro b member
    obtain ⟨block, live, viewB⟩ := begun.held b member
    obtain ⟨_, live', plain, _, bounded⟩ := scannable.live b (begun.perm.mem_iff.mp member)
    rw [live] at live'
    cases live'
    exact ⟨block, live, viewB, plain, bounded⟩
  refine ⟨begun.perm, fun fits => ⟨fits, ?_, ?_, ?_⟩, begun.visible, begun.held, begun.fromRoots, begun.allRoots⟩
  · have apart : arr.Pairwise fun b c => ∀ block other, world.blocks.get b = some block →
        world.blocks.get c = some other → Before block other ∨ Before other block := by
      refine (begun.perm.pairwise_iff ?_).mpr scannable.apart
      exact fun apart block other live live' => (apart other block live' live).symm
    refine (begun.sorted.and apart).imp_of_mem ?_
    rintro b c memberB memberC ⟨less, apart⟩
    obtain ⟨blockB, liveB, viewB, _⟩ := live b memberB
    obtain ⟨blockC, liveC, viewC, _⟩ := live c memberC
    rw [viewB, viewC] at less ⊢
    rcases apart blockB blockC liveB liveC with before | after
    · exact before
    · exact absurd after.1 (UInt64.not_lt.mpr (UInt64.le_of_lt less))
  · intro b member
    obtain ⟨block, _, viewB, _, bounded⟩ := live b member
    rw [viewB]
    exact bounded
  · intro b member
    obtain ⟨block, _, viewB, plain, _⟩ := live b member
    simp only [viewB, prepared, plain]

theorem leaksFind_started (found : world.process p = .ok process) (scannable : Scannable world.blocks process.held)
    (target : Target) : ∃ view arr ids blocks, Started world process target view arr ids blocks ∧
      ∀ fuel, leaksFind fuel world p target = (do
        let blocks ← leaksMark fuel target arr fuel (blocks, ids)
        let (blocks, result) ← leaksSweep 0 arr (blocks, [])
        .ok ({ world.setProcess p (getBlockTable process) with blocks := blocks }, result)) := by
  obtain ⟨view, arr, ids, blocks, begun, ran⟩ := leaksFind_begun found scannable.listed target
  exact ⟨view, arr, ids, blocks, begun.started scannable, ran⟩

theorem mem_next {view : BlockId → Block} {arr : List BlockId} (layout : Layout view arr)
    (readable : ∀ addr, (target.peekData addr).isSome = true) {a b : BlockId} :
    b ∈ next target view arr a ↔ b ∈ arr ∧ PointsInto target (view a) (view b) := by
  rw [next, List.mem_filterMap]
  constructor
  · rintro ⟨word, isWord, found⟩
    obtain ⟨i, inside, rfl⟩ := List.mem_map.mp isWord
    obtain ⟨word, read⟩ := Option.isSome_iff_exists.mp (readable (wordAddr (view a) i))
    rw [read, Option.getD_some] at found
    have contains : Contains (view b) word := by simpa using List.find?_some found
    exact ⟨lookup_mem found, i, List.mem_range.mp inside, word, read, contains⟩
  · rintro ⟨member, i, inside, word, read, contains⟩
    obtain ⟨j, insideJ, rfl⟩ := List.getElem_of_mem member
    refine ⟨word, List.mem_map.mpr ⟨i, List.mem_range.mpr inside, by rw [read, Option.getD_some]⟩, ?_⟩
    exact lookup_eq_some layout insideJ contains

/-- The abstract marking reaches the same blocks. -/
theorem Started.reached_iff {view : BlockId → Block} {arr ids : List BlockId} {blocks : Store Block}
    (started : Started world process target view arr ids blocks) (layout : Layout view arr)
    (readable : ∀ addr, (target.peekData addr).isSome = true) (b : BlockId) :
    Worklist.Reached (next target view arr) ids b ↔ Reached target world.blocks process.held b := by
  constructor
  · rintro ⟨root, isRoot, path⟩
    induction path with
    | single edge =>
      obtain ⟨member, points⟩ := (mem_next layout readable).mp edge
      obtain ⟨block, live, viewB⟩ := started.held _ member
      rw [viewB] at points
      exact .root (started.fromRoots root isRoot) (started.perm.mem_iff.mp member) live points
    | tail _ edge inductionHypothesis =>
      obtain ⟨member, points⟩ := (mem_next layout readable).mp edge
      obtain ⟨block, live, viewB⟩ := started.held _ member
      obtain ⟨scanned, liveA, viewA⟩ := started.held _ (started.perm.mem_iff.mpr inductionHypothesis.mem)
      rw [viewA, viewB] at points
      exact .block inductionHypothesis liveA (started.perm.mem_iff.mp member) live points
  · intro reached
    induction reached with
    | root isRoot member live points =>
      obtain ⟨r, inList, rfl⟩ := started.allRoots _ isRoot
      have member := started.perm.mem_iff.mpr member
      obtain ⟨_, live', viewB⟩ := started.held _ member
      rw [live] at live'
      cases live'
      exact ⟨r, inList, .single ((mem_next layout readable).mpr ⟨member, by rw [viewB]; exact points⟩)⟩
    | block reached source member live points inductionHypothesis =>
      obtain ⟨root, isRoot, path⟩ := inductionHypothesis
      have member := started.perm.mem_iff.mpr member
      obtain ⟨_, live', viewB⟩ := started.held _ member
      rw [live] at live'
      cases live'
      obtain ⟨_, source', viewA⟩ := started.held _ (started.perm.mem_iff.mpr reached.mem)
      rw [source] at source'
      cases source'
      exact ⟨root, isRoot, path.tail ((mem_next layout readable).mpr ⟨member, by rw [viewA, viewB]; exact points⟩)⟩

/-- With fewer than `2 ^ 31` blocks the marking ends and the sweep finds the others. -/
theorem Started.leaksFind_ok {view : BlockId → Block} {arr ids : List BlockId} {blocks : Store Block}
    (started : Started world process target view arr ids blocks) (distinct : process.held.Nodup)
    (layout : Layout view arr) (readable : ∀ addr, (target.peekData addr).isSome = true)
    (small : ∀ b ∈ arr ++ ids, (view b).size.toNat < 2 ^ 32 - 3) :
    ∃ fuel marks later result, leaksMark fuel target arr fuel (blocks, ids) = .ok marks ∧
      leaksSweep 0 arr (marks, []) = .ok (later, result) ∧ result.Nodup ∧
      ∀ b, b ∈ result ↔ b ∈ process.held ∧ ¬ Reached target world.blocks process.held b := by
  have array : ∀ b ∈ arr, b ∈ arr ++ ids := fun b member => List.mem_append_left ids member
  have inside : ∀ a, ∀ b ∈ next target view arr a, b ∈ arr.toFinset := by
    intro a b member
    exact List.mem_toFinset.mpr ((mem_next layout readable).mp member).1
  have bound : ids.length + (arr.toFinset \ ∅).card < ids.length + arr.length + 1 := by
    have := List.toFinset_card_le arr
    rw [Finset.sdiff_empty]
    omega
  obtain ⟨marked, finished⟩ : ∃ marked,
      Worklist.mark (next target view arr) (ids.length + arr.length + 1) ⟨ids, ∅⟩ = some marked :=
    Worklist.mark_terminates inside bound
  have simulates : Simulates view (arr ++ ids) ⟨ids, ∅⟩ (blocks, ids) :=
    ⟨rfl, started.visible, fun b member => List.mem_append_right arr member⟩
  have searches : Searches (ids.length + arr.length + 1) view (arr ++ ids) arr (lookup view arr) := by
    rw [← lookupLast_eq_lookup layout]
    exact searches_last layout.ascending array layout.plain (by omega)
  have known : ∀ b, b ∈ ids ∨ b ∈ marked → (view b).size.toNat < 2 ^ 32 - 3 := by
    rintro b (isRoot | isMarked)
    · exact small b (List.mem_append_right arr isRoot)
    · obtain ⟨root, isRoot, path⟩ := (Worklist.mark_reached Worklist.invariant_start finished b).mp isMarked
      obtain ⟨_, _, edge⟩ := Relation.TransGen.tail'_iff.mp path
      exact small b (array b ((mem_next layout readable).mp edge).1)
  obtain ⟨marks, ranMark, visible⟩ := leaksMark_ok searches readable simulates finished known
  have flags : ∀ b ∈ arr, ∃ block, marks.get b = some block ∧ block.flags.marked = decide (b ∈ marked) :=
    fun b member => ⟨_, visible b (array b member), rfl⟩
  have arrNodup : arr.Nodup := started.perm.nodup_iff.mpr distinct
  have fits : 0 + arr.length < 2 ^ 31 := by simpa using layout.fits
  obtain ⟨later, ranSweep⟩ := leaksSweep_ok arrNodup _ flags fits []
  refine ⟨_, marks, later, _, ranMark, ranSweep, ?_, ?_⟩
  · rw [List.append_nil, List.nodup_reverse]
    exact arrNodup.filter _
  · intro b
    have reached := (Worklist.mark_reached Worklist.invariant_start finished b).trans
      (started.reached_iff layout readable b)
    rw [List.append_nil, List.mem_reverse, List.mem_filter, started.perm.mem_iff]
    simp [reached]

/-- `leaks_find` returns every block that the roots do not reach, and each of them once, if
and only if its `int` can count the blocks of the table. -/
theorem leaks_find_iff (found : world.process p = .ok process) (scannable : Scannable world.blocks process.held)
    (readable : ∀ addr, (target.peekData addr).isSome = true) (roots : ∀ root ∈ target.roots, root.size.toNat < 2 ^ 32 - 3) :
    (∃ fuel later result, leaksFind fuel world p target = .ok (later, result) ∧ result.Nodup ∧
      ∀ b, b ∈ result ↔ b ∈ process.held ∧ ¬ Reached target world.blocks process.held b) ↔
      process.held.length < 2 ^ 31 := by
  obtain ⟨view, arr, ids, blocks, started, ran⟩ := leaksFind_started found scannable target
  constructor
  · rintro ⟨fuel, later, result, returned, _⟩
    rw [ran] at returned
    obtain ⟨marks, _, returned⟩ := ok_of_bind returned
    obtain ⟨swept, ranSweep, _⟩ := ok_of_bind returned
    have fits := leaksSweep_fits (by norm_num) ranSweep
    rwa [Nat.zero_add, started.perm.length_eq] at fits
  · intro fits
    have layout := started.layout (by rwa [started.perm.length_eq])
    have small : ∀ b ∈ arr ++ ids, (view b).size.toNat < 2 ^ 32 - 3 := by
      intro b known
      rcases List.mem_append.mp known with member | member
      · obtain ⟨block, live, viewB⟩ := started.held b member
        obtain ⟨_, live', _, small, _⟩ := scannable.live b (started.perm.mem_iff.mp member)
        rw [live] at live'
        cases live'
        rw [viewB]
        exact small
      · exact roots _ (started.fromRoots b member)
    obtain ⟨fuel, marks, later, result, ranMark, ranSweep, distinct, unreached⟩ :=
      started.leaksFind_ok scannable.listed.nodup layout readable small
    refine ⟨fuel, { world.setProcess p (getBlockTable process) with blocks := later }, result, ?_, distinct,
      unreached⟩
    rw [ran, ranMark, ok_bind, ranSweep]
    rfl

end Result

/-! ## A heap of `n` blocks of eight bytes -/

def heapAddr (i : ℕ) : Addr := UInt64.ofNat (16 * (i + 1))

def heapBlock (i : ℕ) : Block := { addr := heapAddr i, size := 8, stack := none }

theorem heapBlock_size (i : ℕ) : (heapBlock i).size.toNat = 8 := rfl

theorem toNat_heapAddr {i : ℕ} (small : i < 2 ^ 31) : (heapAddr i).toNat = 16 * (i + 1) := by
  rw [heapAddr, UInt64.toNat_ofNat']
  omega

def heapTable (n : ℕ) (small : n ≤ 2 ^ 31) : BlockTable where
  entries := (List.range n).map fun i => ⟨heapAddr i, i⟩
  nodupKeys := by
    rw [List.NodupKeys, List.keys, List.map_map]
    apply List.nodup_range.map_on
    intro i memberI j memberJ same
    have := congrArg UInt64.toNat same
    simp only [Function.comp_apply] at this
    rw [toNat_heapAddr (by have := List.mem_range.mp memberI; omega),
      toNat_heapAddr (by have := List.mem_range.mp memberJ; omega)] at this
    omega

def heapProcess (n : ℕ) (small : n ≤ 2 ^ 31) : MPProcess := { blockTable := some (heapTable n small) }

def heap (n : ℕ) (small : n ≤ 2 ^ 31) : World where
  blocks := ⟨(List.range n).map fun i => some (heapBlock i)⟩
  processes := [heapProcess n small]

section Heap

variable {n : ℕ} (small : n ≤ 2 ^ 31)

theorem heap_held : (heapProcess n small).held = List.range n := by
  show ((List.range n).map fun i => (⟨heapAddr i, i⟩ : Sigma fun _ : Addr => BlockId)).map (·.2) = _
  rw [List.map_map]
  exact List.map_id _

theorem heap_get {b : BlockId} (inside : b < n) : (heap n small).blocks.get b = some (heapBlock b) := by
  show ((List.range n).map fun i => some (heapBlock i))[b]?.join = _
  rw [List.getElem?_map, List.getElem?_range inside]
  rfl

theorem heap_scannable : Scannable (heap n small).blocks (heapProcess n small).held where
  live b member := by
    rw [heap_held, List.mem_range] at member
    refine ⟨heapBlock b, heap_get small member, rfl, by rw [heapBlock_size]; decide, ?_⟩
    rw [heapBlock_size, heapBlock, toNat_heapAddr (by omega)]
    omega
  apart := by
    rw [heap_held]
    refine List.pairwise_lt_range.imp_of_mem ?_
    intro b c memberB memberC less block other liveB liveC
    have insideC := List.mem_range.mp memberC
    rw [heap_get small (List.mem_range.mp memberB)] at liveB
    rw [heap_get small insideC] at liveC
    cases liveB
    cases liveC
    left
    rw [Before, UInt64.lt_iff_toNat_lt, heapBlock_size]
    simp only [heapBlock]
    rw [toNat_heapAddr (by omega), toNat_heapAddr (by omega)]
    omega

end Heap

/-- All words are `16`, the address of the first block; the data segment has one of them. -/
def pointing : Target where
  sections := [(4096, 8)]
  peekData _ := some 16

theorem leaks_find_iff_pointing : (∃ fuel later result,
    leaksFind fuel (heap 2 (by decide)) 0 pointing = .ok (later, result) ∧ result.Nodup ∧ ∀ b, b ∈ result ↔
      b ∈ (heapProcess 2 (by decide)).held ∧
        ¬ Reached pointing (heap 2 (by decide)).blocks (heapProcess 2 (by decide)).held b) ↔
      (heapProcess 2 (by decide)).held.length < 2 ^ 31 :=
  leaks_find_iff rfl (heap_scannable _) (fun _ => rfl) (by decide)

/-- With `2 ^ 31` blocks the sweep does not end. -/
theorem leaks_find_overflows : ¬ ∀ (world : World) (p : ProcId) (process : MPProcess) (target : Target),
    world.process p = .ok process → Scannable world.blocks process.held →
    (∀ addr, (target.peekData addr).isSome = true) → (∀ root ∈ target.roots, root.size.toNat < 2 ^ 32 - 3) →
    ∃ fuel later result, leaksFind fuel world p target = .ok (later, result) ∧ result.Nodup ∧
      ∀ b, b ∈ result ↔ b ∈ process.held ∧ ¬ Reached target world.blocks process.held b := by
  intro claim
  obtain ⟨n, isLarge⟩ : ∃ n, n = 2 ^ 31 := ⟨_, rfl⟩
  have found : (heap n (Nat.le_of_eq isLarge)).process 0 = .ok (heapProcess n (Nat.le_of_eq isLarge)) := rfl
  have scannable := heap_scannable (Nat.le_of_eq isLarge)
  have readable : ∀ addr, (pointing.peekData addr).isSome = true := fun _ => rfl
  have roots : ∀ root ∈ pointing.roots, root.size.toNat < 2 ^ 32 - 3 := by decide
  have fits := (leaks_find_iff found scannable readable roots).mp (claim _ _ _ _ found scannable readable roots)
  rw [heap_held, List.length_range, isLarge] at fits
  exact absurd fits (Nat.lt_irrefl _)

end Memprof.Leaks
