import Memprof.Verified.Keeping
import Memprof.Verified.Leaks

/-! # Blocks whose extent is empty

A `Block` has the low half of the size that was asked for, and `find_block` takes its end
modulo the width of an address.  A block whose extent is empty then is not found even for
its own address, and is always a leak.
-/

namespace Memprof.Leaks

open Library Accounting

/-! ## The blocks of a run -/

/-- Nothing that a connection sends makes roots or marks. -/
def Plain (block : Block) : Prop := block.flags = {}

theorem plain_setRefs (n : ℤ) (block : Block) (plain : Plain block) : Plain (RefCounted.setRefs n block) := plain

/-- A listed block is plain, and its count is all that changes. -/
theorem kept_plain : Keeping.Kept fun blocks _ => blocks.All Plain where
  release plain released := plain.release plain_setRefs released
  erase plain _ := plain
  insert plain _ _ _ := plain.alloc rfl

theorem perform_plain {world later : World} (plain : world.blocks.All Plain) {operation : Operation}
    (performed : perform world operation = .ok later) : later.blocks.All Plain :=
  Keeping.perform_kept kept_plain plain (fun _ _ _ _ _ _ _ retained => plain.retainAll plain_setRefs retained) performed

theorem run_plain {operations : List Operation} {world : World} (ran : run operations = .ok world) :
    world.blocks.All Plain := by
  have ensured : Ensures (fun _ => True) (run operations) fun world => world.blocks.All Plain := by
    apply ensures_foldlM _ fun _ _ live => nomatch live
    intro earlier operation _ plain
    cases performed : perform earlier operation with
    | error _ => exact ensures_error trivial
    | ok later => exact ensures_ok (perform_plain plain performed)
  exact ensured.of_ok ran

/-- A table of a run names every block by its own address. -/
theorem run_listed {operations : List Operation} {world : World} (ran : run operations = .ok world)
    {process : MPProcess} (member : process ∈ world.processes) : Listed world.blocks process.held where
  live b held := by
    have referenced := (run_sound ran).sharedBlocks.refs_pos (List.mem_map_of_mem member) held
    obtain ⟨block, live⟩ := Store.exists_get_of_refs_pos referenced
    refine ⟨block, live, ?_⟩
    rw [show block.flags = {} from run_plain ran b block live]
  distinct := by
    rw [MPProcess.held, HashTable.values, List.pairwise_map]
    refine (List.nodupKeys_iff_pairwise.mp process.table.nodupKeys).imp_of_mem ?_
    rintro ⟨key, b⟩ ⟨key', c⟩ entryB entryC differ block other live live' same
    have keyed := (run_sound ran).keyed process member
    obtain ⟨_, found, addr⟩ := keyed key b (HashTable.mem_entries_iff.mp entryB)
    obtain ⟨_, found', addr'⟩ := keyed key' c (HashTable.mem_entries_iff.mp entryC)
    rw [live] at found
    rw [live'] at found'
    cases found
    cases found'
    exact differ (by rw [← addr, ← addr', same])

/-! ## The words that are seen -/

/-- The block is the last one that does not start above the word, which lies in its extent. -/
structure Hits (blocks : Store Block) (held : List BlockId) (word : Addr) (b : BlockId) : Prop where
  member : b ∈ held
  extent : ∃ block, blocks.get b = some block ∧ block.addr ≤ word ∧ word < block.addr + block.size.toUInt64 ∧
    ∀ c ∈ held, ∀ other, blocks.get c = some other → other.addr ≤ word → other.addr ≤ block.addr

/-- The words of the roots, and those of the blocks that are found for such words. -/
inductive Seen (target : Target) (blocks : Store Block) (held : List BlockId) : Addr → Prop
  | root {root : Block} {word : Addr} (isRoot : root ∈ target.roots) (isWord : word ∈ words target root) :
      Seen target blocks held word
  | block {pointer word : Addr} {a : BlockId} {scanned : Block} (seen : Seen target blocks held pointer)
      (hits : Hits blocks held pointer a) (source : blocks.get a = some scanned) (isWord : word ∈ words target scanned) :
      Seen target blocks held word

section Begun

variable {world : World} {process : MPProcess} {target : Target} {view : BlockId → Block} {arr ids : List BlockId}
  {blocks : Store Block}

theorem Begun.hits_iff (begun : Begun world process target view arr ids blocks) {word : Addr} {b : BlockId} :
    Hits world.blocks process.held word b ↔ Finds view arr word b := by
  constructor
  · rintro ⟨member, block, live, starts, extent, highest⟩
    have inArray := begun.perm.mem_iff.mpr member
    obtain ⟨_, live', viewB⟩ := begun.held b inArray
    rw [live] at live'
    cases live'
    refine ⟨inArray, by rw [viewB]; exact starts, by rw [viewB]; exact extent, fun c memberC startsC => ?_⟩
    obtain ⟨other, liveC, viewC⟩ := begun.held c memberC
    rw [viewC] at startsC ⊢
    rw [viewB]
    exact highest c (begun.perm.mem_iff.mp memberC) other liveC startsC
  · rintro ⟨inArray, starts, extent, highest⟩
    obtain ⟨block, live, viewB⟩ := begun.held b inArray
    rw [viewB] at starts extent highest
    refine ⟨begun.perm.mem_iff.mp inArray, block, live, starts, extent, fun c memberC other liveC startsC => ?_⟩
    obtain ⟨_, liveC', viewC⟩ := begun.held c (begun.perm.mem_iff.mpr memberC)
    rw [liveC] at liveC'
    cases liveC'
    have below := highest c (begun.perm.mem_iff.mpr memberC)
    rw [viewC] at below
    exact below startsC

theorem Begun.reached_iff (begun : Begun world process target view arr ids blocks) (ascending : Ascending view arr)
    (b : BlockId) : Worklist.Reached (successors target view (lookupLast view arr)) ids b ↔
      ∃ word, Seen target world.blocks process.held word ∧ Hits world.blocks process.held word b := by
  have edge : ∀ {a b}, b ∈ successors target view (lookupLast view arr) a ↔
      ∃ word ∈ words target (view a), Hits world.blocks process.held word b := by
    intro a b
    rw [successors, List.mem_filterMap]
    simp only [lookupLast_eq_some_iff ascending.sorted, begun.hits_iff]
  constructor
  · rintro ⟨root, isRoot, path⟩
    induction path with
    | single step =>
      obtain ⟨word, isWord, hits⟩ := edge.mp step
      exact ⟨word, .root (begun.fromRoots root isRoot) isWord, hits⟩
    | tail _ step inductionHypothesis =>
      obtain ⟨pointer, seen, found⟩ := inductionHypothesis
      obtain ⟨word, isWord, hits⟩ := edge.mp step
      obtain ⟨scanned, source, viewA⟩ := begun.held _ (begun.hits_iff.mp found).1
      rw [viewA] at isWord
      exact ⟨word, .block seen found source isWord, hits⟩
  · rintro ⟨word, seen, hits⟩
    induction seen generalizing b with
    | root isRoot isWord =>
      obtain ⟨r, inList, rfl⟩ := begun.allRoots _ isRoot
      exact ⟨r, inList, .single (edge.mpr ⟨_, isWord, hits⟩)⟩
    | block _ found source isWord inductionHypothesis =>
      obtain ⟨root, isRoot, path⟩ := inductionHypothesis _ found
      obtain ⟨_, source', viewA⟩ := begun.held _ (begun.hits_iff.mp found).1
      rw [source] at source'
      cases source'
      exact ⟨root, isRoot, path.tail (edge.mpr ⟨_, by rw [viewA]; exact isWord, hits⟩)⟩

/-- None of the roots and of the blocks that are found is too large to be read. -/
structure Readable (target : Target) (blocks : Store Block) (held : List BlockId) : Prop where
  roots : ∀ root ∈ target.roots, root.size.toNat < 2 ^ 32 - 3
  found : ∀ word a scanned, Seen target blocks held word → Hits blocks held word a → blocks.get a = some scanned →
    scanned.size.toNat < 2 ^ 32 - 3

theorem Begun.plain (begun : Begun world process target view arr ids blocks) (plain : world.blocks.All Plain) :
    ∀ b ∈ arr, (view b).flags = {} := by
  intro b member
  obtain ⟨block, live, viewB⟩ := begun.held b member
  rw [viewB, prepared, show block.flags = {} from plain b block live]

theorem Begun.simulates (begun : Begun world process target view arr ids blocks) :
    Simulates view (arr ++ ids) ⟨ids, ∅⟩ (blocks, ids) :=
  ⟨rfl, begun.visible, fun _ member => List.mem_append_right arr member⟩

theorem Begun.searches (begun : Begun world process target view arr ids blocks) (plain : world.blocks.All Plain)
    (fits : arr.length < 2 ^ 31) {search : ℕ} (enough : arr.length ≤ search) :
    Searches search view (arr ++ ids) arr (lookupLast view arr) :=
  searches_last ⟨fits, begun.sorted⟩ (fun _ member => List.mem_append_left ids member) (begun.plain plain) enough

/-- What the abstract marking ends with. -/
theorem Begun.mem_marked_iff (begun : Begun world process target view arr ids blocks) (ascending : Ascending view arr)
    {fuel : ℕ} {marked : Finset BlockId}
    (finished : Worklist.mark (successors target view (lookupLast view arr)) fuel ⟨ids, ∅⟩ = some marked) (b : BlockId) :
    b ∈ marked ↔ ∃ word, Seen target world.blocks process.held word ∧ Hits world.blocks process.held word b := by
  rw [Worklist.mark_reached Worklist.invariant_start finished, begun.reached_iff ascending]

theorem marking_ends (target : Target) (view : BlockId → Block) (arr ids : List BlockId) :
    ∃ fuel marked, arr.length ≤ fuel ∧
      Worklist.mark (successors target view (lookupLast view arr)) fuel ⟨ids, ∅⟩ = some marked := by
  have inside : ∀ a, ∀ b ∈ successors target view (lookupLast view arr) a, b ∈ arr.toFinset := by
    intro a b member
    obtain ⟨word, _, found⟩ := List.mem_filterMap.mp member
    exact List.mem_toFinset.mpr (lookupLast_mem found)
  have bound : ids.length + (arr.toFinset \ ∅).card < ids.length + arr.length + 1 := by
    have := List.toFinset_card_le arr
    rw [Finset.sdiff_empty]
    omega
  obtain ⟨marked, finished⟩ := @Worklist.mark_terminates _ _ _ _ inside _ ⟨ids, ∅⟩ bound
  exact ⟨_, marked, by omega, finished⟩

/-- The blocks that are looked into are the roots and those that are found. -/
theorem Begun.small_iff (begun : Begun world process target view arr ids blocks) {marked : Finset BlockId}
    (finds : ∀ b, b ∈ marked ↔
      ∃ word, Seen target world.blocks process.held word ∧ Hits world.blocks process.held word b) :
    (∀ b, b ∈ ids ∨ b ∈ marked → (view b).size.toNat < 2 ^ 32 - 3) ↔
      Readable target world.blocks process.held := by
  constructor
  · intro small
    constructor
    · intro root isRoot
      obtain ⟨r, inList, rfl⟩ := begun.allRoots root isRoot
      exact small r (.inl inList)
    · intro word a scanned seen hits source
      have fits := small a (.inr ((finds a).mpr ⟨word, seen, hits⟩))
      obtain ⟨_, source', viewA⟩ := begun.held a (begun.perm.mem_iff.mpr hits.member)
      rw [source] at source'
      cases source'
      rwa [viewA] at fits
  · rintro small b (isRoot | isMarked)
    · exact small.roots _ (begun.fromRoots b isRoot)
    · obtain ⟨word, seen, hits⟩ := (finds b).mp isMarked
      obtain ⟨block, live, viewB⟩ := begun.held b (begun.hits_iff.mp hits).1
      rw [viewB]
      exact small.found word b block seen hits live

/-- The marking that a run of `leaksMark` has carried out. -/
theorem Begun.exists_marked (begun : Begun world process target view arr ids blocks) (plain : world.blocks.All Plain)
    (fits : arr.length < 2 ^ 31) (readable : ∀ addr, (target.peekData addr).isSome = true) {fuel : ℕ}
    {marks : Store Block} (ran : leaksMark fuel target arr fuel (blocks, ids) = .ok marks) : ∃ marked,
      (∀ b, b ∈ marked ↔
        ∃ word, Seen target world.blocks process.held word ∧ Hits world.blocks process.held word b) ∧
      Shows view (arr ++ ids) marked marks ∧ ∀ b, b ∈ ids ∨ b ∈ marked → (view b).size.toNat < 2 ^ 32 - 3 := by
  have ran := leaksMark_fuel (Nat.le_max_left fuel arr.length) target arr fuel (blocks, ids) marks ran
  obtain ⟨marked, finished, visible, small⟩ :=
    leaksMark_inv (begun.searches plain fits (Nat.le_max_right fuel arr.length)) readable begun.simulates ran
  refine ⟨marked, begun.mem_marked_iff ⟨fits, begun.sorted⟩ finished, visible, fun b known => small b ?_⟩
  exact known.imp_right fun isMarked => ⟨isMarked, Finset.notMem_empty b⟩

/-- The marking ends if and only if everything on its way can be read; it marks what is found. -/
theorem Begun.leaksMark_iff (begun : Begun world process target view arr ids blocks) (plain : world.blocks.All Plain)
    (fits : arr.length < 2 ^ 31) (readable : ∀ addr, (target.peekData addr).isSome = true) :
    ((∃ fuel marks, leaksMark fuel target arr fuel (blocks, ids) = .ok marks) ↔
      Readable target world.blocks process.held) ∧
    ∀ fuel marks, leaksMark fuel target arr fuel (blocks, ids) = .ok marks → ∀ b ∈ arr, ∃ block,
      marks.get b = some block ∧ (block.flags.marked = true ↔
        ∃ word, Seen target world.blocks process.held word ∧ Hits world.blocks process.held word b) := by
  refine ⟨⟨?_, ?_⟩, ?_⟩
  · rintro ⟨fuel, marks, ran⟩
    obtain ⟨marked, finds, _, small⟩ := begun.exists_marked plain fits readable ran
    exact (begun.small_iff finds).mp small
  · intro small
    obtain ⟨fuel, marked, enough, finished⟩ := marking_ends target view arr ids
    have finds := begun.mem_marked_iff ⟨fits, begun.sorted⟩ finished
    obtain ⟨marks, ran, _⟩ := leaksMark_ok (begun.searches plain fits enough) readable begun.simulates finished
      ((begun.small_iff finds).mpr small)
    exact ⟨fuel, marks, ran⟩
  · intro fuel marks ran b member
    obtain ⟨marked, finds, visible, _⟩ := begun.exists_marked plain fits readable ran
    refine ⟨_, visible b (List.mem_append_left ids member), ?_⟩
    rw [shown, decide_eq_true_eq, finds]

/-- What the sweep makes of the marks. -/
theorem Begun.sweep (begun : Begun world process target view arr ids blocks) (plain : world.blocks.All Plain)
    (readable : ∀ addr, (target.peekData addr).isSome = true) (distinct : arr.Nodup) {b : BlockId} (inArray : b ∈ arr)
    (fits : arr.length < 2 ^ 31) {fuel : ℕ} {marks : Store Block}
    (marking : leaksMark fuel target arr fuel (blocks, ids) = .ok marks) :
    ∃ later result, leaksSweep 0 arr (marks, []) = .ok (later, result) ∧ (b ∉ result ↔
      ∃ word, Seen target world.blocks process.held word ∧ Hits world.blocks process.held word b) := by
  have flags := (begun.leaksMark_iff plain fits readable).2 fuel marks marking
  obtain ⟨later, sweeping⟩ := leaksSweep_ok distinct (fun c => (marks.get c).any fun block => block.flags.marked)
    (fun c memberC => by obtain ⟨block, live, _⟩ := flags c memberC; exact ⟨block, live, by rw [live]; rfl⟩)
    (show 0 + arr.length < 2 ^ 31 by omega) []
  obtain ⟨block, live, marked⟩ := flags b inArray
  refine ⟨later, _, sweeping, ?_⟩
  rw [List.append_nil, List.mem_reverse, List.mem_filter, live, Option.any_some, ← marked]
  simp [inArray]

end Begun

/-- A block for whose address there is a word is not a leak if and only if its extent is
not empty, the `int` can count the blocks, and all that is looked into can be read. -/
theorem held_not_leaked_iff {operations : List Operation} {world : World} (ran : run operations = .ok world)
    {p : ProcId} {process : MPProcess} (found : world.process p = .ok process) {target : Target}
    (readable : ∀ addr, (target.peekData addr).isSome = true) {b : BlockId} (member : b ∈ process.held) {block : Block}
    (live : world.blocks.get b = some block) (seen : Seen target world.blocks process.held block.addr) :
    (∃ fuel later result, leaksFind fuel world p target = .ok (later, result) ∧ b ∉ result) ↔
      block.addr < block.addr + block.size.toUInt64 ∧ process.held.length < 2 ^ 31 ∧
        Readable target world.blocks process.held := by
  have own := World.mem_of_process found
  have listed := run_listed ran own
  have plain := run_plain ran
  obtain ⟨view, arr, ids, blocks, begun, leaks⟩ := leaksFind_begun found listed target
  have inArray := begun.perm.mem_iff.mpr member
  have distinct : arr.Nodup := begun.perm.nodup_iff.mpr listed.nodup
  constructor
  · rintro ⟨fuel, later, result, returned, kept⟩
    rw [leaks] at returned
    obtain ⟨marks, marking, returned⟩ := ok_of_bind returned
    obtain ⟨⟨_, _⟩, sweeping, returned⟩ := ok_of_bind returned
    cases returned
    have fits := leaksSweep_fits (by norm_num) sweeping
    rw [Nat.zero_add] at fits
    obtain ⟨_, _, sweeping', isKept⟩ := begun.sweep plain readable distinct inArray fits marking
    rw [sweeping] at sweeping'
    cases sweeping'
    obtain ⟨word, _, hits⟩ := isKept.mp kept
    obtain ⟨_, live', starts, extent, _⟩ := hits.extent
    rw [live] at live'
    cases live'
    exact ⟨UInt64.lt_of_le_of_lt starts extent, by rwa [← begun.perm.length_eq],
      (begun.leaksMark_iff plain fits readable).1.mp ⟨fuel, marks, marking⟩⟩
  · rintro ⟨extent, fits, small⟩
    rw [← begun.perm.length_eq] at fits
    obtain ⟨fuel, marks, marking⟩ := (begun.leaksMark_iff plain fits readable).1.mpr small
    obtain ⟨later, result, sweeping, isKept⟩ := begun.sweep plain readable distinct inArray fits marking
    refine ⟨fuel, { world.setProcess p (getBlockTable process) with blocks := later }, result, ?_, isKept.mpr ?_⟩
    · rw [leaks, marking, ok_bind, sweeping]
      rfl
    · exact ⟨block.addr, seen, member, block, live, UInt64.le_refl _, extent, fun _ _ _ _ below => below⟩

/-- A run that allocates one block, at the address that all words of `pointing` have. -/
def allocated (size : UInt64) : List Operation :=
  [.processNew, .processCommand 0 { operation := .malloc, newPtr := 16, size := size } none]

theorem seen_pointing (blocks : Store Block) (held : List BlockId) : Seen pointing blocks held 16 :=
  .root (List.mem_singleton_self _) (by decide)

theorem held_not_leaked_iff_allocated : ∃ world process, run (allocated 8) = .ok world ∧
    world.process 0 = .ok process ∧ 0 ∈ process.held ∧ ∃ block, world.blocks.get 0 = some block ∧
      ((∃ fuel later result, leaksFind fuel world 0 pointing = .ok (later, result) ∧ 0 ∉ result) ↔
        block.addr < block.addr + block.size.toUInt64 ∧ process.held.length < 2 ^ 31 ∧
          Readable pointing world.blocks process.held) := by
  have ran : run (allocated 8) = .ok _ := rfl
  exact ⟨_, _, ran, rfl, List.mem_singleton_self _, _, rfl,
    held_not_leaked_iff ran rfl (fun _ => rfl) (List.mem_singleton_self _) rfl (seen_pointing _ _)⟩

/-- A block of no bytes is a leak, whatever points at it. -/
theorem empty_block_leaked : ¬ ∀ (operations : List Operation) (world : World) (p : ProcId) (process : MPProcess)
    (target : Target) (b : BlockId) (block : Block), run operations = .ok world → world.process p = .ok process →
    (∀ addr, (target.peekData addr).isSome = true) → b ∈ process.held → world.blocks.get b = some block →
    Seen target world.blocks process.held block.addr →
    ∃ fuel later result, leaksFind fuel world p target = .ok (later, result) ∧ b ∉ result := by
  intro claim
  have ran : run (allocated 0) = .ok _ := rfl
  have kept := claim _ _ 0 _ pointing 0 _ ran rfl (fun _ => rfl) (List.mem_singleton_self _) rfl (seen_pointing _ _)
  have extent := ((held_not_leaked_iff ran rfl (fun _ => rfl) (List.mem_singleton_self _) rfl (seen_pointing _ _)).mp kept).1
  exact absurd extent (by decide)

end Memprof.Leaks
