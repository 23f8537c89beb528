import Memprof.Verified.Extents
import Memprof.Verified.Pipeline
import Memprof.Verified.Reports

/-! # Leaks of a heap

A block of the program's heap is reached from its stacks and its data by words that point into
it.  Where the table of the process says what is allocated, the blocks that `leaks_find`
returns are those of the heap that nothing reaches, and they still tell what was reported.
-/

namespace Memprof.Pipeline

open Library Blocks Accounting Serving

/-! ## What the words of a heap reach -/

namespace Heap

/-- The heap without the blocks at some addresses. -/
def without (heap : Heap) (lost : Finset Addr) : Heap := fun address => if address ∈ lost then none else heap address

/-- The word points into the block at `address`. -/
def Contains (heap : Heap) (address word : Addr) : Prop :=
  ∃ block ∈ heap address, address ≤ word ∧ word.toNat < address.toNat + block.1

/-- So does one of the words of the `size` bytes from `start` on. -/
def PointsInto (heap : Heap) (target : Target) (start : Addr) (size : ℕ) (address : Addr) : Prop :=
  ∃ i < size / sizeofPointer, ∃ word,
    target.peekData (start + UInt64.ofNat (i * sizeofPointer)) = some word ∧ heap.Contains address word

/-- The blocks that the stacks and the data of the target reach, directly or through others. -/
inductive Reached (heap : Heap) (target : Target) : Addr → Prop
  | root {root : Block} {address : Addr} (isRoot : root ∈ target.roots)
      (points : heap.PointsInto target root.addr root.size.toNat address) : Reached heap target address
  | block {source address : Addr} {block : ℕ × List Addr} (reached : Reached heap target source)
      (held : heap source = some block) (points : heap.PointsInto target source block.1 address) :
      Reached heap target address

/-- A block that nothing reaches. -/
def IsLeak (heap : Heap) (target : Target) (address : Addr) : Prop :=
  heap address ≠ none ∧ ¬ heap.Reached target address

/-- The blocks are apart, within the address space and not too large for `scan_block`. -/
structure Laid (heap : Heap) : Prop where
  small : ∀ address, ∀ block ∈ heap address, block.1 < 2 ^ 32 - 3
  bounded : ∀ address, ∀ block ∈ heap address, address.toNat + block.1 < 2 ^ 64
  apart : ∀ address, ∀ block ∈ heap address, ∀ other, heap other ≠ none → address < other →
    address.toNat + block.1 ≤ other.toNat

theorem without_held {heap : Heap} {lost : Finset Addr} {address : Addr} {block : ℕ × List Addr}
    (held : heap.without lost address = some block) : heap address = some block := by
  unfold without at held
  split at held
  · cases held
  · exact held

theorem Laid.without {heap : Heap} (laid : heap.Laid) (lost : Finset Addr) : (heap.without lost).Laid where
  small address block held := laid.small address block (without_held held)
  bounded address block held := laid.bounded address block (without_held held)
  apart address block held other present before := by
    obtain ⟨block', held'⟩ := Option.ne_none_iff_exists'.mp present
    refine laid.apart address block (without_held held) other ?_ before
    rw [without_held held']
    exact Option.some_ne_none _

end Heap

/-! ## Blocks that are left tell what they told -/

/-- What a report tells of a block. -/
def told (block : Block) : Addr × UInt32 × StackPtr := (block.addr, block.size, block.stack)

structure Keeps (blocks later : Store Block) : Prop where
  size : blocks.size ≤ later.size
  told : ∀ b block', later.get b = some block' → b < blocks.size → ∃ block, blocks.get b = some block ∧
    told block' = told block

namespace Keeps

variable {blocks : Store Block}

theorem refl (blocks : Store Block) : Keeps blocks blocks := ⟨Nat.le_refl _, fun _ block live _ => ⟨block, live, rfl⟩⟩

theorem trans {first second third : Store Block} (left : Keeps first second) (right : Keeps second third) :
    Keeps first third where
  size := left.size.trans right.size
  told b block'' live inside := by
    obtain ⟨block', live', same'⟩ := right.told b block'' live (Nat.lt_of_lt_of_le inside left.size)
    obtain ⟨block, held, same⟩ := left.told b block' live' inside
    exact ⟨block, held, same'.trans same⟩

theorem put {b : BlockId} {block block' : Block} (live : blocks.get b = some block)
    (same : Pipeline.told block' = Pipeline.told block) : Keeps blocks (blocks.put b block') where
  size := by simp
  told c other held _ := by
    rw [Store.get_put (Store.lt_size_of_get live)] at held
    split at held
    next here =>
      cases held
      exact ⟨block, here ▸ live, same⟩
    next => exact ⟨other, held, rfl⟩

theorem alloc (blocks : Store Block) (block : Block) : Keeps blocks (blocks.alloc block).1 where
  size := by simp
  told b other held inside := by
    rw [Store.get_alloc, if_neg (Nat.ne_of_lt inside)] at held
    exact ⟨other, held, rfl⟩

theorem blockUnref {later : Store Block} {b : BlockId} (ran : blockUnref blocks b = .ok later) :
    Keeps blocks later := by
  unfold Memprof.blockUnref at ran
  split at ran <;> cases ran
  next released =>
    refine ⟨(Store.size_release released).ge, fun c other held _ => ?_⟩
    obtain ⟨block, n, live, rfl⟩ := Store.exists_get_of_release released held
    exact ⟨block, live, rfl⟩

end Keeps

theorem get_of_deref {blocks : Store Block} {b : BlockId} {block : Block} (read : deref blocks b = .ok block) :
    blocks.get b = some block := by
  unfold deref at read
  split at read <;> cases read
  assumption

theorem prepareBlock_keeps {list later : BlockList} {b : BlockId} (ran : prepareBlock list b = .ok later) :
    Keeps list.1 later.1 := by
  obtain ⟨block, read, ran⟩ := ok_of_bind ran
  split at ran <;> cases ran
  exact .put (get_of_deref read) rfl

theorem addRoots_keeps (roots : List Block) (list : BlockList) : Keeps list.1 (roots.foldl addRoot list).1 := by
  induction roots generalizing list with
  | nil => exact .refl _
  | cons root roots inductionHypothesis =>
    exact (Keeps.alloc list.1 root).trans (inductionHypothesis (addRoot list root))

section Mark

variable {fuel : ℕ} {arr : List BlockId} {target : Target}

theorem scanWord_keeps {mem : List Addr} {list later : BlockList} {i : ℕ}
    (ran : scanWord fuel arr mem list i = .ok later) : Keeps list.1 later.1 := by
  unfold scanWord at ran
  split at ran
  · cases ran
  · obtain ⟨found, _, ran⟩ := ok_of_bind ran
    cases found with
    | none =>
      cases ran
      exact .refl _
    | some b =>
      obtain ⟨block, read, ran⟩ := ok_of_bind ran
      split at ran
      · cases ran
      · split at ran <;> cases ran
        · exact .refl _
        · exact .put (get_of_deref read) rfl

theorem foldlM_keeps {α : Type} {step : BlockList → α → Except Fault BlockList}
    (round : ∀ {list later item}, step list item = .ok later → Keeps list.1 later.1) {items : List α}
    {list later : BlockList} (ran : items.foldlM step list = .ok later) : Keeps list.1 later.1 := by
  induction items generalizing list with
  | nil =>
    cases ran
    exact .refl _
  | cons item items inductionHypothesis =>
    rw [List.foldlM_cons] at ran
    obtain ⟨next, first, rest⟩ := ok_of_bind ran
    exact (round first).trans (inductionHypothesis rest)

theorem scanBlock_keeps {list later : BlockList} {b : BlockId} (ran : scanBlock fuel target arr list b = .ok later) :
    Keeps list.1 later.1 := by
  obtain ⟨block, _, ran⟩ := ok_of_bind ran
  split at ran
  · cases ran
    exact .refl _
  · exact foldlM_keeps scanWord_keeps ran

theorem leaksMark_keeps {search : ℕ} {list : BlockList} {later : Store Block}
    (ran : leaksMark search target arr fuel list = .ok later) : Keeps list.1 later := by
  induction fuel generalizing list with
  | zero => cases ran
  | succ fuel inductionHypothesis =>
    obtain ⟨blocks, pending⟩ := list
    cases pending with
    | nil =>
      cases ran
      exact .refl _
    | cons b pending =>
      rw [leaksMark] at ran
      obtain ⟨next, first, rest⟩ := ok_of_bind ran
      exact (scanBlock_keeps first).trans (inductionHypothesis rest)

end Mark

theorem leaksSweep_keeps {i : ℕ} {arr : List BlockId} {list later : BlockList}
    (ran : leaksSweep i arr list = .ok later) : Keeps list.1 later.1 := by
  induction arr generalizing i list with
  | nil =>
    cases ran
    exact .refl _
  | cons b arr inductionHypothesis =>
    rw [leaksSweep] at ran
    obtain ⟨next, swept, ran⟩ := ok_of_bind ran
    obtain ⟨j, _, rest⟩ := ok_of_bind ran
    refine Keeps.trans ?_ (inductionHypothesis rest)
    obtain ⟨block, _, swept⟩ := ok_of_bind swept
    split at swept
    · obtain ⟨blocks, released, swept⟩ := ok_of_bind swept
      cases swept
      exact .blockUnref released
    · cases swept
      exact .refl _

/-- `leaks_find` marks blocks and counts references, and does nothing else to them. -/
theorem leaksFind_keeps {fuel : ℕ} {world later : World} {p : ProcId} {target : Target} {result : List BlockId}
    (ran : leaksFind fuel world p target = .ok (later, result)) :
    Keeps world.blocks later.blocks ∧ later.stashes = world.stashes := by
  unfold leaksFind at ran
  obtain ⟨process, _, ran⟩ := ok_of_bind ran
  obtain ⟨⟨ready, arr⟩, prepared, ran⟩ := ok_of_bind ran
  obtain ⟨sorted, _, ran⟩ := ok_of_bind ran
  obtain ⟨marked, marking, ran⟩ := ok_of_bind ran
  obtain ⟨⟨swept, leaks⟩, sweeping, ran⟩ := ok_of_bind ran
  cases ran
  have readied : Keeps world.blocks ready := foldlM_keeps prepareBlock_keeps prepared
  have rooted : Keeps ready (addDataRoots target (addStackRoots target (ready, []))).1 := by
    rw [Leaks.addRoots_eq]
    exact addRoots_keeps target.roots (ready, [])
  exact ⟨((readied.trans rooted).trans (leaksMark_keeps marking)).trans (leaksSweep_keeps sweeping), rfl⟩

/-! ## The table of a process and the heap -/

/-- The block is that of the heap at `address`, as far as a `Block` can tell. -/
def Describes (world : World) (heap : Heap) (b : BlockId) (address : Addr) : Prop :=
  ∃ block size frames, world.blocks.get b = some block ∧ heap address = some (size, frames) ∧
    block.addr = address ∧ block.size = .ofNat size ∧ StackTrace world.stashes block.stack frames

/-- None of the blocks of a table is a root. -/
def NoRoots (blocks : Store Block) (table : BlockTable) : Prop :=
  ∀ b ∈ table.values, ∀ block, blocks.get b = some block → block.flags.isRoot = false

/-- The table has the blocks of the heap, and no others. -/
structure Mirrored (world : World) (process : MPProcess) (heap : Heap) : Prop where
  describes : ∀ entry ∈ process.table.entries, Describes world heap entry.2 entry.1
  listed : ∀ address, address ∈ process.table.keys ↔ heap address ≠ none
  rootless : NoRoots world.blocks process.table

theorem Knows.mirrored {world : World} (sound : Sound world) {p : ProcId} {process : MPProcess}
    (rootless : NoRoots world.blocks process.table) (found : world.process p = .ok process) {known : Known} {heap : Heap}
    {lost : Finset Addr}
    (knows : Knows known heap lost) (tells : Tells world.stashes (contents world.blocks process.table) known) :
    Mirrored world process (heap.without lost) where
  rootless := rootless
  listed address := by
    rw [mem_keys_of_tells sound found tells, knows.table, Heap.without]
    split
    · simp
    · rw [ne_eq, ne_eq, Option.map_eq_none_iff]
  describes := by
    rintro ⟨address, b⟩ member
    have listed := HashTable.mem_entries_iff.mp member
    obtain ⟨block, live, addressed⟩ := sound.keyed process (World.mem_of_process found) address b listed
    have here := tells address
    have contained : contents world.blocks process.table address = some (block.size, block.stack) := by
      simp [contents, listed, live]
    rw [contained] at here
    generalize isKnown : known address = entry at here
    cases here with
    | some same =>
      rw [knows.table] at isKnown
      split at isKnown
      next => cases isKnown
      next kept =>
        obtain ⟨⟨size, frames⟩, held, rfl⟩ := Option.map_eq_some_iff.mp isKnown
        exact ⟨block, size, frames, live, by rw [Heap.without, if_neg kept, held], addressed, same.1, same.2⟩

namespace Mirrored

variable {world : World} {process : MPProcess} {heap : Heap} {target : Target}

theorem exists_entry {b : BlockId} (member : b ∈ process.held) : ∃ address, ⟨address, b⟩ ∈ process.table.entries := by
  obtain ⟨⟨address, b⟩, listed, rfl⟩ := List.mem_map.mp member
  exact ⟨address, listed⟩

theorem mem_held {b : BlockId} {address : Addr} (listed : ⟨address, b⟩ ∈ process.table.entries) : b ∈ process.held :=
  List.mem_map_of_mem (f := Sigma.snd) listed

theorem describe (mirrored : Mirrored world process heap) {b : BlockId} {address : Addr}
    (listed : ⟨address, b⟩ ∈ process.table.entries) : Describes world heap b address :=
  mirrored.describes _ listed

theorem sized (laid : heap.Laid) {address : Addr} {size : ℕ} {frames : List Addr}
    (held : heap address = some (size, frames)) : (UInt32.ofNat size).toNat = size := by
  have := laid.small address _ held
  rw [UInt32.toNat_ofNat']
  omega

theorem scannable (mirrored : Mirrored world process heap) (laid : heap.Laid) :
    Leaks.Scannable world.blocks process.held where
  live b member := by
    obtain ⟨address, listed⟩ := exists_entry member
    obtain ⟨block, size, frames, live, held, addressed, sizes, _⟩ := mirrored.describe listed
    refine ⟨block, live, mirrored.rootless b member block live, ?_⟩
    rw [sizes, addressed, sized laid held]
    exact ⟨laid.small address _ held, laid.bounded address _ held⟩
  apart := by
    have keys : process.table.entries.Pairwise fun entry other => entry.1 ≠ other.1 :=
      List.pairwise_map.mp process.table.nodupKeys
    refine List.pairwise_map.mpr (keys.imp_of_mem ?_)
    rintro ⟨address, b⟩ ⟨address', c⟩ listed listed' apart block other live live'
    obtain ⟨_, size, frames, isBlock, held, rfl, sizes, _⟩ := mirrored.describe listed
    obtain ⟨_, size', frames', isOther, held', rfl, sizes', _⟩ := mirrored.describe listed'
    rw [live] at isBlock
    rw [live'] at isOther
    cases isBlock
    cases isOther
    rcases UInt64.lt_or_lt_of_ne apart with less | greater
    · left
      refine ⟨less, ?_⟩
      rw [sizes, sized laid held]
      exact laid.apart _ _ held _ (by rw [held']; exact Option.some_ne_none _) less
    · right
      refine ⟨greater, ?_⟩
      rw [sizes', sized laid held']
      exact laid.apart _ _ held' _ (by rw [held]; exact Option.some_ne_none _) greater

/-- A word points into a block of the table if it points into that of the heap. -/
theorem contains_iff (laid : heap.Laid) {address word : Addr} {block : Block} {size : ℕ} {frames : List Addr}
    (held : heap address = some (size, frames)) (addressed : block.addr = address)
    (sizes : block.size = .ofNat size) :
    Leaks.Contains block word ↔ heap.Contains address word := by
  unfold Leaks.Contains Heap.Contains
  rw [addressed, sizes, sized laid held, held]
  simp

theorem points_iff (laid : heap.Laid) {address : Addr} {scanned block : Block} {size : ℕ} {frames : List Addr}
    (held : heap address = some (size, frames)) (addressed : block.addr = address)
    (sizes : block.size = .ofNat size) :
    Leaks.PointsInto target scanned block ↔
      heap.PointsInto target scanned.addr scanned.size.toNat address := by
  unfold Leaks.PointsInto Heap.PointsInto
  simp only [contains_iff laid held addressed sizes]
  rfl

/-- What the search reaches of the table is what the words of the target reach of the heap. -/
theorem reached_iff (mirrored : Mirrored world process heap) (laid : heap.Laid) {b : BlockId} {address : Addr}
    (listed : ⟨address, b⟩ ∈ process.table.entries) :
    Leaks.Reached target world.blocks process.held b ↔ heap.Reached target address := by
  constructor
  · intro reached
    induction reached generalizing address with
    | root isRoot _ live points =>
      obtain ⟨_, size, frames, live', held, addressed, sizes, _⟩ := mirrored.describe listed
      rw [live] at live'
      cases live'
      exact .root isRoot ((points_iff laid held addressed sizes).mp points)
    | block reached source _ live points inductionHypothesis =>
      obtain ⟨_, size, frames, live', held, addressed, sizes, _⟩ := mirrored.describe listed
      rw [live] at live'
      cases live'
      obtain ⟨start, listedSource⟩ := exists_entry reached.mem
      obtain ⟨_, sourceSize, _, source', heldSource, rfl, sourceSizes, _⟩ := mirrored.describe listedSource
      rw [source] at source'
      cases source'
      have pointing := (points_iff laid held addressed sizes).mp points
      rw [sourceSizes, sized laid heldSource] at pointing
      exact .block (inductionHypothesis listedSource) heldSource pointing
  · intro reached
    induction reached generalizing b with
    | root isRoot points =>
      obtain ⟨_, size, frames, live, held, addressed, sizes, _⟩ := mirrored.describe listed
      exact .root isRoot (mem_held listed) live ((points_iff laid held addressed sizes).mpr points)
    | @block start address source reached heldSource points inductionHypothesis =>
      obtain ⟨_, size, frames, live, held, addressed, sizes, _⟩ := mirrored.describe listed
      have present := (mirrored.listed start).mpr (by rw [heldSource]; exact Option.some_ne_none _)
      obtain ⟨⟨_, a⟩, listedSource, rfl⟩ := List.mem_map.mp (AList.mem_keys.mp present)
      obtain ⟨_, _, _, liveSource, heldSource', sameAddress, sourceSizes, _⟩ := mirrored.describe listedSource
      rw [heldSource] at heldSource'
      cases heldSource'
      refine .block (inductionHypothesis listedSource) liveSource (mem_held listed) live
        ((points_iff laid held addressed sizes).mpr ?_)
      rwa [sourceSizes, sized laid heldSource, sameAddress]

/-- What is left of a block still describes its part of the heap. -/
theorem describes_later {later : World} {b : BlockId} {address : Addr} (describes : Describes world heap b address)
    (kept : Keeps world.blocks later.blocks) (stashes : later.stashes = world.stashes)
    (referenced : 0 < later.blocks.refs b) : Describes later heap b address := by
  obtain ⟨block, size, frames, live, held, addressed, sizes, traced⟩ := describes
  obtain ⟨block', live'⟩ := Store.exists_get_of_refs_pos referenced
  obtain ⟨_, before, same⟩ := kept.told b block' live' (Store.lt_size_of_get live)
  rw [live] at before
  cases before
  obtain ⟨sameAddr, sameRest⟩ := Prod.mk.inj same
  obtain ⟨sameSize, sameStack⟩ := Prod.mk.inj sameRest
  refine ⟨block', size, frames, live', held, by rw [sameAddr, addressed], by rw [sameSize, sizes], ?_⟩
  rw [sameStack, stashes]
  exact traced

/-- Where a block starts. -/
def addressOf (world : World) (b : BlockId) : Addr := ((world.blocks.get b).map Block.addr).getD 0

/-- `leaks_find` returns the blocks of the heap that nothing reaches. -/
theorem leaksFind (mirrored : Mirrored world process heap) (sound : Sound world) {p : ProcId}
    (found : world.process p = .ok process) (laid : heap.Laid)
    (readable : ∀ addr, (target.peekData addr).isSome = true)
    (roots : ∀ root ∈ target.roots, root.size.toNat < 2 ^ 32 - 3) (few : process.held.length < 2 ^ 31) :
    ∃ fuel later result, ∃ addresses : List Addr, leaksFind fuel world p target = .ok (later, result) ∧
      addresses.Nodup ∧ (∀ address, address ∈ addresses ↔ heap.IsLeak target address) ∧
      List.Forall₂ (Describes later heap) result addresses := by
  have scannable := mirrored.scannable laid
  obtain ⟨view, arr, ids, blocks, started, ran⟩ := Leaks.leaksFind_started found scannable target
  have layout := started.layout (by rwa [started.perm.length_eq])
  have small : ∀ b ∈ arr ++ ids, (view b).size.toNat < 2 ^ 32 - 3 := by
    intro b known
    rcases List.mem_append.mp known with member | member
    · obtain ⟨block, live, viewB⟩ := started.held b member
      obtain ⟨_, live', _, small, _⟩ := scannable.live b (started.perm.mem_iff.mp member)
      rw [live] at live'
      cases live'
      rw [viewB]
      exact small
    · exact roots _ (started.fromRoots b member)
  obtain ⟨fuel, marks, swept, result, ranMark, ranSweep, distinct, unreached⟩ :=
    started.leaksFind_ok scannable.listed.nodup layout readable small
  have returned : Memprof.leaksFind fuel world p target =
      .ok ({ world.setProcess p (getBlockTable process) with blocks := swept }, result) := by
    rw [ran, ranMark, ok_bind, ranSweep]
    rfl
  obtain ⟨kept, stashes⟩ := leaksFind_keeps returned
  -- The report has a reference to each block of the result.
  have held : ∀ b ∈ process.held, 0 < world.blocks.refs b := fun b =>
    sound.sharedBlocks.refs_pos (List.mem_map_of_mem (World.mem_of_process found))
  obtain ⟨_, made, same, _, changes, _⟩ := (Reports.leaksFind_ensures found sound.sharedBlocks.positive
    scannable.listed.nodup held fuel target).of_ok returned
  have blocksSame : swept = _ := congrArg World.blocks same
  have entries : ∀ b, b ∈ result ↔ ∃ address, ⟨address, b⟩ ∈ process.table.entries ∧ heap.IsLeak target address := by
    intro b
    rw [unreached]
    constructor
    · rintro ⟨member, isLeak⟩
      obtain ⟨address, listed⟩ := exists_entry member
      refine ⟨address, listed, ?_, fun reached => isLeak ((mirrored.reached_iff laid listed).mpr reached)⟩
      exact (mirrored.listed address).mp (AList.mem_keys.mpr (List.mem_keys_of_mem listed))
    · rintro ⟨address, listed, _, isLeak⟩
      exact ⟨mem_held listed, fun reached => isLeak ((mirrored.reached_iff laid listed).mp reached)⟩
  have addressed : ∀ {address b}, ⟨address, b⟩ ∈ process.table.entries → addressOf world b = address := by
    intro address b listed
    obtain ⟨block, _, _, live, _, addressed, _⟩ := mirrored.describe listed
    rw [addressOf, live, Option.map_some, Option.getD_some, addressed]
  refine ⟨fuel, _, result, result.map (addressOf world), returned, ?_, fun address => ?_, ?_⟩
  · refine distinct.map_on fun b memberB c memberC same => ?_
    obtain ⟨address, listedB, _⟩ := (entries b).mp memberB
    obtain ⟨address', listedC, _⟩ := (entries c).mp memberC
    rw [addressed listedB, addressed listedC] at same
    subst same
    exact Option.some.inj ((HashTable.mem_entries_iff.mp listedB).symm.trans (HashTable.mem_entries_iff.mp listedC))
  · constructor
    · intro member
      obtain ⟨b, isLeak, rfl⟩ := List.mem_map.mp member
      obtain ⟨address, listed, unreached⟩ := (entries b).mp isLeak
      rwa [addressed listed]
    · intro isLeak
      obtain ⟨⟨_, b⟩, listed, rfl⟩ :=
        List.mem_map.mp (AList.mem_keys.mp ((mirrored.listed address).mpr isLeak.1))
      exact List.mem_map.mpr ⟨b, (entries b).mpr ⟨_, listed, isLeak⟩, addressed listed⟩
  · rw [List.forall₂_map_right_iff, List.forall₂_same]
    intro b isLeak
    obtain ⟨address, listed, _⟩ := (entries b).mp isLeak
    rw [addressed listed]
    refine describes_later (mirrored.describe listed) kept stashes ?_
    have counted := changes.refs b
    rw [blocksSame, counted]
    have := held b (mem_held listed)
    omega

end Mirrored

end Memprof.Pipeline
