import Memprof.LeakList
import Memprof.Verified.Concurrent
import Memprof.Verified.HeapLeaks

/-! # The leak list of a traced program

From end to end like `Concurrent`, but while the program runs: when everything that was written
has been read, the leak list has a row for each block that nothing reaches, with the size that
was asked for, the first frame that is not to be skipped, and the whole stack when it is selected.
-/

namespace Memprof.LeakList

open Library Accounting Serving Memprof.Sequential Pipeline Concurrent RoundTrip

/-! ## The rows of a block -/

variable {μ : Type} {findLine : μ → Addr → Option Line × μ} {isFrame : Addr → Prop} {lineOf : Addr → Option Line}

/-- Whatever frames were asked about before, a frame has its line. -/
def Settled (findLine : μ → Addr → Option Line × μ) (isFrame : Addr → Prop) (lineOf : Addr → Option Line) (maps : μ) :
    Prop :=
  ∀ asked : List Addr, (∀ address ∈ asked, isFrame address) → ∀ address, isFrame address →
    (findLine (asked.foldl (fun maps address => (findLine maps address).2) maps) address).1 = lineOf address

theorem Settled.found {maps : μ} (settled : Settled findLine isFrame lineOf maps) {address : Addr}
    (frame : isFrame address) : ∃ next, findLine maps address = (lineOf address, next) ∧
      Settled findLine isFrame lineOf next := by
  refine ⟨(findLine maps address).2, Prod.ext (settled [] (by simp) address frame) rfl, fun asked frames => ?_⟩
  exact settled (address :: asked) fun other member => by
    rcases List.mem_cons.mp member with rfl | member
    · exact frame
    · exact frames other member

theorem stackNodes_ok {stashes : Store StackStash} {block : Block} {frames : List Addr}
    (trace : StackTrace stashes block.stack frames) :
    ∃ nodes, stackNodes stashes block = .ok nodes ∧ nodes.map StackNode.address = frames := by
  unfold stackNodes
  cases pointer : block.stack with
  | none =>
    rw [pointer] at trace
    exact ⟨[], rfl, trace.symm⟩
  | some ref =>
    rw [pointer] at trace
    obtain ⟨stash, live, trace⟩ := trace
    obtain ⟨list, chain, listing⟩ := CallTree.exists_chain_of_trace trace
    simp only [live, walk_eq chain chain.length_le]
    clear chain trace
    induction listing with
    | nil => exact ⟨[], rfl, rfl⟩
    | cons here _ inductionHypothesis =>
      obtain ⟨node, held, rfl⟩ := here
      obtain ⟨nodes, ran, rfl⟩ := inductionHypothesis
      refine ⟨node :: nodes, ?_, rfl⟩
      rw [List.mapM_cons, Stash.node_eq_ok.mpr held, ok_bind, ran, ok_bind]
      rfl

/-- The caller of a block: the first of its frames with a name that is not to be skipped. -/
def callerOf (skipFuncs : List String) (lineOf : Addr → Option Line) (frames : List Addr) : String :=
  (frames.findSome? fun address => callerName skipFuncs (lineOf address)).getD unknown

theorem findCaller_ok {skipFuncs : List String} {nodes : List StackNode}
    (frames : ∀ node ∈ nodes, isFrame node.address) {maps : μ} (settled : Settled findLine isFrame lineOf maps) :
    ∃ maps', findCaller findLine skipFuncs maps nodes =
        ((nodes.map StackNode.address).findSome? fun address => callerName skipFuncs (lineOf address), maps') ∧
      Settled findLine isFrame lineOf maps' := by
  induction nodes generalizing maps with
  | nil => exact ⟨maps, rfl, settled⟩
  | cons node nodes inductionHypothesis =>
    obtain ⟨next, found, settledNext⟩ := settled.found (frames node (by simp))
    rw [findCaller, found, List.map_cons, List.findSome?_cons]
    simp only
    cases callerName skipFuncs (lineOf node.address) with
    | some functionname => exact ⟨next, rfl, settledNext⟩
    | none => exact inductionHypothesis (fun other member => frames other (by simp [member])) settledNext

theorem stackRows_ok {nodes : List StackNode} (frames : ∀ node ∈ nodes, isFrame node.address) (rows : List StackRow)
    {maps : μ} (settled : Settled findLine isFrame lineOf maps) :
    ∃ maps', nodes.foldl (fun state stack =>
        let (line, maps) := findLine state.2 stack.address
        (state.1 ++ [stackRow line], maps)) (rows, maps) =
        (rows ++ (nodes.map StackNode.address).map fun address => stackRow (lineOf address), maps') ∧
      Settled findLine isFrame lineOf maps' := by
  induction nodes generalizing rows maps with
  | nil => exact ⟨maps, by rw [List.map_nil, List.map_nil, List.append_nil]; rfl, settled⟩
  | cons node nodes inductionHypothesis =>
    obtain ⟨next, found, settledNext⟩ := settled.found (frames node (by simp))
    obtain ⟨maps', ran, settledLater⟩ := inductionHypothesis (fun other member => frames other (by simp [member]))
      (rows ++ [stackRow (lineOf node.address)]) settledNext
    refine ⟨maps', ?_, settledLater⟩
    rw [List.foldl_cons, found]
    simp only
    rw [ran, List.map_cons, List.map_cons, List.append_assoc, List.singleton_append]

/-- The row shows the block of the heap, and its stack when it is selected. -/
structure Shown (findLine : μ → Addr → Option Line × μ) (skipFuncs : List String) (isFrame : Addr → Prop)
    (lineOf : Addr → Option Line) (world : World) (row : LeakRow) (address : Addr) (block : ℕ × List Addr) :
    Prop where
  addr : row.addr = address
  size : row.size = .ofNat block.1
  caller : row.caller = callerOf skipFuncs lineOf block.2
  stack : ∀ maps, Settled findLine isFrame lineOf maps → ∃ maps',
    leakBlockSelectionChanged findLine world.stashes world.blocks maps (some row) =
      .ok (block.2.map fun frame => stackRow (lineOf frame), maps') ∧ Settled findLine isFrame lineOf maps'

/-- The row of a block of the heap. -/
def IsRow (findLine : μ → Addr → Option Line × μ) (skipFuncs : List String) (isFrame : Addr → Prop)
    (lineOf : Addr → Option Line) (world : World) (heap : Heap) (row : LeakRow) (address : Addr) : Prop :=
  ∃ block, heap address = some block ∧ Shown findLine skipFuncs isFrame lineOf world row address block

theorem IsRow.of_without {skipFuncs : List String} {world : World} {heap : Heap} {lost : Finset Addr} {row : LeakRow}
    {address : Addr} (isRow : IsRow findLine skipFuncs isFrame lineOf world (heap.without lost) row address) :
    IsRow findLine skipFuncs isFrame lineOf world heap row address := by
  obtain ⟨block, held, shown⟩ := isRow
  exact ⟨block, Heap.without_held held, shown⟩

theorem fillRow_ok {world : World} {heap : Heap} {b : BlockId} {address : Addr}
    (describes : Describes world heap b address)
    (frames : ∀ address, ∀ block ∈ heap address, ∀ frame ∈ block.2, isFrame frame) (skipFuncs : List String)
    (rows : List LeakRow) {maps : μ} (settled : Settled findLine isFrame lineOf maps) :
    ∃ row maps', fillRow findLine skipFuncs world.stashes world.blocks (rows, maps) b = .ok (rows ++ [row], maps') ∧
      IsRow findLine skipFuncs isFrame lineOf world heap row address ∧ Settled findLine isFrame lineOf maps' := by
  obtain ⟨block, size, trace, live, held, addressed, sizes, traced⟩ := describes
  obtain ⟨nodes, walked, rfl⟩ := stackNodes_ok traced
  have framed : ∀ node ∈ nodes, isFrame node.address := fun node member =>
    frames address _ held node.address (List.mem_map_of_mem member)
  obtain ⟨maps', asked, settledLater⟩ := @findCaller_ok μ findLine isFrame lineOf skipFuncs nodes framed maps settled
  refine ⟨⟨block.addr, block.size, callerOf skipFuncs lineOf (nodes.map StackNode.address), b⟩, maps', ?_, ?_,
    settledLater⟩
  · rw [fillRow, deref, live]
    simp only [ok_bind, walked, asked]
    rfl
  · refine ⟨_, held, addressed, sizes, rfl, fun state settledState => ?_⟩
    obtain ⟨state', ran, settledAfter⟩ := stackRows_ok framed [] settledState
    refine ⟨state', ?_, settledAfter⟩
    rw [leakBlockSelectionChanged, deref, live]
    simp only [ok_bind, walked]
    rw [ran, List.nil_append]

theorem leaksFill_ok {world : World} {heap : Heap} {leaks : List BlockId} {addresses : List Addr}
    (described : List.Forall₂ (Describes world heap) leaks addresses)
    (frames : ∀ address, ∀ block ∈ heap address, ∀ frame ∈ block.2, isFrame frame) (skipFuncs : List String)
    {maps : μ} (settled : Settled findLine isFrame lineOf maps) :
    ∃ rows maps', leaksFill findLine skipFuncs world.stashes world.blocks maps leaks = .ok (rows, maps') ∧
      List.Forall₂ (IsRow findLine skipFuncs isFrame lineOf world heap) rows addresses ∧
      Settled findLine isFrame lineOf maps' := by
  suffices loop : ∀ {before : List LeakRow} {shown : List Addr},
      List.Forall₂ (IsRow findLine skipFuncs isFrame lineOf world heap) before shown →
      ∃ rows maps', leaks.foldlM (fillRow findLine skipFuncs world.stashes world.blocks) (before, maps) =
          .ok (rows, maps') ∧
        List.Forall₂ (IsRow findLine skipFuncs isFrame lineOf world heap) rows (shown ++ addresses) ∧
        Settled findLine isFrame lineOf maps' by
    exact loop .nil
  induction described generalizing maps with
  | nil => exact fun shown => ⟨_, maps, rfl, by rwa [List.append_nil], settled⟩
  | cons first _ inductionHypothesis =>
    intro before shown isShown
    obtain ⟨row, next, ran, isRow, settledNext⟩ := fillRow_ok first frames skipFuncs before settled
    obtain ⟨rows, maps', ranRest, isRows, settledLater⟩ :=
      inductionHypothesis settledNext (List.rel_append isShown (.cons isRow .nil))
    refine ⟨rows, maps', ?_, ?_, settledLater⟩
    · rw [List.foldlM_cons, ran, ok_bind]
      exact ranRest
    · rwa [List.append_assoc, List.singleton_append] at isRows

/-! ## The blocks that the channels bring -/

/-- No table has a root. -/
def Rootless (world : World) : Prop := ∀ process ∈ world.processes, NoRoots world.blocks process.table

/-- A listed block is no root, whatever other tables there are. -/
theorem kept_noRoots (others : List BlockTable) :
    Keeping.Kept fun blocks table => ∀ own ∈ table :: others, NoRoots blocks own where
  release held released own member b listed block live := by
    obtain ⟨original, _, before, rfl⟩ := Store.exists_get_of_release released live
    exact held own member b listed original before
  erase {blocks table} held addr own member := by
    rcases List.mem_cons.mp member with rfl | other
    · intro b listed
      obtain ⟨address, found⟩ := HashTable.mem_values_iff.mp listed
      refine held table (by simp) b (HashTable.mem_values_iff.mpr ⟨address, ?_⟩)
      by_cases same : address = addr
      · rw [same, AList.lookup_erase] at found
        cases found
      · rwa [AList.lookup_erase_ne same] at found
    · exact held own (by simp [other])
  insert {blocks table} held addr size stack own member b listed block live := by
    rw [Store.get_alloc] at live
    split at live
    · cases live
      rfl
    next old =>
      rcases List.mem_cons.mp member with rfl | other
      · obtain ⟨address, found⟩ := HashTable.mem_values_iff.mp listed
        by_cases same : address = addr
        · rw [same, AList.lookup_insert] at found
          exact absurd (Option.some.inj found).symm old
        · rw [AList.lookup_insert_ne same] at found
          exact held table (by simp) b (HashTable.mem_values_iff.mpr ⟨address, found⟩) block live
      · exact held own (by simp [other]) b listed block live

/-- Neither the blocks nor the tables change. -/
structure Stored (world later : World) : Prop where
  blocks : later.blocks = world.blocks
  tables : later.processes.map MPProcess.table = world.processes.map MPProcess.table

namespace Stored

theorem refl (world : World) : Stored world world := ⟨rfl, rfl⟩

theorem trans {first second third : World} (left : Stored first second) (right : Stored second third) :
    Stored first third := ⟨right.blocks.trans left.blocks, right.tables.trans left.tables⟩

theorem set {world later : World} {p : ProcId} {process process' : MPProcess} (found : world.process p = .ok process)
    (processes : later.processes = world.processes.set p process') (blocks : later.blocks = world.blocks)
    (table : process'.table = process.table) : Stored world later := by
  refine ⟨blocks, ?_⟩
  obtain ⟨inside, here⟩ := List.getElem?_eq_some_iff.mp (World.process_eq_ok.mp found)
  rw [processes, List.map_set, table, ← here, ← List.map_set, List.set_getElem_self]

theorem rootless {world later : World} (stored : Stored world later) (rootless : Rootless world) : Rootless later := by
  intro process member
  have listed : process.table ∈ world.processes.map MPProcess.table := stored.tables ▸ List.mem_map_of_mem member
  obtain ⟨before, own, same⟩ := List.mem_map.mp listed
  rw [stored.blocks, ← same]
  exact rootless before own

end Stored

theorem setStatus_stored {world later : World} {p : ProcId} {status : MPProcessStatus}
    (ran : world.setStatus p status = .ok later) : Stored world later := by
  obtain ⟨process, found, ran⟩ := ok_of_bind ran
  cases ran
  exact .set found rfl rfl rfl

theorem processDetach_stored {world later : World} {p : ProcId} (ran : world.processDetach p = .ok later) :
    Stored world later := by
  obtain ⟨process, _, ran⟩ := ok_of_bind ran
  split at ran
  · cases ran
    exact .refl world
  · split at ran
    · cases ran
    · split at ran
      · cases ran
        exact .refl world
      · exact setStatus_stored ran

theorem addStack_stored {world later : World} {p : ProcId} {frames : List Addr} {stack : StackPtr}
    (ran : world.addStack p frames = .ok (later, stack)) : Stored world later := by
  obtain ⟨⟨ready, stash⟩, got, ran⟩ := ok_of_bind ran
  have kept : Stored world ready := by
    obtain ⟨process, found, got⟩ := ok_of_bind got
    split at got <;> cases got
    · exact .refl world
    · exact .set found rfl rfl rfl
  refine kept.trans ?_
  simp only at ran
  split at ran
  · cases ran
  · obtain ⟨_, _, ran⟩ := ok_of_bind ran
    cases ran
    exact ⟨rfl, rfl⟩

theorem prepareInput_stored {world later : World} {p : ProcId} {info : MIInfo} {frames : List Addr} {stack : StackPtr}
    (ran : world.prepareInput p info frames = .ok (later, stack)) : Stored world later := by
  unfold World.prepareInput at ran
  split at ran
  case h_1 | h_2 | h_3 | h_4 => exact addStack_stored ran
  case h_5 =>
    obtain ⟨exiting, changed, ran⟩ := ok_of_bind ran
    obtain ⟨_, _, ran⟩ := ok_of_bind ran
    simp only at ran
    split at ran
    · obtain ⟨_, detached, ran⟩ := ok_of_bind ran
      cases ran
      exact (setStatus_stored changed).trans (processDetach_stored detached)
    · cases ran
      exact setStatus_stored changed
  all_goals
    cases ran
    exact .refl world

theorem inputEof_stored {world later : World} {watch : Watch} (ran : world.inputEof watch = .ok later) :
    Stored world later := by
  obtain ⟨process, found, _⟩ := ok_of_bind ran
  rw [inputEof_eq found] at ran
  cases ran
  exact .set found rfl rfl rfl

section Rootless

variable {layout : Layout}

theorem inputRound_rootless {world : World} (rootless : Rootless world) {input : ProcId} {bytes : List UInt8}
    {round : Round} (ran : inputRound layout world input bytes = .ok (some round)) : Rootless round.world := by
  unfold inputRound at ran
  simp only at ran
  split at ran
  · cases ran
  · obtain ⟨⟨frames, rest⟩, _, ran⟩ := ok_of_bind ran
    obtain ⟨⟨prepared, stack⟩, ranPrepare, ran⟩ := ok_of_bind ran
    obtain ⟨root, _, ran⟩ := ok_of_bind ran
    obtain ⟨process, found, ran⟩ := ok_of_bind ran
    obtain ⟨⟨blocks, later, after⟩, ranCommand, ran⟩ := ok_of_bind ran
    cases ran
    have ready := (prepareInput_stored ranPrepare).rootless rootless
    have tables := Keeping.processCommand_kept (kept_noRoots (prepared.processes.map MPProcess.table))
      (fun own member => by
        rcases List.mem_cons.mp member with rfl | other
        · exact ready process (World.mem_of_process found)
        · obtain ⟨process, own, rfl⟩ := List.mem_map.mp other
          exact ready process own) ranCommand
    intro process member
    rcases List.mem_or_eq_of_mem_set member with kept | rfl
    · exact tables process.table (List.mem_cons_of_mem _ (List.mem_map_of_mem kept))
    · exact tables process.table (by simp)

theorem inputFunc_rootless {watch : Watch} {conditions : List Bool} {world : World} (rootless : Rootless world)
    {bytes : List UInt8} {called : Called}
    (ran : inputFunc layout watch conditions world bytes = .ok called) : Rootless called.world := by
  induction conditions generalizing world bytes called with
  | nil =>
    unfold inputFunc at ran
    obtain ⟨round, read, ran⟩ := ok_of_bind ran
    cases round with
    | none =>
      obtain ⟨later, ended, ran⟩ := ok_of_bind ran
      cases ran
      exact (inputEof_stored ended).rootless rootless
    | some round =>
      cases ran
      exact inputRound_rootless rootless read
  | cons condition conditions inductionHypothesis =>
    unfold inputFunc at ran
    obtain ⟨round, read, ran⟩ := ok_of_bind ran
    cases round with
    | none =>
      obtain ⟨later, ended, ran⟩ := ok_of_bind ran
      cases ran
      exact (inputEof_stored ended).rootless rootless
    | some round =>
      have kept := inputRound_rootless rootless read
      simp only at ran
      split at ran
      · obtain ⟨again, ranAgain, ran⟩ := ok_of_bind ran
        have keptAgain := inductionHypothesis kept ranAgain
        cases ran
        exact keptAgain
      · cases ran
        exact kept

theorem dispatchAll_rootless {turns : List Turn}
    (spares : ∀ turn ∈ turns, ∀ world : World, Rootless world → Rootless (turn.before world))
    {profiler later : Profiler} (rootless : Rootless profiler.world)
    (ran : dispatchAll layout profiler turns = .ok later) : Rootless later.world := by
  induction turns generalizing profiler with
  | nil =>
    cases ran
    exact rootless
  | cons turn turns inductionHypothesis =>
    rw [dispatchAll, List.foldlM_cons] at ran
    obtain ⟨next, first, rest⟩ := ok_of_bind ran
    refine inductionHypothesis (fun other member => spares other (by simp [member])) ?_ rest
    have before := spares turn (by simp) profiler.world rootless
    unfold dispatch at first
    simp only at first
    split at first
    · cases first
      exact before
    · obtain ⟨called, took, first⟩ := ok_of_bind first
      cases first
      exact inputFunc_rootless before took

end Rootless

/-! ## How many blocks there are -/

/-- A call allocates at most one block. -/
theorem effect_allocates {layout : Layout} (heap : Heap) (origin : Origin layout) :
    ∃ result, ∀ address, origin.effect heap address ≠ none → address = result ∨ heap address ≠ none := by
  have obtained : ∀ (before : Heap) (result : Addr) (size : ℕ),
      (∀ address, before address ≠ none → heap address ≠ none) →
      ∀ address, before.obtain result size origin.frames address ≠ none → address = result ∨ heap address ≠ none := by
    intro before result size fewer address present
    by_cases here : address = result
    · exact .inl here
    · refine .inr (fewer address ?_)
      unfold Heap.obtain at present
      split at present
      · exact present
      · rwa [Function.update_of_ne here] at present
  have released : ∀ (ptr address : Addr), heap.release ptr address ≠ none → heap address ≠ none := by
    intro ptr address present
    obtain ⟨block, held⟩ := Option.ne_none_iff_exists'.mp present
    rw [release_held held]
    exact Option.some_ne_none _
  unfold Origin.effect
  cases origin.call with
  | malloc size result => exact ⟨result, obtained heap result _ fun _ present => present⟩
  | calloc nmemb size result => exact ⟨result, obtained heap result _ fun _ present => present⟩
  | realloc ptr size result =>
    refine ⟨result, fun address present => ?_⟩
    simp only at present
    split at present
    · exact .inr present
    · exact obtained _ result _ (released ptr) address present
  | free ptr => exact ⟨0, fun address present => .inr (released ptr address present)⟩

theorem effects_few {layout : Layout} (origins : List (Origin layout)) {heap : Heap} {addresses : Finset Addr}
    (within : ∀ address, heap address ≠ none → address ∈ addresses) :
    ∃ later : Finset Addr, later.card ≤ addresses.card + origins.length ∧
      ∀ address, effects heap origins address ≠ none → address ∈ later := by
  induction origins generalizing heap addresses with
  | nil => exact ⟨addresses, Nat.le_refl _, within⟩
  | cons origin origins inductionHypothesis =>
    obtain ⟨result, allocates⟩ := effect_allocates heap origin
    obtain ⟨later, few, covers⟩ := @inductionHypothesis (origin.effect heap) (insert result addresses)
      fun address present => by
        rw [Finset.mem_insert]
        exact (allocates address present).imp_right (within address)
    refine ⟨later, few.trans ?_, covers⟩
    have := Finset.card_insert_le result addresses
    rw [List.length_cons]
    omega

/-- There are no more blocks than calls. -/
theorem held_few {layout : Layout} {origins : List (Origin layout)} {lost : Finset Addr} {world : World}
    {process : MPProcess} (mirrored : Mirrored world process ((heapOf origins).without lost)) :
    process.held.length ≤ origins.length := by
  obtain ⟨addresses, few, covers⟩ := @effects_few layout origins (fun _ => none) ∅ (by simp)
  have keys : process.table.keys.toFinset ⊆ addresses := by
    intro address member
    obtain ⟨block, held⟩ := Option.ne_none_iff_exists'.mp ((mirrored.listed address).mp (List.mem_toFinset.mp member))
    refine covers address ?_
    have present : heapOf origins address = some block := Heap.without_held held
    rw [heapOf] at present
    rw [present]
    exact Option.some_ne_none _
  have length : process.held.length = process.table.keys.toFinset.card := by
    have counted : process.table.keys.toFinset.card = process.table.keys.length :=
      List.toFinset_card_of_nodup process.table.nodupKeys
    rw [counted, MPProcess.held, HashTable.values, AList.keys, List.keys, List.length_map, List.length_map]
  have := Finset.card_le_card keys
  rw [Finset.card_empty] at few
  omega

/-! ## From end to end -/

section Listed

variable {layout : Layout} {τ : Type} [DecidableEq τ]

theorem heapOf_frames (origins : List (Origin layout)) (lost : Finset Addr) (address : Addr) :
    ∀ block ∈ (heapOf origins).without lost address, ∀ frame ∈ block.2, IsFrameOf origins frame := by
  intro block held frame occurs
  rcases exists_origin (Heap.without_held held) with ⟨origin, member, same⟩ | none
  · exact ⟨origin, member, same ▸ occurs⟩
  · cases none

end Listed

/-! ## A program with a leak -/

/-- Two threads allocate a block each; the data of the program points into the first one. -/
def leaking : List (Event lp64 Bool) :=
  [.call true ⟨.malloc 24 4096, 100, [16, 32], Object.zero _⟩,
    .call false ⟨.malloc 8 8192, 101, [20, 32], Object.zero _⟩, .report false, .report true]

def heldFirst : Target where
  sections := [(65536, 8)]
  peekData addr := some (if addr = 65536 then 4100 else 0)

def leakingHeap : Heap := (Heap.obtain (fun _ => none) 4096 24 [16, 32]).obtain 8192 8 [20, 32]

theorem leakingHeap_eq (address : Addr) : leakingHeap address =
    if address = 8192 then some (8, [20, 32]) else if address = 4096 then some (24, [16, 32]) else none := by
  simp [leakingHeap, Heap.obtain, Function.update_apply]

theorem leakingHeap_laid : leakingHeap.Laid where
  small address block held := by
    rw [leakingHeap_eq] at held
    split at held
    · cases held; decide
    · split at held <;> cases held
      decide
  bounded address block held := by
    rw [leakingHeap_eq] at held
    split at held
    next here => cases held; subst here; decide
    next =>
      split at held <;> cases held
      next here => subst here; decide
  apart address block held other present less := by
    rw [leakingHeap_eq] at held present
    have before := UInt64.lt_iff_toNat_lt.mp less
    split at held
    next here =>
      subst here
      split at present
      next same => rw [same] at before; exact absurd before (Nat.lt_irrefl _)
      next =>
        split at present
        next first => rw [first] at before; exact absurd before (by decide)
        next => exact absurd rfl present
    next =>
      split at held <;> cases held
      next first =>
        subst first
        split at present
        next here => rw [here]; decide
        next =>
          split at present
          next same => rw [same] at before; exact absurd before (Nat.lt_irrefl _)
          next => exact absurd rfl present

/-- Nothing points into the second block. -/
theorem points_first {start : Addr} {size : ℕ} {address : Addr}
    (points : leakingHeap.PointsInto heldFirst start size address) : address = 4096 := by
  obtain ⟨i, _, word, read, block, held, starts, _⟩ := points
  rw [Option.mem_def, leakingHeap_eq] at held
  have small : word ≤ 4100 := by
    have read : (if start + UInt64.ofNat (i * sizeofPointer) = 65536 then (4100 : Addr) else 0) = word :=
      Option.some.inj read
    rw [← read]
    split <;> decide
  split at held
  next second =>
    subst second
    exact absurd (UInt64.le_trans starts small) (by decide)
  next =>
    split at held
    next first => exact first
    next => cases held

theorem isLeak_iff (address : Addr) : leakingHeap.IsLeak heldFirst address ↔ address = 8192 := by
  have reached : leakingHeap.Reached heldFirst 4096 := by
    have isRoot : dataRoot 65536 8 ∈ heldFirst.roots := by decide
    exact .root isRoot ⟨0, by decide, 4100, rfl, (24, [16, 32]), rfl, by decide, by decide⟩
  constructor
  · rintro ⟨present, unreached⟩
    rw [leakingHeap_eq] at present
    split at present
    next second => exact second
    next =>
      split at present
      next first => exact absurd (first ▸ reached) unreached
      next => exact absurd rfl present
  · rintro rfl
    refine ⟨by rw [leakingHeap_eq, if_pos rfl]; exact Option.some_ne_none _, fun reached => ?_⟩
    have first : (8192 : Addr) = 4096 := by
      cases reached with
      | root _ points => exact points_first points
      | block _ _ points => exact points_first points
    exact absurd first (by decide)

def lineOfNode (address : Addr) : Option Line :=
  if address = 20 then some ⟨some "list.c", some "node", 7⟩ else none

end Memprof.LeakList
