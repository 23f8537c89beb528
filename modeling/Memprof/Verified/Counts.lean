import Memprof.Verified.Keeping
import Memprof.Verified.Reports

/-! # Counts that a `gint` can hold

A reset of a window that has a report leaves a reference to each block of it, so that the
count of a block has no bound that its holders set.  As long as every reference that is
taken finds room in the `gint`, it is the count of the model.
-/

namespace Memprof.Counts

open Library Accounting Keeping Reports

/-- `G_MAXINT` -/
def gintMax : ℤ := 2 ^ 31 - 1

/-- The blocks that an operation takes a reference to can be counted once more. -/
def Room (session : Session) : Reports.Operation → Prop
  | .process (.processDuplicate p) =>
    ∀ process ∈ session.world.processes[p]?, ∀ b ∈ process.held, session.world.blocks.refs b < gintMax
  -- The old report is let go before the search.
  | .generateLeakCb w _ (some _) => ∀ pwin ∈ session.windows[w]?, ∀ p ∈ pwin.process,
    ∀ process ∈ session.world.processes[p]?, ∀ b ∈ process.held,
      session.world.blocks.refs b - pwin.leaks.count b < gintMax
  | _ => True

instance (session : Session) (operation : Reports.Operation) : Decidable (Room session operation) := by
  unfold Room
  split <;> infer_instance

/-- What operations that all found room lead to, and whether one of them discarded a report. -/
inductive Roomy : Bool → Session → Prop
  | start : Roomy false {}
  | step {discarded : Bool} {session later : Session} {operation : Reports.Operation} (run : Roomy discarded session)
      (room : Room session operation) (performed : Reports.perform session operation = .ok later) :
      Roomy (discarded || discards session operation) later

/-! ## No count passes the limit -/

theorem kept_below {limit : ℤ} (one : 1 ≤ limit) : Kept fun blocks _ => Below limit blocks where
  erase below _ := below
  release {blocks later _ b} below released c := by
    obtain ⟨block, live, rfl⟩ := Store.release_inv released
    have before := below b
    rw [Store.refs_of_get live] at before
    split
    · rw [Store.refs_free]
      split
      · omega
      · exact below c
    · rw [Store.refs_put (Store.lt_size_of_get live)]
      split
      · rw [RefCounted.refs_setRefs]
        omega
      · exact below c
  insert {blocks _} below _ _ _ c := by
    rw [Store.refs_alloc]
    split
    · exact one
    · exact below c

variable {session later : Session} {roots lost : List BlockId}

theorem below_operation (pinned : Pinned session roots lost) {operation : Reports.Operation}
    (below : Below gintMax session.world.blocks) (room : Room session operation)
    (performed : Reports.perform session operation = .ok later) : Below gintMax later.world.blocks := by
  have one : 1 ≤ gintMax := by decide
  cases operation with
  | process operation =>
    rw [Reports.perform] at performed
    obtain ⟨world, ran, rfl⟩ := ok_of_map performed
    refine perform_kept (kept_below one) below (fun p isCopy process found own isTable taken retained b => ?_) ran
    subst isCopy
    -- Each block of a table is in it once.
    have member : process ∈ session.world.processes := List.mem_of_getElem? found
    have held : process.held = HashTable.values own := by
      rw [MPProcess.held, MPProcess.table, isTable, Option.getD_some]
    obtain ⟨_, retained', moved⟩ := Store.retainAll_moves
      (fun c listed => Store.refs_pos_of_held (pinned.held member) (held ▸ listed)) pinned.positive
    rw [retained] at retained'
    cases retained'
    have once := List.nodup_iff_count_le_one.mp (nodup_values (pinned.keyed process member)) b
    rw [← MPProcess.held, held] at once
    rw [moved.refs]
    by_cases listed : b ∈ HashTable.values own
    · have := room process found b (held ▸ listed)
      omega
    · rw [List.count_eq_zero_of_not_mem listed]
      have := below b
      omega
  | processCreated p =>
    cases performed
    exact below
  | generateLeakCb w fuel target =>
    obtain ⟨_, _, bounded⟩ := (pinned.generateLeakCb w fuel target).of_ok performed
    refine bounded gintMax one below fun searched => ?_
    obtain ⟨target, rfl⟩ := Option.ne_none_iff_exists'.mp searched
    exact room
  | processWindowReset w =>
    obtain ⟨pwin, _, performed⟩ := ok_of_bind performed
    cases performed
    exact below

theorem roomy_pinned {discarded : Bool} (run : Roomy discarded session) :
    ∃ roots lost, Pinned session roots lost ∧ (discarded = false → lost = []) ∧
      Below gintMax session.world.blocks := by
  induction run with
  | start => exact ⟨[], [], pinned_start, fun _ => rfl, fun _ => show (0 : ℤ) ≤ gintMax by decide⟩
  | @step discarded session later operation _ room performed inductionHypothesis =>
    obtain ⟨roots, lost, pinned, nothing, below⟩ := inductionHypothesis
    obtain ⟨newRoots, newLost, kept, nothingNew⟩ := (pinned.operation operation).of_ok performed
    refine ⟨_, _, kept, fun never => ?_, below_operation pinned below room performed⟩
    rw [Bool.or_eq_false_iff] at never
    rw [nothing never.1, nothingNew never.2, List.append_nil]

theorem gint_eq {block : Block} (positive : 0 < block.refcount) (below : block.refcount ≤ gintMax) :
    block.gint = block.refcount := by
  unfold gintMax at below
  exact Int.bmod_eq_of_le_mul_two (by norm_num; omega) (by norm_num; omega)

/-- In a run in which every reference that is taken finds room, what a table or a report holds
is there, no count wraps or is less than the number of the holders, and no operation with
room comes to a block that is gone.  As long as no report has been discarded the count is that
number, so that a block is there exactly while something holds it. -/
theorem roomy_holds {discarded : Bool} (run : Roomy discarded session) :
    (∀ b, 0 < holders session b → ∃ block, session.world.blocks.get b = some block) ∧
      (∀ b block, session.world.blocks.get b = some block →
        block.gint = block.refcount ∧ (holders session b : ℤ) ≤ block.gint) ∧
      (∀ operation, Room session operation → Reports.perform session operation ≠ .error .useAfterFree) ∧
      (discarded = false → ∀ b block, session.world.blocks.get b = some block → block.flags.isRoot = false →
        0 < holders session b ∧ block.gint = holders session b) := by
  obtain ⟨roots, lost, pinned, nothing, below⟩ := roomy_pinned run
  -- Every reference belongs to a holder, is that of a root, or was lost with a report.
  have counted : ∀ b, session.world.blocks.refs b = ((holders session b + roots.count b + lost.count b : ℕ) : ℤ) := by
    intro b
    rw [pinned.holders_eq]
    exact pinned.counted b
  have unwrapped : ∀ b block, session.world.blocks.get b = some block → block.gint = block.refcount := by
    intro b block live
    have atMost := below b
    rw [Store.refs_of_get live] at atMost
    exact gint_eq (pinned.positive b block live) atMost
  refine ⟨fun b held => ?_, fun b block live => ⟨unwrapped b block live, ?_⟩, fun operation _ => ?_,
    fun never b block live plain => ?_⟩
  · refine Store.exists_get_of_refs_pos ?_
    rw [counted]
    omega
  · have refs := Store.refs_of_get live
    rw [counted, refs_block] at refs
    rw [unwrapped b block live]
    omega
  · have ensured := pinned.operation operation
    intro freed
    rw [freed] at ensured
    exact ensured rfl
  · have refs := Store.refs_of_get live
    have positive := pinned.positive b block live
    have noRoot : roots.count b = 0 := pinned.count_roots live plain
    rw [counted, noRoot, nothing never, refs_block, List.count_nil] at refs
    rw [refs_block] at positive
    rw [unwrapped b block live]
    constructor <;> omega

/-- The operations of a list, one after the other, have room. -/
theorem roomy_of_runAll {operations : List Reports.Operation}
    (room : ∀ earlier operation reached, earlier ++ [operation] <+: operations →
      runAll earlier = .ok reached → Room reached.2 operation) {discarded : Bool}
    (ran : runAll operations = .ok (discarded, session)) : Roomy discarded session := by
  refine @foldlM_invariant _ _ _ _ (fun state : Bool × Session => Roomy state.1 state.2)
    (fun state operation => Room state.2 operation) _ .start (fun state operation later run room stepped => ?_) _ room
    operations (discarded, session) (List.prefix_refl _) ran
  obtain ⟨next, performed, rfl⟩ := ok_of_map stepped
  exact .step run room performed

/-- A block of two tables that nothing points to is in the report of one of them. -/
theorem roomy_holds_reported :
    ∃ session, holders session 0 = 3 ∧
      (∀ b, 0 < holders session b → ∃ block, session.world.blocks.get b = some block) ∧
      (∀ b block, session.world.blocks.get b = some block →
        block.gint = block.refcount ∧ (holders session b : ℤ) ≤ block.gint) ∧
      (∀ operation, Room session operation → Reports.perform session operation ≠ .error .useAfterFree) ∧
      (∀ b block, session.world.blocks.get b = some block → block.flags.isRoot = false →
        0 < holders session b ∧ block.gint = holders session b) := by
  have returns : (runAll leaking).toOption.map (fun state => (state.1, holders state.2 0)) = some (false, 3) := by
    decide +kernel
  obtain ⟨⟨discarded, session⟩, ran, counted⟩ := Option.map_eq_some_iff.mp returns
  simp only [Prod.mk.injEq] at counted
  obtain ⟨rfl, three⟩ := counted
  have run : Roomy false session := roomy_of_runAll (forall_steps_iff.mp (by decide +kernel)) (ok_of_toOption ran)
  obtain ⟨held, atLeast, noFault, counts⟩ := roomy_holds run
  exact ⟨session, three, held, atLeast, noFault, counts rfl⟩

/-! ## A count that wraps -/

/-- The one block there is, in the table of the process that allocated it. -/
def listed : BlockTable := AList.insert 16 0 ∅

def owner : MPProcess := { seqno := 1, bytesUsed := 8, nAllocations := 1, blockTable := some listed }

def shared (count : ℤ) : Store Block := ⟨[some { addr := 16, size := 8, stack := none, refcount := count }]⟩

/-- A fork of the owner, before and after the record of what it does is reset. -/
def copied : MPProcess :=
  { seqno := 1, bytesUsed := 8, nAllocations := 1, blockTable := some (HashTable.copy listed), parent := some 0 }

def cleared : MPProcess := { copied with bytesUsed := 0, nAllocations := 0, blockTable := none }

def sessionOf (count : ℤ) (processes : List MPProcess) (windows : List ProcessWindow) : Session :=
  { world := { blocks := shared count, processes := owner :: processes }, windows := windows }

variable (count : ℤ) (processes : List MPProcess) (windows : List ProcessWindow)

theorem perform_duplicate : Reports.perform (sessionOf count processes windows) (.process (.processDuplicate 0)) =
    .ok (sessionOf (count + 1) (processes ++ [copied]) windows) := by
  have added : (owner :: processes ++ [({} : MPProcess)]).set (owner :: processes).length copied =
      owner :: (processes ++ [copied]) := by simp
  refine Eq.trans ?_ (congrArg
    (fun all => Except.ok (Session.mk { blocks := shared (count + 1), processes := all } windows))
    added)
  rfl

theorem perform_created (p : ProcId) : Reports.perform (sessionOf count processes windows) (.processCreated p) =
    .ok (sessionOf count processes (windows ++ [{ process := some p }])) := rfl

/-- The memory of the target has no pointers. -/
def unread : Target := { peekData := fun _ => none }

theorem leaksFind_copied {q : ProcId} {world : World} (found : world.process q = .ok copied)
    (same : world.blocks = shared count) :
    leaksFind 9 world q unread = .ok ({ world with blocks := shared (count + 1) }, [0]) := by
  have kept : world.setProcess q (getBlockTable copied) = world := World.setProcess_self found
  rw [leaksFind, found, ok_bind, kept]
  have prepared : copied.held.foldlM prepareBlock (shared count, []) = .ok (shared (count + 1), [0]) := rfl
  have sorted : sortBlocks (shared (count + 1)) [0] = .ok [0] := by
    show Except.ok _ = _
    rw [List.reverse_singleton, List.mergeSort_singleton]
    rfl
  have marked : leaksMark 9 unread [0] 9 (shared (count + 1), []) = .ok (shared (count + 1)) := rfl
  have swept : leaksSweep 0 [0] (shared (count + 1), []) = .ok (shared (count + 1), [0]) := rfl
  simp only [same, prepared, ok_bind, sorted]
  rw [show addDataRoots unread (addStackRoots unread (shared (count + 1), [])) = (shared (count + 1), []) from rfl,
    marked, ok_bind, swept, ok_bind]

/-- The copy has no channel to watch. -/
theorem inputs_copied {q : ProcId} {world : World} (found : world.process q = .ok copied) :
    world.processStopInput q = .ok world ∧ world.processStartInput q = .ok world := by
  constructor
  · rw [World.processStopInput, found, ok_bind]
    rfl
  · rw [World.processStartInput, found, ok_bind]
    rfl

theorem perform_report : Reports.perform
    (sessionOf count (processes ++ [copied]) (windows ++ [{ process := some (processes.length + 1) }]))
      (.generateLeakCb windows.length 9 (some unread)) =
    .ok (sessionOf (count + 1) (processes ++ [copied])
      (windows ++ [{ process := some (processes.length + 1), leaks := [0], usageLeaked := 8 }])) := by
  have shown : (sessionOf count (processes ++ [copied])
      (windows ++ [{ process := some (processes.length + 1) }])).window windows.length =
      .ok { process := some (processes.length + 1) } := by
    simp [Session.window, sessionOf]
  have found : ∀ other all,
      (sessionOf other (processes ++ [copied]) all).world.process (processes.length + 1) = .ok copied := by
    simp [World.process_eq_ok, sessionOf]
  have usage : Session.usageOf (shared (count + 1)) [0] = .ok 8 := rfl
  rw [Reports.perform, Session.generateLeakCb, shown, ok_bind]
  simp only [(inputs_copied (found count _)).1, ok_bind, Session.releaseLeaks, List.foldlM_nil]
  have searched : Session.findLeaks 9 (sessionOf count (processes ++ [copied]) windows).world (processes.length + 1)
      (some unread) = .ok ((sessionOf (count + 1) (processes ++ [copied]) windows).world, [0]) :=
    leaksFind_copied count (found count windows) rfl
  show (Session.findLeaks 9 (sessionOf count (processes ++ [copied]) windows).world (processes.length + 1)
      (some unread) >>= _) = _
  rw [searched, ok_bind]
  show (Session.usageOf (shared (count + 1)) [0] >>= _) = _
  rw [usage, ok_bind, (inputs_copied (found (count + 1) windows)).2, ok_bind]
  simp [Session.setWindow, sessionOf]

theorem perform_reset (shown : ProcId) : Reports.perform
    (sessionOf count processes (windows ++ [{ process := some shown, leaks := [0], usageLeaked := 8 }]))
      (.processWindowReset windows.length) =
    .ok (sessionOf count processes (windows ++ [{ process := some shown }])) := by
  have read : (sessionOf count processes (windows ++ [{ process := some shown, leaks := [0], usageLeaked := 8 }])).window
      windows.length = .ok { process := some shown, leaks := [0], usageLeaked := 8 } := by
    simp [Session.window, sessionOf]
  rw [Reports.perform, Session.processWindowReset, read, ok_bind]
  simp [Session.setWindow, sessionOf]

theorem perform_clear (two : 1 < count) : Reports.perform (sessionOf count (processes ++ [copied]) windows)
      (.process (.processClearInput (processes.length + 1))) =
    .ok (sessionOf (count - 1) (processes ++ [cleared]) windows) := by
  have found :
      (sessionOf count (processes ++ [copied]) windows).world.process (processes.length + 1) = .ok copied := by
    simp [World.process_eq_ok, sessionOf]
  have released : (shared count).releaseAll (HashTable.values (HashTable.copy listed)) =
      some (shared (count - 1)) := by
    have last : ¬ count - 1 = 0 := by omega
    have first : (shared count).release 0 = some (shared (count - 1)) := by
      rw [Store.release, show (shared count).get 0 = some _ from rfl, Option.map_some, refs_block, if_neg last]
      rfl
    show ((shared count).release 0).bind some = _
    rw [first, Option.bind_some]
  have freed : freeBlocks (shared count) copied.blockTable = .ok (shared (count - 1)) := by
    simp only [freeBlocks, copied, released]
  rw [Reports.perform, Accounting.perform, World.processClearInput, World.dropBlocks, found, ok_bind]
  show Except.map _ (freeBlocks (shared count) copied.blockTable >>= _) = _
  rw [freed, ok_bind]
  show Except.ok _ = Except.ok _
  simp [sessionOf, World.setProcess, cleared, copied]

variable {count processes windows}

/-- A fork, a report of what it leaks, and a reset of its record: its table and its window are
empty again, and the block has one more reference. -/
theorem run_round (positive : 0 < count) {discarded : Bool}
    (run : Run discarded (sessionOf count processes windows)) :
    ∃ discarded' processes' windows', Run discarded' (sessionOf (count + 1) processes' windows') := by
  have forked := run.step (perform_duplicate count processes windows)
  have opened := forked.step (perform_created (count + 1) (processes ++ [copied]) windows (processes.length + 1))
  have reported := opened.step (perform_report (count + 1) processes windows)
  have reset := reported.step (perform_reset (count + 1 + 1) (processes ++ [copied]) windows (processes.length + 1))
  have emptied := reset.step (perform_clear (count + 1 + 1) processes _ (by omega))
  rw [add_sub_cancel_right] at emptied
  exact ⟨_, _, _, emptied⟩

theorem run_rounds (n : ℕ) : ∃ discarded processes windows, Run discarded (sessionOf (n + 1) processes windows) := by
  induction n with
  | zero =>
    have created := Run.start.step (show Reports.perform {} (.process .processNew) = Except.ok _ from rfl)
    exact ⟨_, [], [], created.step (show Reports.perform _
      (.process (.processCommand 0 { operation := .malloc, newPtr := 16, size := 8 } none)) = Except.ok _ from rfl)⟩
  | succ n inductionHypothesis =>
    obtain ⟨_, _, _, run⟩ := inductionHypothesis
    rw [Nat.cast_succ]
    exact run_round (by omega) run

/-- With `2^31 - 1` rounds the count of a block that is held is negative. -/
theorem run_wraps : ∃ discarded session, Run discarded session ∧
    ∃ block, session.world.blocks.get 0 = some block ∧ block.gint < holders session 0 := by
  obtain ⟨discarded, processes, windows, run⟩ := run_rounds (2 ^ 31 - 1)
  refine ⟨discarded, _, run, _, rfl, ?_⟩
  have wrapped :
      Block.gint { addr := 16, size := 8, stack := none, refcount := ((2 ^ 31 - 1 : ℕ) : ℤ) + 1 } = -2 ^ 31 := by
    decide
  rw [wrapped]
  omega

end Memprof.Counts
