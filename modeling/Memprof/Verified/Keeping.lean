import Memprof.Verified.Accounting

/-! # What the operations of `process.c` keep of the blocks

A command lets blocks go and lists new ones, and a table that is dropped lets its blocks
go.  Only a copy of a table takes references.
-/

namespace Memprof.Keeping

open Library Accounting

/-- What holds of the blocks and a table holds again after a reference is dropped, an entry is
removed, and a reported block is listed. -/
structure Kept (invariant : Store Block → BlockTable → Prop) : Prop where
  release {blocks later : Store Block} {table : BlockTable} {b : BlockId} (held : invariant blocks table)
    (released : blocks.release b = some later) : invariant later table
  erase {blocks : Store Block} {table : BlockTable} (held : invariant blocks table) (addr : Addr) :
    invariant blocks (table.erase addr)
  insert {blocks : Store Block} {table : BlockTable} (held : invariant blocks table) (addr : Addr) (size : UInt32)
    (stack : StackPtr) :
    invariant (blocks.alloc { addr := addr, size := size, stack := stack }).1 (table.insert addr blocks.size)

/-! ## Commands -/

section Commands

variable {invariant : Store Block → BlockTable → Prop} (kept : Kept invariant) {blocks later : Store Block}
  {process later' : MPProcess}

include kept

theorem removeOld_kept (held : invariant blocks process.table) {oldPtr : Addr} {stack : StackPtr}
    (ran : removeOld blocks process oldPtr stack = .ok (later, later')) : invariant later later'.table := by
  unfold removeOld at ran
  split at ran
  · split at ran
    · cases ran
      exact held
    · split at ran
      · cases ran
      · obtain ⟨released, unreferenced, ran⟩ := ok_of_bind ran
        cases ran
        unfold blockUnref at unreferenced
        split at unreferenced <;> cases unreferenced
        next released => exact kept.erase (kept.release held released) oldPtr
  · cases ran
    exact held

theorem insertNew_kept (held : invariant blocks process.table) (info : MIInfo) (stack : StackPtr) :
    invariant (insertNew blocks process info stack).1 (insertNew blocks process info stack).2.table := by
  unfold insertNew
  split
  · exact kept.insert held _ _ _
  · exact held

theorem reportBlock_kept (held : invariant blocks process.table) {info info' : MIInfo} {stack : StackPtr}
    (ran : reportBlock blocks process info stack = .ok (later, later', info')) : invariant later later'.table := by
  have made : invariant blocks (getBlockTable process).table := held
  unfold reportBlock at ran
  obtain ⟨⟨removed, process⟩, ranOld, ran⟩ := ok_of_bind ran
  cases ran
  exact insertNew_kept kept (removeOld_kept kept made ranOld) info stack

theorem applyCommand_kept (held : invariant blocks process.table) {info info' : MIInfo} {stack : StackPtr}
    (ran : applyCommand blocks process info stack = .ok (later, later', info')) : invariant later later'.table := by
  have numbered : invariant blocks { process with seqno := process.seqno + 1 }.table := held
  unfold applyCommand at ran
  cases operation : info.operation with
  | new | fork | clone | exec => rw [operation] at ran; cases ran
  | exit => rw [operation] at ran; cases ran; exact numbered
  | time | malloc | realloc | free | other _ _ =>
    rw [operation] at ran
    exact reportBlock_kept kept numbered ran

theorem commandFuel_kept (fuel : ℕ) :
    (∀ {blocks later : Store Block} {process later' : MPProcess} {info info' : MIInfo} {stack : StackPtr},
      invariant blocks process.table →
        processCommandFuel fuel blocks process info stack = .ok (later, later', info') → invariant later later'.table) ∧
    ∀ {blocks later : Store Block} {process later' : MPProcess} {info info' : MIInfo},
      invariant blocks process.table → drainFuel fuel blocks process info = .ok (later, later', info') →
        invariant later later'.table := by
  induction fuel with
  | zero =>
    constructor
    · intro _ _ _ _ _ _ _ _ ran
      cases ran
    · intro _ _ _ _ _ _ _ ran
      cases ran
  | succ fuel inductionHypothesis =>
    constructor
    · intro blocks later process later' info info' stack held ran
      rw [processCommandFuel] at ran
      split at ran
      · cases ran
        exact held
      · obtain ⟨⟨applied, process, info⟩, ranApply, ran⟩ := ok_of_bind ran
        exact inductionHypothesis.2 (applyCommand_kept kept held ranApply) ran
    · intro blocks later process later' info info' held ran
      rw [drainFuel] at ran
      cases due : unqueueCommand process with
      | none =>
        rw [due] at ran
        cases ran
        exact held
      | some taken =>
        rw [due] at ran
        obtain ⟨⟨applied, process, info⟩, ranCommand, ran⟩ := ok_of_bind ran
        refine inductionHypothesis.2 (inductionHypothesis.1 ?_ ranCommand) ran
        -- Only the queue is shorter.
        unfold unqueueCommand at due
        split at due
        · cases due
        · split at due <;> cases due
          exact held

theorem processCommand_kept (held : invariant blocks process.table) {info info' : MIInfo} {stack : StackPtr}
    (ran : processCommand blocks process info stack = .ok (later, later', info')) : invariant later later'.table :=
  (commandFuel_kept kept _).1 held ran

end Commands

/-! ## Operations -/

variable {invariant : Store Block → Prop} (kept : Kept fun blocks _ => invariant blocks) {blocks later : Store Block}

include kept

theorem releaseAll_kept (held : invariant blocks) {ids : List BlockId} (ran : blocks.releaseAll ids = some later) :
    invariant later := by
  induction ids generalizing blocks with
  | nil =>
    cases ran
    exact held
  | cons b ids inductionHypothesis =>
    obtain ⟨next, first, rest⟩ := Option.bind_eq_some_iff.mp ran
    have released : invariant next := @Kept.release _ kept _ _ ∅ _ held first
    exact inductionHypothesis released rest

theorem freeBlocks_kept (held : invariant blocks) {table : Option BlockTable}
    (ran : freeBlocks blocks table = .ok later) : invariant later := by
  unfold freeBlocks at ran
  split at ran
  · cases ran
    exact held
  · split at ran <;> cases ran
    next released => exact releaseAll_kept kept held released

omit kept in
theorem duplicateBlocks_kept (held : invariant blocks) {table copy : Option BlockTable}
    (copies : ∀ own ∈ table, ∀ taken, blocks.retainAll (HashTable.values own) = some taken → invariant taken)
    (ran : duplicateBlocks blocks table = .ok (later, copy)) : invariant later := by
  unfold duplicateBlocks at ran
  split at ran
  · cases ran
    exact held
  · split at ran <;> cases ran
    next taken retained => exact copies _ rfl _ retained

theorem dropBlocks_kept {world later : World} (held : invariant world.blocks) {p : ProcId}
    (ran : world.dropBlocks p = .ok later) : invariant later.blocks := by
  unfold World.dropBlocks at ran
  obtain ⟨process, _, ran⟩ := ok_of_bind ran
  obtain ⟨blocks, freed, ran⟩ := ok_of_bind ran
  obtain ⟨stashes, _, ran⟩ := ok_of_bind ran
  cases ran
  exact freeBlocks_kept kept held freed

/-- What a copy of the table keeps too, every operation keeps. -/
theorem perform_kept {world later : World} (held : invariant world.blocks) {operation : Operation}
    (copies : ∀ p, operation = .processDuplicate p → ∀ process ∈ world.processes[p]?, ∀ own ∈ process.blockTable,
      ∀ taken, world.blocks.retainAll (HashTable.values own) = some taken → invariant taken)
    (performed : perform world operation = .ok later) : invariant later.blocks := by
  cases operation with
  | processNew =>
    cases performed
    exact held
  | getStackStash p =>
    obtain ⟨⟨_, _⟩, ran, rfl⟩ := ok_of_map performed
    unfold World.getStackStash at ran
    obtain ⟨process, _, ran⟩ := ok_of_bind ran
    split at ran <;> cases ran <;> exact held
  | processCommand p info stack =>
    obtain ⟨process, _, ran⟩ := ok_of_bind performed
    obtain ⟨⟨blocks, next, _⟩, ranCommand, ran⟩ := ok_of_bind ran
    cases ran
    exact processCommand_kept kept held ranCommand
  | processClearInput p => exact dropBlocks_kept kept held performed
  | processExecReset p =>
    obtain ⟨stopped, ranStop, ran⟩ := ok_of_bind performed
    obtain ⟨dropped, ranDrop, ran⟩ := ok_of_bind ran
    obtain ⟨process, _, ran⟩ := ok_of_bind ran
    cases ran
    have same : stopped.blocks = world.blocks := (processStopInput_keeps ranStop).1
    have later : invariant dropped.blocks := dropBlocks_kept kept (by rwa [same]) ranDrop
    exact later
  | processDuplicate p =>
    obtain ⟨⟨_, _⟩, ran, rfl⟩ := ok_of_map performed
    obtain ⟨process, found, ran⟩ := ok_of_bind ran
    obtain ⟨⟨blocks, table⟩, duplicated, ran⟩ := ok_of_bind ran
    cases ran
    exact duplicateBlocks_kept held (copies p rfl process (World.process_eq_ok.mp found)) duplicated

end Memprof.Keeping
