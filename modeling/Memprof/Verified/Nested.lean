import Memprof.Verified.Dumping
import Memprof.Verified.Isolation
import Memprof.Verified.Recycling

/-! # Reports inside reports

An allocator call may report itself more than once: `__libc_malloc` is called twice for
one block while `malloc` is being initialized, and `realloc` can call `malloc` and `free`.
An address that is listed is not listed again, and one that is not cannot be removed, so
the copies change nothing.  But the second release of a block is about one that is not
found, and its stack is written.
-/

namespace Memprof.Nested

open Library Blocks Delivery Accounting Isolation Threads Dumping

/-! ## Reports in order -/

/-- The report of an allocation, whoever sends it and in whatever place. -/
def Carries (command : Command) (info : MIInfo) : Prop :=
  command.info.operation = info.operation ∧ command.info.oldPtr = info.oldPtr ∧
    command.info.newPtr = info.newPtr ∧ command.info.size = info.size

def applyReport (sizes : Sizes) (info : MIInfo) : Sizes := sizes.report info.oldPtr info.newPtr info.size.toUInt32

theorem Carries.report {command : Command} {info : MIInfo} (carries : Carries command info) (sizes : Sizes) :
    applyReport sizes command.info = applyReport sizes info := by
  obtain ⟨_, oldPtr, newPtr, size⟩ := carries
  rw [applyReport, applyReport, oldPtr, newPtr, size]

theorem sizesOf_apply {contents : Contents} {info : MIInfo} (allocation : IsAllocation info) (seqno : UInt32)
    (stack : StackPtr) : sizesOf (contents.apply seqno info stack) = applyReport (sizesOf contents) info := by
  rcases allocation with is | is | is <;> rw [Contents.apply, is] <;> exact sizesOf_report _ _ _ _ _

theorem sizesOf_applyAll {commands : List Command} (allocations : ∀ command ∈ commands, IsAllocation command.info)
    (contents : Contents) (seqno : UInt32) : sizesOf (contents.applyAll seqno commands) =
      (commands.map Command.info).foldl applyReport (sizesOf contents) := by
  induction commands generalizing contents seqno with
  | nil => rfl
  | cons command commands inductionHypothesis =>
    rw [Contents.applyAll, inductionHypothesis fun other member => allocations other (by simp [member]),
      sizesOf_apply (allocations command (by simp))]
    rfl

/-- The reports of blocks that are not listed. -/
def missing (sizes : Sizes) (command : Command) : List Dump :=
  if command.info.oldPtr ≠ 0 ∧ sizes command.info.oldPtr = none then [⟨command.info.oldPtr, command.stack⟩] else []

def missingAll (sizes : Sizes) : List Command → List Dump
  | [] => []
  | command :: commands => missing sizes command ++ missingAll (applyReport sizes command.info) commands

theorem missingAll_append (sizes : Sizes) (left right : List Command) : missingAll sizes (left ++ right) =
    missingAll sizes left ++ missingAll ((left.map Command.info).foldl applyReport sizes) right := by
  induction left generalizing sizes with
  | nil => rfl
  | cons command left inductionHypothesis =>
    rw [List.cons_append, missingAll, inductionHypothesis, ← List.append_assoc]
    rfl

theorem dumps_eq {command : Command} (allocation : IsAllocation command.info) (contents : Contents) :
    contents.dumps command.info command.stack = missing (sizesOf contents) command := by
  have listed : sizesOf contents command.info.oldPtr = none ↔ contents command.info.oldPtr = none :=
    Option.map_eq_none_iff
  simp only [missing, listed]
  rcases allocation with is | is | is <;> rw [Contents.dumps, is] <;> rfl

theorem dumpsAll_eq {commands : List Command} (allocations : ∀ command ∈ commands, IsAllocation command.info)
    (contents : Contents) (seqno : UInt32) :
    contents.dumpsAll seqno commands = missingAll (sizesOf contents) commands := by
  induction commands generalizing contents seqno with
  | nil => rfl
  | cons command commands inductionHypothesis =>
    have allocation := allocations command (by simp)
    rw [Contents.dumpsAll, inductionHypothesis fun other member => allocations other (by simp [member]),
      dumps_eq allocation, sizesOf_apply allocation]
    rfl

/-- Allocations reported in order leave what their reports say, one after the other. -/
theorem feed_sizes {blocks : Store Block} {process : MPProcess} (coherent : Coherent blocks process.table)
    (idle : process.commandQueue = []) {commands : List Command} (numbered : Successive process.seqno commands)
    (allocations : ∀ command ∈ commands, IsAllocation command.info) :
    ∃ blocks' process', feed (blocks, process) commands = .ok (blocks', process') ∧ process'.commandQueue = [] ∧
      Step blocks process blocks' process' ∧ sizes blocks' process'.table =
        (commands.map Command.info).foldl applyReport (sizes blocks process.table) ∧
      process'.dumps = process.dumps ++ missingAll (sizes blocks process.table) commands := by
  have reported : ∀ command ∈ commands, IsReport command.info.operation := by
    intro command member
    rcases allocations command member with is | is | is <;> rw [is] <;> trivial
  obtain ⟨blocks', process', fed, empty, _, step, _, table, dumps⟩ := feed_successive coherent idle numbered reported
  refine ⟨blocks', process', fed, empty, step, ?_, ?_⟩
  · show sizesOf (contents blocks' process'.table) = _
    rw [table, sizesOf_applyAll allocations]
    rfl
  · rw [dumps, dumpsAll_eq allocations]
    rfl

/-! ## Copies of a report -/

section Sizes

variable (sizes : Sizes)

theorem remove_null : sizes.remove 0 = sizes := if_pos rfl

theorem insert_null (size : UInt32) : sizes.insert 0 size = sizes := if_neg fun fresh => fresh.1 rfl

theorem report_malloc (newPtr : Addr) (size : UInt64) :
    applyReport sizes (mallocInfo newPtr size) = sizes.insert newPtr size.toUInt32 := by
  rw [applyReport, mallocInfo, Sizes.report, remove_null]

theorem report_free (oldPtr : Addr) : applyReport sizes (freeInfo oldPtr) = sizes.remove oldPtr := by
  rw [applyReport, freeInfo, Sizes.report, insert_null]

theorem report_realloc (oldPtr newPtr : Addr) (size : UInt64) :
    applyReport sizes (reallocInfo oldPtr newPtr size) = (sizes.remove oldPtr).insert newPtr size.toUInt32 := rfl

theorem remove_remove (oldPtr : Addr) : (sizes.remove oldPtr).remove oldPtr = sizes.remove oldPtr := by
  unfold Sizes.remove
  split
  · rfl
  · rw [Function.update_idem]

/-- An address that is listed is not listed again. -/
theorem insert_insert (newPtr : Addr) (size : UInt32) :
    (sizes.insert newPtr size).insert newPtr size = sizes.insert newPtr size := by
  by_cases fresh : newPtr ≠ 0 ∧ sizes newPtr = none
  · have listed : sizes.insert newPtr size newPtr ≠ none := by
      rw [Sizes.insert, if_pos fresh, Function.update_self]
      exact Option.some_ne_none size
    exact if_neg fun again => listed again.2
  · have unchanged : sizes.insert newPtr size = sizes := if_neg fresh
    rw [unchanged, unchanged]

/-- What happens to one address leaves the others alone. -/
theorem remove_insert {oldPtr newPtr : Addr} (moved : newPtr ≠ oldPtr) (size : UInt32) :
    (sizes.insert newPtr size).remove oldPtr = (sizes.remove oldPtr).insert newPtr size := by
  by_cases null : oldPtr = 0
  · rw [null, remove_null, remove_null]
  · have same : sizes.remove oldPtr newPtr = sizes newPtr := by
      rw [Sizes.remove, if_neg null, Function.update_of_ne moved]
    by_cases fresh : newPtr ≠ 0 ∧ sizes newPtr = none
    · rw [Sizes.insert, if_pos fresh, Sizes.insert, same, if_pos fresh, Sizes.remove, if_neg null, Sizes.remove,
        if_neg null, Function.update_comm moved]
    · rw [Sizes.insert, if_neg fresh, Sizes.insert, same, if_neg fresh]

end Sizes

/-- A report, and what the allocator makes of it when its calls are nested. -/
inductive Expands : Command → List Command → Prop
  | malloc {command : Command} {copies : List Command} {newPtr : Addr} {size : UInt64}
      (carries : Carries command (mallocInfo newPtr size)) (some : copies ≠ [])
      (all : ∀ copy ∈ copies, Carries copy (mallocInfo newPtr size)) : Expands command copies
  | free {command : Command} {copies : List Command} {oldPtr : Addr} (carries : Carries command (freeInfo oldPtr))
      (some : copies ≠ []) (all : ∀ copy ∈ copies, Carries copy (freeInfo oldPtr)) : Expands command copies
  | realloc {command copy : Command} {before after : List Command} {oldPtr newPtr : Addr} {size : UInt64}
      (carries : Carries command (reallocInfo oldPtr newPtr size)) (moved : newPtr ≠ oldPtr)
      (itself : Carries copy (reallocInfo oldPtr newPtr size)) (once : before.length ≤ 1)
      (allocated : ∀ nested ∈ before, Carries nested (mallocInfo newPtr size)) (onceAfter : after.length ≤ 1)
      (released : ∀ nested ∈ after, Carries nested (freeInfo oldPtr)) : Expands command (before ++ copy :: after)
  | inPlace {command copy : Command} {ptr : Addr} {size : UInt64} (carries : Carries command (reallocInfo ptr ptr size))
      (itself : Carries copy (reallocInfo ptr ptr size)) : Expands command [copy]

theorem Carries.allocation {command : Command} {info : MIInfo} (carries : Carries command info)
    (allocation : IsAllocation info) : IsAllocation command.info := by
  rw [IsAllocation, carries.1]
  exact allocation

theorem Expands.allocation {command : Command} {copies : List Command} (expands : Expands command copies) :
    IsAllocation command.info := by
  cases expands with
  | malloc carries => exact carries.allocation (.inl rfl)
  | free carries => exact carries.allocation (.inr (.inr rfl))
  | realloc carries => exact carries.allocation (.inr (.inl rfl))
  | inPlace carries => exact carries.allocation (.inr (.inl rfl))

theorem Expands.allocations {command : Command} {copies : List Command} (expands : Expands command copies) :
    ∀ copy ∈ copies, IsAllocation copy.info := by
  intro copy member
  cases expands with
  | malloc _ _ all => exact (all copy member).allocation (.inl rfl)
  | free _ _ all => exact (all copy member).allocation (.inr (.inr rfl))
  | realloc _ _ itself _ allocated _ released =>
    rcases List.mem_append.mp member with before | member
    · exact (allocated copy before).allocation (.inl rfl)
    rcases List.mem_cons.mp member with rfl | after
    · exact itself.allocation (.inr (.inl rfl))
    · exact (released copy after).allocation (.inr (.inr rfl))
  | inPlace _ itself =>
    rw [List.mem_singleton.mp member]
    exact itself.allocation (.inr (.inl rfl))

/-- Further copies of a report that has no effect any more. -/
theorem foldl_unchanged {sizes : Sizes} {info : MIInfo} (unchanged : applyReport sizes info = sizes)
    {copies : List Command} (all : ∀ copy ∈ copies, Carries copy info) :
    (copies.map Command.info).foldl applyReport sizes = sizes := by
  induction copies with
  | nil => rfl
  | cons copy copies inductionHypothesis =>
    rw [List.map_cons, List.foldl_cons, (all copy (by simp)).report, unchanged]
    exact inductionHypothesis fun other member => all other (by simp [member])

/-- Copies of a report that has an effect only once. -/
theorem foldl_copies {sizes : Sizes} {info : MIInfo}
    (once : applyReport (applyReport sizes info) info = applyReport sizes info) {copies : List Command}
    (nonempty : copies ≠ []) (all : ∀ copy ∈ copies, Carries copy info) :
    (copies.map Command.info).foldl applyReport sizes = applyReport sizes info := by
  cases copies with
  | nil => exact absurd rfl nonempty
  | cons copy copies =>
    rw [List.map_cons, List.foldl_cons, (all copy (by simp)).report]
    exact foldl_unchanged once fun other member => all other (by simp [member])

/-- The report and its expansion have one effect. -/
theorem Expands.report {command : Command} {copies : List Command} (expands : Expands command copies) (sizes : Sizes) :
    (copies.map Command.info).foldl applyReport sizes = applyReport sizes command.info := by
  cases expands with
  | @malloc _ newPtr size carries nonempty all =>
    rw [carries.report]
    exact foldl_copies (by rw [report_malloc, report_malloc, insert_insert]) nonempty all
  | @free _ oldPtr carries nonempty all =>
    rw [carries.report]
    exact foldl_copies (by rw [report_free, report_free, remove_remove]) nonempty all
  | @realloc copy before after oldPtr newPtr size carries moved itself once allocated _ released =>
    rw [carries.report, List.map_append, List.foldl_append, List.map_cons, List.foldl_cons, itself.report]
    -- The block is there already when `realloc` reports it, and the old one has gone when `free` does.
    have nested : applyReport ((before.map Command.info).foldl applyReport sizes) (reallocInfo oldPtr newPtr size) =
        applyReport sizes (reallocInfo oldPtr newPtr size) := by
      cases before with
      | nil => rfl
      | cons first rest =>
        rw [foldl_copies (by rw [report_malloc, report_malloc, insert_insert]) (List.cons_ne_nil first rest) allocated,
          report_malloc, report_realloc, report_realloc, remove_insert _ moved, insert_insert]
    rw [nested]
    refine foldl_unchanged ?_ released
    rw [report_realloc, report_free, remove_insert _ moved, remove_remove]
  | inPlace carries itself => rw [carries.report, List.map_singleton, List.foldl_cons, List.foldl_nil, itself.report]

theorem foldl_expansions {originals : List Command} {expansions : List (List Command)}
    (expanded : List.Forall₂ Expands originals expansions) (sizes : Sizes) :
    (expansions.flatten.map Command.info).foldl applyReport sizes =
      (originals.map Command.info).foldl applyReport sizes := by
  induction expanded generalizing sizes with
  | nil => rfl
  | cons first _ inductionHypothesis =>
    rw [List.flatten_cons, List.map_append, List.foldl_append, first.report, inductionHypothesis]
    rfl

/-! ## Releases of what has been released -/

def dumpOf (command : Command) : Dump := ⟨command.info.oldPtr, command.stack⟩

/-- The copies after the first one that removes a block. -/
def extras (copies : List Command) : List Dump :=
  ((copies.dropWhile fun copy => copy.info.oldPtr = 0).tail).map dumpOf

/-- Each report finds the block that it is about. -/
def Finds (sizes : Sizes) : List Command → Prop
  | [] => True
  | command :: commands =>
    (command.info.oldPtr = 0 ∨ sizes command.info.oldPtr ≠ none) ∧ Finds (applyReport sizes command.info) commands

theorem missing_found {sizes : Sizes} {command : Command}
    (found : command.info.oldPtr = 0 ∨ sizes command.info.oldPtr ≠ none) : missing sizes command = [] :=
  if_neg fun lost => found.elim lost.1 fun listed => listed lost.2

theorem missingAll_found {sizes : Sizes} {commands : List Command} (finds : Finds sizes commands) :
    missingAll sizes commands = [] := by
  induction commands generalizing sizes with
  | nil => rfl
  | cons command commands inductionHypothesis =>
    rw [missingAll, missing_found finds.1, inductionHypothesis finds.2]
    rfl

theorem Finds.take {sizes : Sizes} {commands : List Command} (finds : Finds sizes commands) (n : ℕ) :
    Finds sizes (commands.take n) := by
  induction commands generalizing sizes n with
  | nil => rwa [List.take_nil]
  | cons command commands inductionHypothesis =>
    cases n with
    | zero => trivial
    | succ n => exact ⟨finds.1, inductionHypothesis finds.2 n⟩

/-- Reports that remove nothing. -/
theorem missingAll_null {commands : List Command} (null : ∀ command ∈ commands, command.info.oldPtr = 0) (sizes : Sizes) :
    missingAll sizes commands = [] ∧ extras commands = [] := by
  constructor
  · induction commands generalizing sizes with
    | nil => rfl
    | cons command commands inductionHypothesis =>
      rw [missingAll, missing_found (.inl (null command (by simp))),
        inductionHypothesis fun other member => null other (by simp [member])]
      rfl
  · rw [extras, List.dropWhile_eq_nil_iff.mpr fun copy member => by simpa using null copy member]
    rfl

/-- Releases of a block that is gone. -/
theorem missingAll_gone {sizes : Sizes} {ptr : Addr} (named : ptr ≠ 0) (gone : sizes ptr = none)
    {copies : List Command} (all : ∀ copy ∈ copies, Carries copy (freeInfo ptr)) :
    missingAll sizes copies = copies.map dumpOf := by
  induction copies with
  | nil => rfl
  | cons copy copies inductionHypothesis =>
    obtain ⟨_, oldPtr, _, _⟩ := all copy (by simp)
    have oldPtr : copy.info.oldPtr = ptr := oldPtr
    have still : sizes.remove ptr = sizes := by
      rw [Sizes.remove, if_neg named, Function.update_eq_self_iff.mpr gone.symm]
    have first : missing sizes copy = [dumpOf copy] := by
      rw [missing, if_pos ⟨by rwa [oldPtr], by rwa [oldPtr]⟩, dumpOf]
    rw [missingAll, (all copy (by simp)).report, report_free, still, first,
      inductionHypothesis fun other member => all other (by simp [member])]
    rfl

theorem insert_ne_none {sizes : Sizes} {address : Addr} (listed : sizes address ≠ none) (newPtr : Addr) (size : UInt32) :
    sizes.insert newPtr size address ≠ none := by
  unfold Sizes.insert
  split
  next fresh =>
    have other : address ≠ newPtr := fun same => listed (same ▸ fresh.2)
    rwa [Function.update_of_ne other]
  next => exact listed

/-- Of an expansion everything is found up to the first report that removes the block. -/
theorem Expands.missing {command : Command} {copies : List Command} (expands : Expands command copies) {sizes : Sizes}
    (found : command.info.oldPtr = 0 ∨ sizes command.info.oldPtr ≠ none) : missingAll sizes copies = extras copies := by
  cases expands with
  | malloc carries _ all =>
    obtain ⟨none, nothing⟩ := missingAll_null (fun copy member => (all copy member).2.1) sizes
    rw [none, nothing]
  | @free _ ptr carries nonempty all =>
    have oldPtr : command.info.oldPtr = ptr := carries.2.1
    rw [oldPtr] at found
    by_cases null : ptr = 0
    · obtain ⟨none, nothing⟩ := missingAll_null (fun copy member => (all copy member).2.1.trans null) sizes
      rw [none, nothing]
    obtain ⟨first, rest, rfl⟩ := List.exists_cons_of_ne_nil nonempty
    have firstPtr : first.info.oldPtr = ptr := (all first (by simp)).2.1
    have gone : sizes.remove ptr ptr = none := by rw [Sizes.remove, if_neg null, Function.update_self]
    rw [missingAll, missing_found (by rwa [firstPtr]), (all first (by simp)).report, report_free,
      missingAll_gone null gone fun copy member => all copy (by simp [member]), extras,
      List.dropWhile_cons_of_neg (by simpa [firstPtr] using null)]
    rfl
  | @realloc copy before after oldPtr newPtr size carries moved itself once allocated _ released =>
    have same : command.info.oldPtr = oldPtr := carries.2.1
    have copyPtr : copy.info.oldPtr = oldPtr := itself.2.1
    rw [same] at found
    by_cases null : oldPtr = 0
    · obtain ⟨none, nothing⟩ := missingAll_null (fun other member => by
        rcases List.mem_append.mp member with early | member
        · exact (allocated other early).2.1
        rcases List.mem_cons.mp member with rfl | late
        · exact copyPtr.trans null
        · exact (released other late).2.1.trans null) sizes
      rw [none, nothing]
    -- The block is there until it is reallocated, and gone when it is freed.
    have early : ∀ other ∈ before, other.info.oldPtr = 0 := fun other member => (allocated other member).2.1
    have still : ((before.map Command.info).foldl applyReport sizes) oldPtr ≠ none := by
      have listed := found.resolve_left null
      clear same found once early
      induction before generalizing sizes with
      | nil => exact listed
      | cons first before inductionHypothesis =>
        rw [List.map_cons, List.foldl_cons]
        refine inductionHypothesis (fun other member => allocated other (by simp [member])) ?_
        rw [(allocated first (by simp)).report, report_malloc]
        exact insert_ne_none listed newPtr size.toUInt32
    have gone : applyReport ((before.map Command.info).foldl applyReport sizes) copy.info oldPtr = none := by
      rw [itself.report, report_realloc, ← remove_insert _ moved, Sizes.remove, if_neg null, Function.update_self]
    rw [missingAll_append, (missingAll_null early sizes).1, missingAll, missing_found (.inr (by rwa [copyPtr])),
      missingAll_gone null gone released, extras,
      List.dropWhile_append_of_pos (fun other member => by simpa using early other member),
      List.dropWhile_cons_of_neg (by simpa [copyPtr] using null)]
    rfl
  | @inPlace copy ptr size carries itself =>
    have same : command.info.oldPtr = copy.info.oldPtr := carries.2.1.trans itself.2.1.symm
    rw [same] at found
    rw [missingAll, missing_found found, missingAll, extras]
    by_cases null : copy.info.oldPtr = 0
    · rw [List.dropWhile_cons_of_pos (by simpa using null)]
      rfl
    · rw [List.dropWhile_cons_of_neg (by simpa using null)]
      rfl

theorem missingAll_expansions {originals : List Command} {expansions : List (List Command)}
    (expanded : List.Forall₂ Expands originals expansions) {sizes : Sizes} (finds : Finds sizes originals) :
    missingAll sizes expansions.flatten = (expansions.map extras).flatten := by
  induction expanded generalizing sizes with
  | nil => rfl
  | cons first _ inductionHypothesis =>
    rw [List.flatten_cons, missingAll_append, first.missing finds.1, first.report, inductionHypothesis finds.2]
    rfl

/-! ## Traces -/

theorem successive_take {commands : List Command} {seqno : UInt32} (numbered : Successive seqno commands) (n : ℕ) :
    Successive seqno (commands.take n) := by
  rw [← List.take_append_drop n commands, successive_append] at numbered
  exact numbered.1

theorem flatten_take {expansions : List (List Command)} {seqno : UInt32}
    (numbered : Successive seqno expansions.flatten) (n : ℕ) : Successive seqno (expansions.take n).flatten := by
  rw [← List.take_append_drop n expansions, List.flatten_append, successive_append] at numbered
  exact numbered.1

/-- A trace and its expansion after each of its calls, as far as the tables go: no call fails,
and both leave the same sizes and counters. -/
theorem nested_same {operations : List Operation} {world : World} (ran : run operations = .ok world)
    {process : MPProcess} (member : process ∈ world.processes) (idle : process.commandQueue = [])
    {originals : List Command} {expansions : List (List Command)} (expanded : List.Forall₂ Expands originals expansions)
    (numbered : Successive process.seqno originals) (numberedAll : Successive process.seqno expansions.flatten) (n : ℕ) :
    ∃ blocks process' blocks' process'',
      feed (world.blocks, process) (originals.take n) = .ok (blocks, process') ∧
      feed (world.blocks, process) (expansions.take n).flatten = .ok (blocks', process'') ∧
      (sizes blocks process'.table = sizes blocks' process''.table ∧ process'.bytesUsed = process''.bytesUsed ∧
        process'.nAllocations = process''.nAllocations) ∧
      process'.dumps = process.dumps ++ missingAll (sizes world.blocks process.table) (originals.take n) ∧
      process''.dumps = process.dumps ++ missingAll (sizes world.blocks process.table) (expansions.take n).flatten := by
  have sound := run_sound ran
  have coherent := sound.coherent member
  have accounts := sound.accounts process member
  have expanded := List.forall₂_take n expanded
  have allocations : ∀ command ∈ originals.take n, IsAllocation command.info := by
    intro command listed
    obtain ⟨i, inside, rfl⟩ := List.getElem_of_mem listed
    exact (List.forall₂_iff_get.mp expanded |>.2 i inside (by rw [← expanded.length_eq]; exact inside)).allocation
  have allocationsAll : ∀ command ∈ (expansions.take n).flatten, IsAllocation command.info := by
    intro command listed
    obtain ⟨copies, listedCopies, isCopy⟩ := List.mem_flatten.mp listed
    obtain ⟨i, inside, rfl⟩ := List.getElem_of_mem listedCopies
    exact (List.forall₂_iff_get.mp expanded |>.2 i (by rw [expanded.length_eq]; exact inside) inside).allocations _ isCopy
  obtain ⟨blocks, process', fed, _, step, table, dumps⟩ :=
    feed_sizes coherent idle (successive_take numbered n) allocations
  obtain ⟨blocks', process'', fed', _, step', table', dumps'⟩ :=
    feed_sizes coherent idle (flatten_take numberedAll n) allocationsAll
  have same : sizes blocks process'.table = sizes blocks' process''.table := by
    rw [table, table', foldl_expansions expanded]
  obtain ⟨bytes, number⟩ := accounts_same (step.accounts accounts) (step'.accounts accounts) step.coherent.keyed
    step'.coherent.keyed same
  exact ⟨blocks, process', blocks', process'', fed, fed', ⟨same, bytes, number⟩, dumps, dumps'⟩

/-- Whatever the profiler has seen before: after each call of a trace whose reports find their
blocks, its expansion leaves the sizes and the counters that the trace itself leaves, if and
only if the stacks of the releases of what has been released can be written. -/
theorem nested_harmless_iff {operations : List Operation} {world : World} (ran : run operations = .ok world)
    {process : MPProcess} (member : process ∈ world.processes) (idle : process.commandQueue = [])
    {originals : List Command} (finds : Finds (sizes world.blocks process.table) originals)
    {expansions : List (List Command)} (expanded : List.Forall₂ Expands originals expansions)
    (numbered : Successive process.seqno originals) (numberedAll : Successive process.seqno expansions.flatten)
    (files : ℕ → Files) (frames : StackPtr → List Addr) (written : MapReader × CString) :
    (∀ n, ∃ blocks process' blocks' process'' written',
      feedWriting files frames ((world.blocks, process), written) (originals.take n) = .ok ((blocks, process'), written) ∧
      feedWriting files frames ((world.blocks, process), written) (expansions.take n).flatten =
        .ok ((blocks', process''), written') ∧
      sizes blocks process'.table = sizes blocks' process''.table ∧ process'.bytesUsed = process''.bytesUsed ∧
      process'.nAllocations = process''.nAllocations) ↔
    ∃ written', writeDumps files frames process.pid written (expansions.map extras).flatten = .ok written' := by
  have missed (n : ℕ) : missingAll (sizes world.blocks process.table) (expansions.take n).flatten =
      ((expansions.take n).map extras).flatten :=
    missingAll_expansions (List.forall₂_take n expanded) (finds.take n)
  constructor
  · intro harmless
    obtain ⟨_, _, blocks', process'', written', _, fed, _⟩ := harmless expansions.length
    obtain ⟨fed, wrote⟩ := feedWriting_eq_ok.mp fed
    obtain ⟨_, _, _, _, _, fed', _, _, dumps⟩ :=
      nested_same ran member idle expanded numbered numberedAll expansions.length
    cases fed.symm.trans fed'
    rw [dumps, List.drop_left, missed, List.take_length] at wrote
    exact ⟨written', wrote⟩
  · rintro ⟨writtenAll, wrote⟩ n
    obtain ⟨blocks, process', blocks', process'', fed, fed', same, dumps, dumps'⟩ :=
      nested_same ran member idle expanded numbered numberedAll n
    -- What is written after `n` calls is the beginning of what is written in the end.
    have cut : (expansions.map extras).flatten =
        ((expansions.take n).map extras).flatten ++ ((expansions.drop n).map extras).flatten := by
      rw [← List.flatten_append, ← List.map_append, List.take_append_drop]
    rw [cut, writeDumps_append] at wrote
    obtain ⟨written', wrote, _⟩ := ok_of_bind wrote
    refine ⟨blocks, process', blocks', process'', written', feedWriting_eq_ok.mpr ⟨fed, ?_⟩,
      feedWriting_eq_ok.mpr ⟨fed', ?_⟩, same⟩
    · rw [dumps, List.drop_left, missingAll_found (finds.take n)]
      rfl
    · rwa [dumps', List.drop_left, missed]

def initializing : List Command :=
  [⟨{ mallocInfo 16 8 with seqno := 0 }, none⟩, ⟨{ reallocInfo 16 32 4 with seqno := 1 }, none⟩]

/-- Memory is allocated while `malloc` is being initialized, and reallocated elsewhere. -/
def initializingTwice : List (List Command) :=
  [[⟨{ mallocInfo 16 8 with seqno := 0 }, none⟩, ⟨{ mallocInfo 16 8 with seqno := 1 }, none⟩],
    [⟨{ mallocInfo 32 4 with seqno := 2 }, none⟩, ⟨{ reallocInfo 16 32 4 with seqno := 3 }, none⟩,
      ⟨{ freeInfo 16 with seqno := 4 }, some ⟨0, 0⟩⟩]]

theorem expands_initializing : List.Forall₂ Expands initializing initializingTwice := by
  have second : Expands ⟨{ reallocInfo 16 32 4 with seqno := 1 }, none⟩
      ([⟨{ mallocInfo 32 4 with seqno := 2 }, none⟩] ++
        ⟨{ reallocInfo 16 32 4 with seqno := 3 }, none⟩ :: [⟨{ freeInfo 16 with seqno := 4 }, some ⟨0, 0⟩⟩]) := by
    refine .realloc ⟨rfl, rfl, rfl, rfl⟩ (by decide) ⟨rfl, rfl, rfl, rfl⟩ (le_refl 1) ?_ (le_refl 1) ?_ <;>
    · intro nested member
      rw [List.mem_singleton.mp member]
      exact ⟨rfl, rfl, rfl, rfl⟩
  refine .cons (.malloc ⟨rfl, rfl, rfl, rfl⟩ (List.cons_ne_nil _ _) ?_) (.cons second .nil)
  intro copy member
  rcases List.mem_pair.mp member with rfl | rfl <;> exact ⟨rfl, rfl, rfl, rfl⟩

theorem finds_initializing : Finds (fun _ => none) initializing := ⟨.inl rfl, .inr (by decide), trivial⟩

/-- The stack of the nested `free`, of one frame. -/
def framesOnce (stack : StackPtr) : List Addr := if stack.isSome then [0x400000] else []

theorem reached_initializing : run [.processNew] = .ok (World.processNew {}).1 := rfl

theorem nested_harmless_iff_initializing : ∃ blocks process' blocks' process'' written,
    feedWriting (fun _ => blankFiles) framesOnce (({}, {}), {}, []) (initializing.take 2) =
      .ok ((blocks, process'), {}, []) ∧
    feedWriting (fun _ => blankFiles) framesOnce (({}, {}), {}, []) (initializingTwice.take 2).flatten =
      .ok ((blocks', process''), written) ∧
    sizes blocks process'.table = sizes blocks' process''.table ∧ process'.bytesUsed = process''.bytesUsed ∧
    process'.nAllocations = process''.nAllocations :=
  (nested_harmless_iff reached_initializing (List.mem_singleton_self _) rfl finds_initializing expands_initializing
    ⟨rfl, rfl, trivial⟩ ⟨rfl, rfl, rfl, rfl, rfl, trivial⟩ (fun _ => blankFiles) framesOnce
    ({}, [])).mpr ⟨_, rfl⟩ 2

/-- The target has ended, and its maps cannot be opened any more, when the report of the
nested `free` is read. -/
theorem nested_harmful : ¬ ∀ (originals : List Command) (expansions : List (List Command)),
    Finds (fun _ => none) originals → List.Forall₂ Expands originals expansions →
    Successive 0 originals → Successive 0 expansions.flatten →
    ∀ (files : ℕ → Files) (frames : StackPtr → List Addr) (n : ℕ), ∃ blocks process' blocks' process'' written,
      feedWriting files frames (({}, {}), {}, []) (originals.take n) = .ok ((blocks, process'), {}, []) ∧
      feedWriting files frames (({}, {}), {}, []) (expansions.take n).flatten = .ok ((blocks', process''), written) ∧
      sizes blocks process'.table = sizes blocks' process''.table ∧ process'.bytesUsed = process''.bytesUsed ∧
      process'.nAllocations = process''.nAllocations := by
  intro claim
  have held := claim initializing initializingTwice finds_initializing expands_initializing
    ⟨rfl, rfl, trivial⟩ ⟨rfl, rfl, rfl, rfl, rfl, trivial⟩ (fun _ => { blankFiles with maps := none }) framesOnce
  obtain ⟨written, wrote⟩ := (nested_harmless_iff reached_initializing (List.mem_singleton_self _) rfl
    finds_initializing expands_initializing ⟨rfl, rfl, trivial⟩ ⟨rfl, rfl, rfl, rfl, rfl, trivial⟩ _ framesOnce
    ({}, [])).mp held
  have fails : writeDumps (fun _ => { blankFiles with maps := none }) framesOnce 0 ({}, [])
      (initializingTwice.map extras).flatten = .error .nullDereference := rfl
  cases fails.symm.trans wrote

end Memprof.Nested
