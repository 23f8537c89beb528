import Mathlib.Data.Fintype.Basic
import Memprof.Threads
import Memprof.Verified.Delivery

/-! # Threads that recycle an address

The live set is the effect of the calls in the order of the real allocator, the block
table the effect of the reports in the order of their seqnos.  The two agree when no
report overtakes an earlier unreported call about one of its addresses: reports about
different addresses commute.  A release is done before it is reported, so an overtaking
report is possible, and loses a live block.
-/

namespace Memprof.Threads

open Library Blocks Delivery

/-- A call's effect on a set of addresses. -/
def track (live : Finset Addr) (info : MIInfo) : Finset Addr :=
  if info.newPtr = 0 then live.erase info.oldPtr else insert info.newPtr (live.erase info.oldPtr)

/-- The addresses a call is about. -/
def addresses (info : MIInfo) : Finset Addr := Finset.erase {info.oldPtr, info.newPtr} 0

def IsAllocation (info : MIInfo) : Prop :=
  info.operation = .malloc ∨ info.operation = .realloc ∨ info.operation = .free

/-- A report that overtakes no earlier call about one of its addresses. -/
def Ordered {τ : Type} [DecidableEq τ] (program : Program τ) : Event τ → Prop
  | .report thread _ _ _ =>
    ∀ info ∈ program.unreported thread, ∀ other ∈ program.earlier thread, Disjoint (addresses other) (addresses info)
  | _ => True

def OrderedRun {τ : Type} [DecidableEq τ] (program : Program τ) : List (Event τ) → Prop
  | [] => True
  | event :: events => Ordered program event ∧ ∀ later ∈ program.step event, OrderedRun later events

instance {τ : Type} [DecidableEq τ] (program : Program τ) : (event : Event τ) → Decidable (Ordered program event)
  | .report thread _ _ _ => inferInstanceAs (Decidable (∀ info ∈ program.unreported thread,
      ∀ other ∈ program.earlier thread, Disjoint (addresses other) (addresses info)))
  | .malloc _ _ _ | .realloc _ _ _ _ | .free _ _ => inferInstanceAs (Decidable True)

instance decidableOrderedRun {τ : Type} [DecidableEq τ] :
    (program : Program τ) → (events : List (Event τ)) → Decidable (OrderedRun program events)
  | _, [] => inferInstanceAs (Decidable True)
  | program, event :: events =>
    let _ := fun later => decidableOrderedRun later events
    inferInstanceAs (Decidable (Ordered program event ∧ ∀ later ∈ program.step event, OrderedRun later events))

theorem mem_track {live : Finset Addr} {info : MIInfo} {address : Addr} :
    address ∈ track live info ↔
      (info.newPtr ≠ 0 ∧ address = info.newPtr) ∨ (address ≠ info.oldPtr ∧ address ∈ live) := by
  unfold track
  split
  next null => simp [null]
  next named => simp [named]

/-- Calls about different addresses commute. -/
theorem track_comm {first second : MIInfo} (apart : Disjoint (addresses first) (addresses second))
    (live : Finset Addr) : track (track live first) second = track (track live second) first := by
  have distinct : ∀ address, address ≠ 0 → (address = first.oldPtr ∨ address = first.newPtr) →
      ¬ (address = second.oldPtr ∨ address = second.newPtr) := by
    intro address named left right
    have inFirst : address ∈ addresses first := by simp [addresses, named, left]
    have inSecond : address ∈ addresses second := by simp [addresses, named, right]
    exact Finset.disjoint_left.mp apart inFirst inSecond
  ext address
  simp only [mem_track]
  by_cases null : address = 0
  · subst null
    have first' : ¬ (first.newPtr ≠ 0 ∧ (0 : Addr) = first.newPtr) := fun both => both.1 both.2.symm
    have second' : ¬ (second.newPtr ≠ 0 ∧ (0 : Addr) = second.newPtr) := fun both => both.1 both.2.symm
    tauto
  · have := distinct address null
    tauto

theorem foldl_track_overtake {before after : List MIInfo} {info : MIInfo}
    (apart : ∀ other ∈ before, Disjoint (addresses other) (addresses info)) (live : Finset Addr) :
    (before ++ info :: after).foldl track live = (before ++ after).foldl track (track live info) := by
  induction before generalizing live with
  | nil => rfl
  | cons other before inductionHypothesis =>
    simp only [List.cons_append, List.foldl_cons]
    rw [inductionHypothesis fun member listed => apart member (by simp [listed]), track_comm (apart other (by simp))]

/-! ## The block table as a set of addresses -/

theorem report_isSome {contents : Contents} (nonNull : contents 0 = none) (oldPtr newPtr : Addr) (size : UInt32)
    (stack : StackPtr) (address : Addr) :
    ((contents.report oldPtr newPtr size stack) address).isSome ↔
      (newPtr ≠ 0 ∧ address = newPtr) ∨ (address ≠ oldPtr ∧ (contents address).isSome) := by
  have removed : ∀ other, ((contents.remove oldPtr) other).isSome ↔ other ≠ oldPtr ∧ (contents other).isSome := by
    intro other
    unfold Contents.remove
    split
    -- removing NULL does nothing, and no block is stored at NULL
    next null =>
      refine ⟨fun held => ⟨?_, held⟩, fun held => held.2⟩
      rintro rfl
      rw [null, nonNull] at held
      cases held
    next =>
      by_cases same : other = oldPtr
      · simp [same]
      · simp [same]
  unfold Contents.report Contents.insert
  split
  next fresh =>
    by_cases same : address = newPtr
    · simp [same, fresh.1]
    · simp [same, removed]
  next known =>
    rw [removed]
    constructor
    · exact .inr
    -- the report was dropped because its address is listed, so it is listed still
    · rintro (⟨named, rfl⟩ | held)
      · rw [← removed]
        cases held : contents.remove oldPtr address with
        | none => exact (known ⟨named, held⟩).elim
        | some _ => rfl
      · exact held

theorem apply_isSome {contents : Contents} (nonNull : contents 0 = none) {info : MIInfo}
    (allocation : IsAllocation info) (seqno : UInt32) (stack : StackPtr) (address : Addr) :
    ((contents.apply seqno info stack) address).isSome ↔
      (info.newPtr ≠ 0 ∧ address = info.newPtr) ∨ (address ≠ info.oldPtr ∧ (contents address).isSome) := by
  have reported : contents.apply seqno info stack =
      contents.report info.oldPtr info.newPtr info.size.toUInt32 stack := by
    rcases allocation with is | is | is <;> rw [Contents.apply, is]
  rw [reported, report_isSome nonNull]

/-- Reports applied in the order of their seqnos leave the tracked addresses. -/
theorem applyAll_isSome {commands : List Command} (allocations : ∀ command ∈ commands, IsAllocation command.info)
    {contents : Contents} (nonNull : contents 0 = none) {tracked : Finset Addr}
    (agree : ∀ address, (contents address).isSome ↔ address ∈ tracked) (seqno : UInt32) (address : Addr) :
    ((contents.applyAll seqno commands) address).isSome ↔
      address ∈ (commands.map Command.info).foldl track tracked := by
  induction commands generalizing contents tracked seqno with
  | nil => exact agree address
  | cons command commands inductionHypothesis =>
    have applied := apply_isSome nonNull (allocations command (by simp)) (seqno + 1) command.stack
    refine inductionHypothesis (fun other member => allocations other (by simp [member])) ?_ (fun other => ?_) _
    · have absent := applied 0
      simp only [nonNull, Option.isSome_none, Bool.false_eq_true, and_false, or_false] at absent
      exact Option.not_isSome_iff_eq_none.mp fun held => (absent.mp held).1 (absent.mp held).2.symm
    · rw [applied, mem_track, agree]

/-! ## Runs -/

structure Consistent {τ : Type} (program : Program τ) : Prop where
  live : program.live =
    (program.pending.map Prod.snd).foldl track ((program.sent.map Command.info).foldl track ∅)
  pending : ∀ call ∈ program.pending, IsAllocation call.2
  sent : ∀ command ∈ program.sent, IsAllocation command.info
  numbered : Successive 0 program.sent
  counted : program.seqno = UInt32.ofNat program.sent.length
  nonNull : (0 : Addr) ∉ program.live

theorem consistent_start {τ : Type} : Consistent ({} : Program τ) where
  live := rfl
  pending := by simp
  sent := by simp
  numbered := trivial
  counted := rfl
  nonNull := by simp

/-- The real call of a thread. -/
theorem Consistent.call {τ : Type} {program : Program τ} (consistent : Consistent program) (thread : τ) {info : MIInfo}
    (allocation : IsAllocation info) : Consistent (program.call thread (track program.live info) info) where
  live := by
    simp only [Program.call, List.map_append, List.foldl_append]
    rw [← consistent.live]
    rfl
  pending call member := by
    rcases List.mem_append.mp member with old | fresh
    · exact consistent.pending call old
    · rw [List.mem_singleton.mp fresh]; exact allocation
  sent := consistent.sent
  numbered := consistent.numbered
  counted := consistent.counted
  nonNull := by
    intro null
    rcases mem_track.mp null with ⟨named, same⟩ | ⟨_, held⟩
    · exact named same.symm
    · exact consistent.nonNull held

section Steps

variable {τ : Type} [DecidableEq τ] {program later : Program τ}

/-- An unreported call cuts the calls into those before it and those after it. -/
theorem unreported_split {thread : τ} {info : MIInfo} (waiting : program.unreported thread = some info) :
    ∃ before after, program.pending = before ++ (thread, info) :: after ∧
      program.earlier thread = before.map Prod.snd ∧
      program.pending.eraseP (fun call => call.1 = thread) = before ++ after := by
  unfold Program.unreported at waiting
  unfold Program.earlier
  generalize program.pending = pending at waiting
  induction pending with
  | nil => cases waiting
  | cons call pending inductionHypothesis =>
    by_cases same : call.1 = thread
    · simp only [List.find?_cons_of_pos, same, decide_true, Option.map_some, Option.some.injEq] at waiting
      refine ⟨[], pending, ?_, by simp [same], by simp [same]⟩
      simp [← waiting, ← same]
    · rw [List.find?_cons_of_neg (by simpa using same)] at waiting
      obtain ⟨before, after, split, earlier, erased⟩ := inductionHypothesis waiting
      refine ⟨call :: before, after, by simp [split], ?_, ?_⟩
      · rw [List.takeWhile_cons_of_pos (by simpa using same), List.map_cons, earlier, List.map_cons]
      · rw [List.eraseP_cons_of_neg (by simpa using same), erased, List.cons_append]

theorem Consistent.step (consistent : Consistent program) {event : Event τ} (ordered : Ordered program event)
    (taken : program.step event = some later) : Consistent later := by
  cases event with
  | malloc thread size result =>
    simp only [Program.step] at taken
    split at taken <;> cases taken
    have allocation : IsAllocation (mallocInfo result size) := .inl rfl
    have called := consistent.call thread allocation
    have unchanged : program.live.erase 0 = program.live := Finset.erase_eq_of_notMem consistent.nonNull
    simp only [track, mallocInfo, unchanged] at called
    exact called
  | realloc thread ptr size result =>
    simp only [Program.step] at taken
    split at taken <;> cases taken
    have allocation : IsAllocation (reallocInfo ptr result size) := .inr (.inl rfl)
    exact consistent.call thread allocation
  | free thread ptr =>
    simp only [Program.step] at taken
    split at taken <;> cases taken
    have allocation : IsAllocation (freeInfo ptr) := .inr (.inr rfl)
    exact consistent.call thread allocation
  | report thread pid nFrames stack =>
    simp only [Program.step, Option.bind_eq_bind, Option.bind_eq_some_iff] at taken
    obtain ⟨info, waiting, numberedInfo, numbered, taken⟩ := taken
    cases taken
    -- the calls made before this one and not reported yet are the ones it overtakes
    obtain ⟨before, after, split, earlier, erased⟩ := unreported_split waiting
    have same : numberedInfo.operation = info.operation ∧ numberedInfo.seqno = program.seqno ∧
        ∀ live, track live numberedInfo = track live info := by
      unfold numberReport at numbered
      split at numbered <;> cases numbered
      exact ⟨rfl, rfl, fun _ => rfl⟩
    have apart : ∀ other ∈ before.map Prod.snd, Disjoint (addresses other) (addresses info) := by
      rw [← earlier]; exact ordered info waiting
    refine ⟨?_, ?_, ?_, ?_, ?_, consistent.nonNull⟩
    · simp only [erased, List.map_append, List.foldl_append, List.map_cons, List.map_nil, List.foldl_cons,
        List.foldl_nil, same.2.2]
      -- they touch no address of its own, so the two orders leave the same blocks live
      rw [consistent.live, split, List.map_append, List.map_cons, foldl_track_overtake apart, List.foldl_append]
    · intro call member
      refine consistent.pending call ?_
      rw [erased] at member
      rw [split]
      rcases List.mem_append.mp member with left | right
      · exact List.mem_append_left _ left
      · exact List.mem_append_right _ (List.mem_cons_of_mem _ right)
    · intro command member
      rcases List.mem_append.mp member with old | fresh
      · exact consistent.sent command old
      · rw [List.mem_singleton.mp fresh]
        have allocation := consistent.pending (thread, info) (by simp [split])
        simpa only [IsAllocation, same.1] using allocation
    · rw [successive_append]
      refine ⟨consistent.numbered, ?_, trivial⟩
      rw [same.2.1, consistent.counted, UInt32.zero_add]
    · simp only [List.length_append, List.length_singleton, UInt32.ofNat_add, consistent.counted]
      rfl

theorem Consistent.run {events : List (Event τ)} (consistent : Consistent program)
    (ordered : OrderedRun program events) (ran : program.run events = some later) : Consistent later := by
  induction events generalizing program with
  | nil => cases ran; exact consistent
  | cons event events inductionHypothesis =>
    simp only [Program.run, List.foldlM_cons, Option.bind_eq_bind, Option.bind_eq_some_iff] at ran
    obtain ⟨next, taken, ran⟩ := ran
    exact inductionHypothesis (consistent.step ordered.1 taken) (ordered.2 next taken) ran

theorem pending_eq_nil (idle : ∀ thread, program.unreported thread = none) : program.pending = [] := by
  unfold Program.unreported at idle
  generalize program.pending = pending at idle ⊢
  cases pending with
  | nil => rfl
  | cons call pending => exact absurd (idle call.1) (by simp)

/-- Once every thread is idle, a run in which no report overtakes an earlier call about
one of its addresses has in the block table exactly what is live. -/
theorem table_eq_live {events : List (Event τ)} (ordered : OrderedRun {} events)
    (ran : Program.run {} events = some program) (idle : ∀ thread, program.unreported thread = none) :
    ∃ blocks process, feed ({}, {}) program.sent = .ok (blocks, process) ∧ process.commandQueue = [] ∧
      ∀ address, (process.table.lookup address).isSome ↔ address ∈ program.live := by
  have consistent := consistent_start.run ordered ran
  have reported : ∀ command ∈ program.sent, IsReport command.info.operation := by
    intro command member
    rcases consistent.sent command member with is | is | is <;> rw [is] <;> trivial
  have coherent : Coherent ({} : Store Block) ({} : MPProcess).table := coherent_empty fun _ _ live => (nomatch live)
  obtain ⟨blocks, process, fed, empty, _, step, _, table, _⟩ :=
    feed_successive coherent rfl consistent.numbered reported
  refine ⟨blocks, process, fed, empty, fun address => ?_⟩
  have start : ∀ other : Addr, (contents {} ({} : MPProcess).table other).isSome ↔ other ∈ (∅ : Finset Addr) := by
    intro other
    simp [contents, MPProcess.table]
  have tracked := applyAll_isSome consistent.sent rfl start 0 address
  have entry : (process.table.lookup address).isSome ↔ (contents blocks process.table address).isSome := by
    rw [Option.isSome_iff_ne_none, Option.isSome_iff_ne_none, ne_eq, ne_eq, contents_eq_none step.coherent.keyed]
  rw [entry, table, tracked, consistent.live, pending_eq_nil idle]
  rfl

end Steps

/-- The second thread gets the address that the first has released, but the first
reports in between; the reports about the other addresses overtake freely. -/
theorem table_eq_live_recycled :
    let events : List (Event Bool) :=
      [.malloc true 8 16, .malloc false 8 32, .report false 1 3 none, .report true 1 0 none, .free true 16,
        .realloc false 32 4 48, .report false 1 0 none, .report true 1 0 none, .malloc false 8 16,
        .report false 1 0 none]
    ∃ program, Program.run {} events = some program ∧
      ∃ blocks process, feed ({}, {}) program.sent = .ok (blocks, process) ∧ process.commandQueue = [] ∧
        ∀ address, (process.table.lookup address).isSome ↔ address ∈ program.live := by
  intro events
  obtain ⟨program, ran⟩ : ∃ program, Program.run {} events = some program :=
    Option.isSome_iff_exists.mp (by decide +kernel)
  have ordered : OrderedRun {} events := by decide +kernel
  have idle : ∀ thread, (Program.run {} events).all fun program => (program.unreported thread).isNone := by
    decide +kernel
  refine ⟨program, ran, table_eq_live ordered ran fun thread => ?_⟩
  have quiet := idle thread
  rw [ran] at quiet
  simpa using quiet

/-- Two threads, of which the second gets the address that the first has just released
and is the first to report. -/
def recycling : List (Event Bool) :=
  [.malloc true 8 16, .report true 1 0 none, .free true 16, .malloc false 8 16, .report false 1 0 none,
    .report true 1 0 none]

/-- The block that is live in the end is not in the table. -/
theorem recycled_block_lost :
    ¬ ∀ (events : List (Event Bool)) (program : Program Bool), Program.run {} events = some program →
      (∀ thread, program.unreported thread = none) →
      ∃ blocks process, feed ({}, {}) program.sent = .ok (blocks, process) ∧ process.commandQueue = [] ∧
        ∀ address, (process.table.lookup address).isSome ↔ address ∈ program.live := by
  intro claim
  obtain ⟨program, ran⟩ : ∃ program, Program.run {} recycling = some program :=
    Option.isSome_iff_exists.mp (by decide +kernel)
  have idle : ∀ thread, (Program.run {} recycling).all fun program => (program.unreported thread).isNone := by
    decide +kernel
  have live : (Program.run {} recycling).all fun program => 16 ∈ program.live := by decide +kernel
  have forgotten : (Program.run {} recycling).all fun program =>
      (feed ({}, {}) program.sent).toOption.all fun result => (result.2.table.lookup 16).isNone := by
    decide +kernel
  rw [ran] at live forgotten
  obtain ⟨blocks, process, fed, _, agree⟩ := claim recycling program ran fun thread => by
    have quiet := idle thread
    rw [ran] at quiet
    simpa using quiet
  have held := (agree 16).mpr (by simpa using live)
  simp [fed, Except.toOption] at forgotten
  rw [forgotten] at held
  cases held

end Memprof.Threads
