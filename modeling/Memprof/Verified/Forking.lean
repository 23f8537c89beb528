import Memprof.Fork
import Memprof.Verified.Serving

/-! # What the process of a forked child starts with

`process_duplicate` copies the counter and the table that the server has for the parent
when it accepts the child's connection.  Every report read moves that counter by one, so
the copy is the state at the fork exactly when the reports read by then are the reports
sent before the fork.
-/

namespace Memprof.Fork

open Library Blocks Accounting Serving

/-- A traced process of its own that follows its forks, in step with its program. -/
structure Forkable (world : World) (p : ProcId) (process : MPProcess) (pid childPid : Pid) (channel : Channel) :
    Prop where
  reachable : world.Reachable
  found : world.process p = .ok process
  listed : world.mpServerFindProcess pid = some p
  root : process.cloneOf = none
  connected : process.inputChannel.isSome = true
  followFork : process.followFork = true
  idle : process.commandQueue = []
  named : childPid ≠ 0
  new : world.mpServerFindProcess childPid = none
  fresh : world.Fresh channel

/-- The process of the child expects what the child will send, and has the table of the
parent after exactly the reports sent before the fork. -/
def Agreed (start : World) (p : ProcId) (system : System) : Prop :=
  ∀ sentBefore counter readBefore q, system.fork = some (sentBefore, counter) →
    system.accepted = some (readBefore, q) →
    ∃ (child : MPProcess) (expected : World) (parent : MPProcess), system.world.process q = .ok child ∧
      child.seqno = counter ∧ replay start p (system.sent.take sentBefore) = .ok expected ∧
      expected.process p = .ok parent ∧
      contents system.world.blocks child.table = contents expected.blocks parent.table

/-- A process as the parent keeps being: a root with input, nothing waits. -/
structure Parental (process : MPProcess) (seqno : UInt32) : Prop where
  root : process.cloneOf = none
  connected : process.inputChannel.isSome = true
  followFork : process.followFork = true
  idle : process.commandQueue = []
  seqno : process.seqno = seqno

/-- The next report of the parent moves its counter, and no other process. -/
theorem inputReport_ok {world : World} (served : Served world) {p : ProcId} {process : MPProcess}
    (found : world.process p = .ok process) {seqno : UInt32} (parental : Parental process seqno) {info : MIInfo}
    (carries : CarriesStack info.operation) (due : info.seqno = seqno) (frames : List Addr) :
    ∃ later process', world.inputMessage p info frames = .ok later ∧ Served later ∧ Replaces world p process' later ∧
      Parental process' (seqno + 1) ∧ process'.inputChannel = process.inputChannel ∧
      world.blocks.Exchanges process.held process'.held later.blocks := by
  obtain ⟨stacked, stack, stash, ranStack, replacesStack, watchesStack, blocksStack, soundStack, _⟩ :=
    addStack_ok served.sound found frames
  have servedStack : Served stacked := served.replace found replacesStack watchesStack rfl rfl rfl rfl soundStack
  have foundStack := replacesStack.found found
  -- the parent is a root of its own, so its command is run on itself
  obtain ⟨root, _, ranRoot, _, _, own⟩ := rootOf_ok servedStack.older foundStack
  rw [own parental.root] at ranRoot
  have reported := isReport_of_carries carries
  obtain ⟨later, process', ranCommand, replaces, watches, _, same, idle, counted, exchange, _, soundLater⟩ :=
    command_due_ok soundStack foundStack parental.idle reported (due.trans parental.seqno.symm) stack
  have ready : world.prepareInput p info frames = .ok (stacked, stack) := by
    rw [prepareInput_of_carries carries, ranStack]
  refine ⟨later, process', ?_, ?_, replacesStack.trans replaces, ⟨?_, ?_, ?_, idle, ?_⟩, by rw [same], ?_⟩
  · unfold World.inputMessage
    rw [ready, ok_bind]
    show (stacked.rootOf p >>= fun root => stacked.command root info stack) = _
    rw [ranRoot, ok_bind, ranCommand]
  · exact servedStack.replace foundStack replaces watches (by rw [same]) (by rw [same]) (by rw [same]) (by rw [same])
      soundLater
  · rw [same]; exact parental.root
  · rw [same]; exact parental.connected
  · rw [same]; exact parental.followFork
  · rw [counted]; exact congrArg (· + 1) parental.seqno
  · rw [← blocksStack]; exact exchange

/-- The invariant of a run from `start`. -/
structure InStep (start : World) (p : ProcId) (first : UInt32) (pid childPid : Pid) (channel : Channel)
    (system : System) : Prop where
  served : Served system.world
  sent : ∀ i report frames, system.sent[i]? = some (report, frames) →
    report.seqno = first + UInt32.ofNat i ∧ CarriesStack report.operation
  counter : system.counter = first + UInt32.ofNat system.sent.length
  read : system.read ≤ system.sent.length
  fork : ∀ sentBefore counter, system.fork = some (sentBefore, counter) →
    sentBefore ≤ system.sent.length ∧ counter = first + UInt32.ofNat sentBefore
  parent : ∃ process, system.world.process p = .ok process ∧ Parental process (first + UInt32.ofNat system.read)
  waiting : system.accepted = none → replay start p (system.sent.take system.read) = .ok system.world ∧
    system.world.mpServerFindProcess pid = some p ∧ system.world.mpServerFindProcess childPid = none ∧
    system.world.Fresh channel
  accepted : ∀ readBefore q, system.accepted = some (readBefore, q) → q ≠ p ∧ readBefore ≤ system.read ∧
    ∃ (child : MPProcess) (expected : World) (parent : MPProcess), system.world.process q = .ok child ∧
      replay start p (system.sent.take readBefore) = .ok expected ∧ expected.process p = .ok parent ∧
      child.seqno = first + UInt32.ofNat readBefore ∧
      contents system.world.blocks child.table = contents expected.blocks parent.table

theorem inStep_start {world : World} {p : ProcId} {process : MPProcess} {pid childPid : Pid} {channel : Channel}
    (forkable : Forkable world p process pid childPid channel) :
    InStep world p process.seqno pid childPid channel { world := world, counter := process.seqno } where
  served := reachable_served forkable.reachable
  sent _ _ _ held := by cases held
  counter := by simp
  read := Nat.le_refl 0
  fork _ _ forked := by cases forked
  parent := ⟨process, forkable.found, forkable.root, forkable.connected, forkable.followFork, forkable.idle, by simp⟩
  waiting _ := ⟨rfl, forkable.listed, forkable.new, forkable.fresh⟩
  accepted _ _ once := by cases once

theorem replay_append (world : World) (p : ProcId) (reports : List (MIInfo × List Addr)) (report : MIInfo × List Addr) :
    replay world p (reports ++ [report]) =
      replay world p reports >>= fun world => world.inputMessage p report.1 report.2 := by
  simp [replay, List.foldlM_append]

theorem numberReport_eq {info report : MIInfo} {nFrames : ℤ} {pid : Pid} {seqno : UInt32}
    (numbered : numberReport info nFrames pid seqno = some report) :
    report.seqno = seqno ∧ report.operation = info.operation := by
  unfold numberReport at numbered
  split at numbered <;> cases numbered
  exact ⟨rfl, rfl⟩

theorem ofNat_succ (first : UInt32) (n : ℕ) : first + UInt32.ofNat (n + 1) = first + UInt32.ofNat n + 1 := by
  rw [UInt32.ofNat_add, UInt32.add_assoc]
  rfl

section Steps

variable {start : World} {p : ProcId} {first : UInt32} {pid childPid : Pid} {channel : Channel} {system : System}

/-- Reports that were sent later leave the earlier ones alone. -/
theorem take_append {α : Type} {items : List α} {n : ℕ} (inside : n ≤ items.length) (item : α) :
    (items ++ [item]).take n = items.take n := List.take_append_of_le_length inside

theorem InStep.send (inStep : InStep start p first pid childPid channel system) {info report : MIInfo}
    {frames : List Addr} (carries : CarriesStack info.operation)
    (numbered : numberReport info frames.length pid system.counter = some report) :
    InStep start p first pid childPid channel
      { system with counter := system.counter + 1, sent := system.sent ++ [(report, frames)] } := by
  obtain ⟨seqno, operation⟩ := numberReport_eq numbered
  refine ⟨inStep.served, ?_, ?_, ?_, ?_, inStep.parent, ?_, ?_⟩
  · intro i other otherFrames held
    rcases Nat.lt_or_ge i system.sent.length with old | fresh
    · rw [List.getElem?_append_left old] at held
      exact inStep.sent i other otherFrames held
    -- the report sent now carries the counter, which counts the reports sent before it
    · have last : i = system.sent.length := by
        have := (List.getElem?_eq_some_iff.mp held).1
        simp only [List.length_append, List.length_singleton] at this
        omega
      subst last
      simp only [List.getElem?_concat_length, Option.some.injEq, Prod.mk.injEq] at held
      rw [← held.1, seqno, inStep.counter, operation]
      exact ⟨rfl, carries⟩
  · simp only [List.length_append, List.length_singleton, ofNat_succ, inStep.counter]
  · have := inStep.read
    simp only [List.length_append, List.length_singleton]
    omega
  · intro sentBefore counter forked
    obtain ⟨before, counted⟩ := inStep.fork sentBefore counter forked
    refine ⟨?_, counted⟩
    simp only [List.length_append, List.length_singleton]
    omega
  · intro once
    rw [take_append inStep.read]
    exact inStep.waiting once
  · intro readBefore q accepted
    obtain ⟨other, before, rest⟩ := inStep.accepted readBefore q accepted
    rw [take_append (before.trans inStep.read)]
    exact ⟨other, before, rest⟩

theorem InStep.receive (inStep : InStep start p first pid childPid channel system) {report : MIInfo}
    {frames : List Addr} {later : World} (next : system.sent[system.read]? = some (report, frames))
    (ran : system.world.inputMessage p report frames = .ok later) :
    InStep start p first pid childPid channel { system with world := later, read := system.read + 1 } := by
  obtain ⟨process, found, parental⟩ := inStep.parent
  obtain ⟨due, carries⟩ := inStep.sent _ _ _ next
  obtain ⟨later', process', ran', served, replaces, parental', channel', exchange⟩ :=
    inputReport_ok inStep.served found parental carries due frames
  rw [ran] at ran'
  cases ran'
  have inside := (List.getElem?_eq_some_iff.mp next).1
  refine ⟨served, inStep.sent, inStep.counter, inside, inStep.fork, ⟨process', replaces.found found, ?_⟩, ?_, ?_⟩
  · rw [ofNat_succ]; exact parental'
  -- until the child's connection is accepted the server has seen the parent alone
  · intro once
    obtain ⟨replayed, listed, new, fresh⟩ := inStep.waiting once
    refine ⟨?_, ?_, ?_, ?_⟩
    · rw [List.take_add_one, next, Option.toList_some, replay_append, replayed, ok_bind, ran]
    · rw [World.mpServerFindProcess, replaces.pidTable]; exact listed
    · rw [World.mpServerFindProcess, replaces.pidTable]; exact new
    · intro q other held
      by_cases same : q = p
      · rw [same, replaces.found found] at held
        cases held
        rw [channel']
        exact fresh p process found
      · rw [replaces.other same] at held
        exact fresh q other held
  -- once it is accepted the child's blocks no longer move with the parent's commands
  · intro readBefore q accepted
    obtain ⟨other, before, child, expected, parent, held, replayed, foundParent, seqno, same⟩ :=
      inStep.accepted readBefore q accepted
    have held' : later.process q = .ok child := (replaces.other other).trans held
    refine ⟨other, Nat.le_succ_of_le before, child, expected, parent, held', replayed, foundParent, seqno, ?_⟩
    rw [← same]
    exact contents_other inStep.served.sound served.sound exchange (World.mem_of_process held)
      (World.mem_of_process held')

/-- What `control_func` does with the connection of the child. -/
theorem InStep.accept_ok (inStep : InStep start p first pid childPid channel system) (named : childPid ≠ 0)
    (once : system.accepted = none) :
    ∃ process later child, system.world.process p = .ok process ∧ Parental process (first + UInt32.ofNat system.read) ∧
      system.world.controlFunc channel (newProcessInfo childPid pid .fork) = .ok (later, true) ∧ Served later ∧
      later.processes = system.world.processes ++ [child] ∧ child.seqno = process.seqno ∧
      later.mpServerFindProcess childPid = some system.world.processes.length ∧
      contents later.blocks child.table = contents system.world.blocks process.table := by
  obtain ⟨_, listed, new, fresh⟩ := inStep.waiting once
  obtain ⟨process, found, parental⟩ := inStep.parent
  obtain ⟨later, child, ran, served, processes, _, seqno, _, _, _, table, same⟩ :=
    @controlNew_fork _ inStep.served p process found channel fresh (newProcessInfo childPid pid .fork) named new listed
  have listedChild : later.mpServerFindProcess childPid = some system.world.processes.length := by
    rw [World.mpServerFindProcess, table]
    exact AList.lookup_insert _
  refine ⟨process, later, child, found, parental, ?_, served, processes, seqno, listedChild, same⟩
  simp only [World.controlFunc, newProcessInfo, listed, found, ok_bind, parental.followFork, if_true]
  exact ran

theorem InStep.accept (inStep : InStep start p first pid childPid channel system) (named : childPid ≠ 0)
    {later : World} {response : Bool} {q : ProcId} (once : system.accepted = none)
    (ran : system.world.controlFunc channel (newProcessInfo childPid pid .fork) = .ok (later, response))
    (created : later.mpServerFindProcess childPid = some q) :
    InStep start p first pid childPid channel { system with world := later, accepted := some (system.read, q) } := by
  obtain ⟨process, later', child, found, parental, ran', served, processes, seqno, listed, same⟩ :=
    inStep.accept_ok named once
  rw [ran] at ran'
  cases ran'
  rw [listed] at created
  cases created
  have inside := (List.getElem?_eq_some_iff.mp (World.process_eq_ok.mp found)).1
  have parentStays : later.process p = .ok process := by
    rw [World.process_eq_ok, processes, List.getElem?_append_left inside]
    exact World.process_eq_ok.mp found
  refine ⟨served, inStep.sent, inStep.counter, inStep.read, inStep.fork, ⟨process, parentStays, parental⟩,
    (fun again => by cases again), ?_⟩
  intro readBefore q accepted
  cases accepted
  exact ⟨Nat.ne_of_gt inside, Nat.le_refl _, child, system.world, process, process_of_append processes,
    (inStep.waiting once).1, found, seqno.trans parental.seqno, same⟩

theorem inStep_run {process : MPProcess} (forkable : Forkable start p process pid childPid channel)
    (run : Relation.ReflTransGen (Step p pid childPid channel) { world := start, counter := process.seqno } system) :
    InStep start p process.seqno pid childPid channel system := by
  induction run with
  | refl => exact inStep_start forkable
  | tail _ taken inductionHypothesis =>
    cases taken with
    | send carries numbered => exact inductionHypothesis.send carries numbered
    | receive next ran => exact inductionHypothesis.receive next ran
    | fork once =>
      refine ⟨inductionHypothesis.served, inductionHypothesis.sent, inductionHypothesis.counter,
        inductionHypothesis.read, ?_, inductionHypothesis.parent, inductionHypothesis.waiting,
        inductionHypothesis.accepted⟩
      intro sentBefore counter forked
      cases forked
      exact ⟨Nat.le_refl _, inductionHypothesis.counter⟩
    | accept forked once ran created => exact inductionHypothesis.accept forkable.named once ran created

/-- In every run the process of the child starts as it should if the server had read, when
it accepted the child, the reports sent before the fork and no others; and only then, as
long as the counter has not come round. -/
theorem fork_agreed_iff {process : MPProcess} (forkable : Forkable start p process pid childPid channel)
    (run : Relation.ReflTransGen (Step p pid childPid channel) { world := start, counter := process.seqno } system)
    {sentBefore readBefore : ℕ} {counter : UInt32} {q : ProcId} (forked : system.fork = some (sentBefore, counter))
    (accepted : system.accepted = some (readBefore, q)) :
    (readBefore = sentBefore → Agreed start p system) ∧
      (system.sent.length < 2 ^ 32 → Agreed start p system → readBefore = sentBefore) := by
  have inStep := inStep_run forkable run
  obtain ⟨before, counted⟩ := inStep.fork sentBefore counter forked
  obtain ⟨_, read, child, expected, parent, held, replayed, foundParent, seqno, same⟩ :=
    inStep.accepted readBefore q accepted
  constructor
  · rintro rfl sentBefore' counter' readBefore' q' forked' accepted'
    rw [forked] at forked'
    cases forked'
    rw [accepted] at accepted'
    cases accepted'
    exact ⟨child, expected, parent, held, seqno.trans counted.symm, replayed, foundParent, same⟩
  -- equal counters are equal counts as long as the counter has not wrapped
  · intro fits agreed
    obtain ⟨child', _, _, held', counter', _⟩ := agreed sentBefore counter readBefore q forked accepted
    rw [held] at held'
    cases held'
    rw [seqno, counted] at counter'
    have equal := UInt32.add_right_inj _ |>.mp counter'
    have := inStep.read
    have counts := congrArg UInt32.toNat equal
    rw [UInt32.toNat_ofNat', UInt32.toNat_ofNat'] at counts
    omega

/-- Nothing makes the server wait: whatever it has read, it can accept the child. -/
theorem InStep.accepts (inStep : InStep start p first pid childPid channel system) (named : childPid ≠ 0)
    (forked : system.fork.isSome = true) (once : system.accepted = none) :
    ∃ later q, Step p pid childPid channel system
      { system with world := later, accepted := some (system.read, q) } := by
  obtain ⟨_, later, _, _, _, ran, _, _, _, listed, _⟩ := inStep.accept_ok named once
  exact ⟨later, _, .accept forked once ran listed⟩

/-- Nor does the server ever fail to read what was sent. -/
theorem InStep.receives (inStep : InStep start p first pid childPid channel system) {report : MIInfo}
    {frames : List Addr} (next : system.sent[system.read]? = some (report, frames)) :
    ∃ later, Step p pid childPid channel system { system with world := later, read := system.read + 1 } := by
  obtain ⟨process, found, parental⟩ := inStep.parent
  obtain ⟨due, carries⟩ := inStep.sent _ _ _ next
  obtain ⟨later, _, ran, _⟩ := inputReport_ok inStep.served found parental carries due frames
  exact ⟨later, .receive next ran⟩

end Steps

/-! ## A program that allocates once and forks -/

theorem tracing_forkable : Forkable (tracing true) 0 (traced true) 100 101 2 where
  reachable := tracing_reachable true
  found := rfl
  listed := rfl
  root := rfl
  connected := rfl
  followFork := rfl
  idle := rfl
  named := by decide
  new := rfl
  fresh := World.fresh_of_single rfl (by decide)

/-- The program allocates at `16` and forks. -/
def allocatedAndForked : System where
  world := tracing true
  counter := 1
  sent := [({ mallocInfo 16 8 with pid := 100, seqno := 0, stackSize := 1 }, [7])]
  fork := some (1, 1)

theorem allocatedAndForked_run :
    Relation.ReflTransGen (Step 0 100 101 2) { world := tracing true, counter := 0 } allocatedAndForked := by
  have sends : Step 0 100 101 2 { world := tracing true, counter := 0 }
      { allocatedAndForked with fork := none } :=
    @Step.send 0 100 101 2 { world := tracing true, counter := 0 } (mallocInfo 16 8) _ [7] (.inl rfl) rfl
  have forks : Step 0 100 101 2 { allocatedAndForked with fork := none } allocatedAndForked := .fork rfl
  exact (Relation.ReflTransGen.single sends).tail forks

theorem fork_agreed_iff_read : ∃ system q,
    Relation.ReflTransGen (Step 0 100 101 2) { world := tracing true, counter := (traced true).seqno } system ∧
      system.fork = some (1, 1) ∧ system.accepted = some (1, q) ∧ Agreed (tracing true) 0 system := by
  obtain ⟨read, receives⟩ := (inStep_run tracing_forkable allocatedAndForked_run).receives rfl
  have run := allocatedAndForked_run.tail receives
  obtain ⟨later, q, accepts⟩ := (inStep_run tracing_forkable run).accepts (by decide) rfl rfl
  exact ⟨_, q, run.tail accepts, rfl, rfl, (fork_agreed_iff tracing_forkable (run.tail accepts) rfl rfl).1 rfl⟩

/-- A child accepted before the report of its parent is read expects that report. -/
theorem fork_overtakes : ¬ ∀ (start : World) (p : ProcId) (process : MPProcess) (pid childPid : Pid)
    (channel : Channel) (system : System), Forkable start p process pid childPid channel →
      Relation.ReflTransGen (Step p pid childPid channel) { world := start, counter := process.seqno } system →
      Agreed start p system := by
  intro claim
  have inStep := inStep_run tracing_forkable allocatedAndForked_run
  obtain ⟨later, q, accepts⟩ := inStep.accepts (by decide) rfl rfl
  have run := allocatedAndForked_run.tail accepts
  obtain ⟨child, _, _, held, counter, _⟩ := claim _ _ _ _ _ _ _ tracing_forkable run 1 1 0 q rfl rfl
  obtain ⟨_, _, child', _, _, held', _, _, seqno, _⟩ := (inStep_run tracing_forkable run).accepted 0 q rfl
  rw [held] at held'
  cases held'
  rw [counter] at seqno
  exact absurd seqno (by decide)

end Memprof.Fork
