import Memprof.Library.Resequencer
import Memprof.Verified.Blocks

/-! # `process_command` is a resequencer

`process_command` re-enters itself from a loop that overwrites its own arguments.
This module shows that one call is one arrival at the resequencer of
`Library.Resequencer`, with `applyCommand` as the consumer.
-/

namespace Memprof.Delivery

open Library Blocks

def number (command : Command) : ℕ := command.info.seqno.toNat

def expected (state : Store Block × MPProcess) : ℕ := state.2.seqno.toNat

/-- The effect of a command that is due, without the rewritten `info`. -/
def consume (state : Store Block × MPProcess) (command : Command) : Except Fault (Store Block × MPProcess) :=
  (applyCommand state.1 state.2 command.info command.stack).map fun result => (result.1, result.2.1)

def withQueue (queue : List Command) (process : MPProcess) : MPProcess :=
  { process with commandQueue := queue }

/-- The consumer's state and its queue as one process. -/
def rejoin (pending : (Store Block × MPProcess) × List Command) : Store Block × MPProcess :=
  (pending.1.1, withQueue pending.2 pending.1.2)

def call (state : Store Block × MPProcess) (command : Command) : Except Fault (Store Block × MPProcess) :=
  (processCommand state.1 state.2 command.info command.stack).map fun result => (result.1, result.2.1)

/-- `process_command` called for each command of a list in turn. -/
def feed (state : Store Block × MPProcess) (arrival : List Command) : Except Fault (Store Block × MPProcess) :=
  arrival.foldlM call state

@[simp] theorem withQueue_self (process : MPProcess) : withQueue process.commandQueue process = process := rfl

@[simp] theorem withQueue_seqno (queue : List Command) (process : MPProcess) :
    (withQueue queue process).seqno = process.seqno := rfl

theorem insertSorted_eq_enqueue (queue : List Command) (command : Command) :
    gListInsertSorted queueCompare queue command = enqueue number command queue := by
  induction queue with
  | nil => rfl
  | cons head tail inductionHypothesis =>
    have compared : 0 < queueCompare command head ↔ ¬ number command ≤ number head := by
      simp only [queueCompare, number, UInt32.lt_iff_toNat_lt]
      split
      next => simp; omega
      next => split <;> simp <;> omega
    by_cases late : number command ≤ number head
    · simp [gListInsertSorted, compared, late, enqueue]
    · have tailEqual := inductionHypothesis
      unfold enqueue at tailEqual
      simp [gListInsertSorted, compared, late, enqueue, tailEqual]

theorem insertNew_withQueue (queue : List Command) (blocks : Store Block) (process : MPProcess) (info : MIInfo)
    (stack : StackPtr) :
    insertNew blocks (withQueue queue process) info stack =
      ((insertNew blocks process info stack).1, withQueue queue (insertNew blocks process info stack).2) := by
  have same : (withQueue queue process).table = process.table := rfl
  unfold insertNew
  by_cases inserted : info.newPtr ≠ 0 ∧ process.table.lookup info.newPtr = none
  · rw [same, if_pos inserted, if_pos inserted]; rfl
  · rw [same, if_neg inserted, if_neg inserted]

theorem removeOld_withQueue (queue : List Command) (blocks : Store Block) (process : MPProcess) (oldPtr : Addr)
    (stack : StackPtr) :
    removeOld blocks (withQueue queue process) oldPtr stack =
      (removeOld blocks process oldPtr stack).map fun result => (result.1, withQueue queue result.2) := by
  have same : (withQueue queue process).table = process.table := rfl
  unfold removeOld
  rw [same]
  by_cases null : oldPtr = 0
  · simp [null, Except.map]
  · rw [if_pos null, if_pos null]
    cases process.table.lookup oldPtr with
    | none => rfl
    | some b =>
      cases held : blocks.get b with
      | none => simp [held, Except.map]
      | some block =>
        simp only [held]
        cases blockUnref blocks b <;> rfl

theorem reportBlock_withQueue (queue : List Command) (blocks : Store Block) (process : MPProcess) (info : MIInfo)
    (stack : StackPtr) :
    reportBlock blocks (withQueue queue process) info stack =
      (reportBlock blocks process info stack).map fun result =>
        (result.1, withQueue queue result.2.1, result.2.2) := by
  unfold reportBlock
  have same : getBlockTable (withQueue queue process) = withQueue queue (getBlockTable process) := rfl
  rw [same, removeOld_withQueue]
  cases removeOld blocks (getBlockTable process) info.oldPtr stack with
  | error _ => rfl
  | ok result =>
    simp only [Except.map, Bind.bind, Except.bind]
    rw [insertNew_withQueue]

/-- A command that is due never looks at the queue. -/
theorem applyCommand_withQueue (queue : List Command) (blocks : Store Block) (process : MPProcess) (info : MIInfo)
    (stack : StackPtr) :
    applyCommand blocks (withQueue queue process) info stack =
      (applyCommand blocks process info stack).map fun result =>
        (result.1, withQueue queue result.2.1, result.2.2) := by
  unfold applyCommand
  have same : ({ withQueue queue process with seqno := (withQueue queue process).seqno + 1 } : MPProcess) =
      withQueue queue { process with seqno := process.seqno + 1 } := rfl
  simp only [same]
  cases info.operation with
  | new | fork | clone | exec | exit => rfl
  | time => simp only [reportBlock_withQueue, withQueue_seqno]
  | malloc | realloc | free | other _ _ => simp only [reportBlock_withQueue]

theorem consume_withQueue (queue : List Command) (blocks : Store Block) (process : MPProcess) (command : Command) :
    consume (blocks, withQueue queue process) command =
      (consume (blocks, process) command).map fun result => (result.1, withQueue queue result.2) := by
  unfold consume
  rw [applyCommand_withQueue]
  cases applyCommand blocks process command.info command.stack <;> rfl

def forgetInfo (result : Store Block × MPProcess × MIInfo) : Store Block × MPProcess := (result.1, result.2.1)

/-- The loop's test fails at a queue that has settled. -/
theorem unqueueCommand_rejoin {pending : (Store Block × MPProcess) × List Command}
    (stopped : ∀ command ∈ pending.2.head?, number command ≠ expected pending.1) :
    unqueueCommand (rejoin pending).2 = none := by
  obtain ⟨⟨blocks, process⟩, queue⟩ := pending
  cases queue with
  | nil => rfl
  | cons head tail =>
    have notDue : head.info.seqno ≠ process.seqno := by
      simpa [number, expected, UInt32.toNat_inj] using stopped head (by simp)
    exact if_neg notDue

/-- The nested loops drain the queue like one `settle`. -/
theorem drainFuel_eq_settle (queue : List Command) :
    ∀ (fuel : ℕ) (blocks : Store Block) (process : MPProcess) (info : MIInfo), 2 * queue.length + 1 ≤ fuel →
      (drainFuel fuel blocks (withQueue queue process) info).map forgetInfo =
        (settle expected number consume (blocks, withQueue [] process) queue).map rejoin := by
  induction queue with
  | nil =>
    intro fuel blocks process info enough
    obtain ⟨fuel, rfl⟩ : ∃ rest, fuel = rest + 1 := ⟨fuel - 1, by omega⟩
    rfl
  | cons head tail inductionHypothesis =>
    intro fuel blocks process info enough
    rw [List.length_cons] at enough
    obtain ⟨fuel, rfl⟩ : ∃ rest, fuel = rest + 2 := ⟨fuel - 2, by omega⟩
    have headDue : number head = expected (blocks, withQueue [] process) ↔ head.info.seqno = process.seqno := by
      simp [number, expected, UInt32.toNat_inj]
    rw [drainFuel, settle]
    by_cases due : head.info.seqno = process.seqno
    · have unqueued : unqueueCommand (withQueue (head :: tail) process) = some (head, withQueue tail process) :=
        if_pos due
      rw [unqueued, if_pos (headDue.mpr due), consume_withQueue]
      simp only [processCommandFuel, withQueue_seqno, due, ne_eq, not_true_eq_false, if_false, consume,
        applyCommand_withQueue]
      cases applyCommand blocks process head.info head.stack with
      | error _ => rfl
      | ok result =>
        obtain ⟨blocks, process, info⟩ := result
        have drained := inductionHypothesis fuel blocks process info (by omega)
        simp only [Except.map, Bind.bind, Except.bind] at drained ⊢
        cases settled : settle expected number consume (blocks, withQueue [] process) tail with
        | error fault =>
          rw [settled] at drained
          cases ran : drainFuel fuel blocks (withQueue tail process) info with
          | error _ => rw [ran] at drained; simpa using drained
          | ok _ => rw [ran] at drained; cases drained
        | ok pending =>
          rw [settled] at drained
          cases ran : drainFuel fuel blocks (withQueue tail process) info with
          | error _ => rw [ran] at drained; cases drained
          | ok result =>
            rw [ran] at drained
            have same : forgetInfo result = rejoin pending := by simpa using drained
            have stopped := unqueueCommand_rejoin (settle_stops settled)
            rw [← same] at stopped
            simp only [forgetInfo] at stopped
            simp only [drainFuel, stopped]
            exact congrArg Except.ok same
    · have waits : unqueueCommand (withQueue (head :: tail) process) = none := if_neg due
      rw [waits, if_neg (mt headDue.mp due)]
      rfl

theorem processCommand_of_early {process : MPProcess} {info : MIInfo} (early : info.seqno ≠ process.seqno)
    (blocks : Store Block) (stack : StackPtr) :
    processCommand blocks process info stack = .ok (blocks, queueCommand process info stack, info) :=
  if_pos early

theorem processCommand_of_due {process : MPProcess} {info : MIInfo} (due : info.seqno = process.seqno)
    (blocks : Store Block) (stack : StackPtr) :
    processCommand blocks process info stack =
      applyCommand blocks process info stack >>= fun result =>
        drainFuel (2 * process.commandQueue.length + 1) result.1 result.2.1 result.2.2 :=
  if_neg (not_not.mpr due)

/-- One call of `process_command` is one arrival. -/
theorem call_eq_deliver (blocks : Store Block) (process : MPProcess) (queue : List Command) (command : Command) :
    call (blocks, withQueue queue process) command =
      (deliver expected number consume ((blocks, withQueue [] process), queue) command).map rejoin := by
  have due_iff : number command = expected (blocks, withQueue [] process) ↔ command.info.seqno = process.seqno := by
    simp [number, expected, UInt32.toNat_inj]
  unfold call deliver
  by_cases due : command.info.seqno = process.seqno
  · rw [if_pos (due_iff.mpr due), processCommand_of_due (by exact due), applyCommand_withQueue, consume_withQueue]
    simp only [consume]
    cases applyCommand blocks process command.info command.stack with
    | error _ => rfl
    | ok result =>
      exact drainFuel_eq_settle queue (2 * queue.length + 1) result.1 result.2.1 result.2.2 (Nat.le_refl _)
  · rw [if_neg (mt due_iff.mp due), processCommand_of_early (by exact due)]
    simp only [Except.map, queueCommand, insertSorted_eq_enqueue]
    rfl

/-- Delivery keeps the consumer's own queue empty, so arrivals chain. -/
theorem consume_apart {blocks : Store Block} {process : MPProcess} {command : Command}
    {later : Store Block × MPProcess} (consumed : consume (blocks, withQueue [] process) command = .ok later) :
    ∃ blocks' process', later = (blocks', withQueue [] process') := by
  rw [consume_withQueue] at consumed
  cases ran : consume (blocks, process) command with
  | error _ => rw [ran] at consumed; cases consumed
  | ok result => rw [ran] at consumed; cases consumed; exact ⟨_, _, rfl⟩

theorem settle_apart {blocks : Store Block} {process : MPProcess} {queue : List Command}
    {pending : (Store Block × MPProcess) × List Command}
    (settled : settle expected number consume (blocks, withQueue [] process) queue = .ok pending) :
    ∃ blocks' process', pending.1 = (blocks', withQueue [] process') := by
  induction queue generalizing blocks process with
  | nil => cases settled; exact ⟨_, _, rfl⟩
  | cons command queue inductionHypothesis =>
    rw [settle] at settled
    split at settled
    next =>
      cases consumed : consume (blocks, withQueue [] process) command with
      | error _ => simp [consumed, Bind.bind, Except.bind] at settled
      | ok later =>
        obtain ⟨blocks', process', rfl⟩ := consume_apart consumed
        exact inductionHypothesis (by simpa [consumed, Bind.bind, Except.bind] using settled)
    next => cases settled; exact ⟨_, _, rfl⟩

theorem deliver_apart {blocks : Store Block} {process : MPProcess} {queue : List Command} {command : Command}
    {pending : (Store Block × MPProcess) × List Command}
    (delivered : deliver expected number consume ((blocks, withQueue [] process), queue) command = .ok pending) :
    ∃ blocks' process', pending.1 = (blocks', withQueue [] process') := by
  unfold deliver at delivered
  split at delivered
  next =>
    cases consumed : consume (blocks, withQueue [] process) command with
    | error _ => simp [consumed, Bind.bind, Except.bind] at delivered
    | ok later =>
      obtain ⟨blocks', process', rfl⟩ := consume_apart consumed
      exact settle_apart (by simpa [consumed, Bind.bind, Except.bind] using delivered)
  next => cases delivered; exact ⟨_, _, rfl⟩

/-- A run of calls is a run of arrivals. -/
theorem feed_eq_deliver (arrival : List Command) (blocks : Store Block) (process : MPProcess)
    (queue : List Command) :
    feed (blocks, withQueue queue process) arrival =
      (arrival.foldlM (deliver expected number consume) ((blocks, withQueue [] process), queue)).map rejoin := by
  induction arrival generalizing blocks process queue with
  | nil => rfl
  | cons command arrival inductionHypothesis =>
    simp only [feed, List.foldlM_cons, call_eq_deliver]
    cases delivered : deliver expected number consume ((blocks, withQueue [] process), queue) command with
    | error _ => rfl
    | ok pending =>
      obtain ⟨blocks', process', same⟩ := deliver_apart delivered
      obtain ⟨state, queue'⟩ := pending
      simp only at same
      subst same
      exact inductionHypothesis blocks' process' queue'

/-- Any call, on any queue: what is due is applied, what is not waits. -/
theorem processCommand_ensures {allowed : Fault → Prop} {blocks : Store Block} {process : MPProcess}
    (coherent : Coherent blocks process.table) (info : MIInfo) (stack : StackPtr)
    (admitted : ∀ other ∈ (⟨info, stack⟩ : Command) :: process.commandQueue,
      IsReport other.info.operation ∨ allowed .assertion) :
    Ensures allowed (processCommand blocks process info stack) fun result =>
      Step blocks process result.1 result.2.1 ∧ SameElse process result.2.1 ∧
        ∀ other ∈ result.2.1.commandQueue, other ∈ (⟨info, stack⟩ : Command) :: process.commandQueue := by
  have detached : Step blocks process blocks (withQueue [] process) := Step.of_same coherent rfl rfl rfl
  have round : ∀ (state : Store Block × MPProcess) (other : Command),
      other ∈ (⟨info, stack⟩ : Command) :: process.commandQueue →
      Step blocks process state.1 state.2 ∧ SameElse process state.2 →
      Ensures allowed (consume state other) fun later =>
        Step blocks process later.1 later.2 ∧ SameElse process later.2 := by
    rintro ⟨blocks₁, process₁⟩ other member ⟨step₁, same₁⟩
    by_cases reported : IsReport other.info.operation
    · obtain ⟨blocks₂, process₂, info', applied, step₂, same₂, _⟩ :=
        applyCommand_spec step₁.coherent reported other.stack
      rw [consume, applied]
      exact ⟨step₁.trans step₂, same₁.trans same₂⟩
    · have fault : consume (blocks₁, process₁) other = .error .assertion := by
        unfold consume applyCommand
        cases operation : other.info.operation <;> rw [operation] at reported <;> first | rfl | exact (reported trivial).elim
      rw [fault]
      exact (admitted other member).resolve_left reported
  have delivered : Ensures allowed
      (deliver expected number consume ((blocks, withQueue [] process), process.commandQueue) ⟨info, stack⟩)
      fun pending => (Step blocks process pending.1.1 pending.1.2 ∧ SameElse process pending.1.2) ∧
        ∀ other ∈ pending.2, other ∈ (⟨info, stack⟩ : Command) :: process.commandQueue :=
    deliver_ensures round ⟨detached, rfl⟩
  have called : Ensures allowed (call (blocks, withQueue process.commandQueue process) ⟨info, stack⟩)
      fun result => Step blocks process result.1 result.2 ∧ SameElse process result.2 ∧
        ∀ other ∈ result.2.commandQueue, other ∈ (⟨info, stack⟩ : Command) :: process.commandQueue := by
    rw [call_eq_deliver]
    apply Ensures.map
    apply delivered.imp
    rintro ⟨⟨blocks', process'⟩, queue⟩ ⟨⟨step, same⟩, listed⟩
    exact ⟨step.trans (Step.of_same step.coherent rfl rfl rfl), same.trans rfl, listed⟩
  exact Ensures.of_map called

/-! ## The order of arrival -/

theorem reportBlock_seqno {blocks blocks' : Store Block} {process process' : MPProcess} {info info' : MIInfo}
    {stack : StackPtr} (reported : reportBlock blocks process info stack = .ok (blocks', process', info')) :
    process'.seqno = process.seqno := by
  unfold reportBlock at reported
  cases removed : removeOld blocks (getBlockTable process) info.oldPtr stack with
  | error _ => rw [removed] at reported; cases reported
  | ok result =>
    rw [removed] at reported
    cases reported
    exact (insertNew_sameElse result.1 result.2 info stack).2.trans (removeOld_sameElse removed).2

theorem applyCommand_seqno {blocks blocks' : Store Block} {process process' : MPProcess} {info info' : MIInfo}
    {stack : StackPtr} (applied : applyCommand blocks process info stack = .ok (blocks', process', info')) :
    process'.seqno = process.seqno + 1 := by
  unfold applyCommand at applied
  cases operation : info.operation <;> rw [operation] at applied
  case new | fork | clone | exec => cases applied
  case exit => cases applied; rfl
  all_goals exact reportBlock_seqno applied

theorem consume_advances : Advances expected number consume (2 ^ 32 - 1) := by
  intro state command later due below consumed
  unfold consume at consumed
  cases applied : applyCommand state.1 state.2 command.info command.stack with
  | error _ => rw [applied] at consumed; cases consumed
  | ok result =>
    rw [applied] at consumed
    cases consumed
    have counted := applyCommand_seqno applied
    simp only [expected, number] at due below ⊢
    rw [counted, UInt32.toNat_add]
    simp only [UInt32.reduceToNat]
    omega

theorem foldlM_consume_seqno {commands : List Command} {state later : Store Block × MPProcess}
    (ran : commands.foldlM consume state = .ok later) :
    later.2.seqno = state.2.seqno + UInt32.ofNat commands.length := by
  induction commands generalizing state with
  | nil => cases ran; simp
  | cons command commands inductionHypothesis =>
    rw [List.foldlM_cons] at ran
    obtain ⟨middle, consumed, ran⟩ := ok_of_bind ran
    obtain ⟨⟨blocks, process, info⟩, applied, rfl⟩ := ok_of_map consumed
    rw [inductionHypothesis ran, applyCommand_seqno applied, List.length_cons, UInt32.ofNat_add, UInt32.add_assoc,
      UInt32.add_comm 1]
    rfl

/-- A command that is due counts, and so does each one that waited for it. -/
theorem processCommand_seqno {blocks blocks' : Store Block} {process process' : MPProcess} {info info' : MIInfo}
    {stack : StackPtr} (due : info.seqno = process.seqno)
    (ran : processCommand blocks process info stack = .ok (blocks', process', info')) :
    ∃ count ≤ process.commandQueue.length, process'.seqno = process.seqno + UInt32.ofNat (count + 1) := by
  have called : call (blocks, withQueue process.commandQueue process) ⟨info, stack⟩ = .ok (blocks', process') := by
    rw [withQueue_self, call, ran]
    rfl
  rw [call_eq_deliver] at called
  obtain ⟨⟨state, left⟩, delivered, rejoined⟩ := ok_of_map called
  have dueNow : number ⟨info, stack⟩ = expected (blocks, withQueue [] process) := congrArg UInt32.toNat due
  obtain ⟨taken, divided, consumed⟩ := deliver_takes dueNow delivered
  refine ⟨taken.length, by rw [divided, List.length_append]; omega, ?_⟩
  have counted := foldlM_consume_seqno consumed
  cases rejoined
  exact counted

/-- Commands that carry `seqno` and its successors, modulo the width of a `guint`. -/
def Successive (seqno : UInt32) : List Command → Prop
  | [] => True
  | command :: commands => command.info.seqno = seqno ∧ Successive (seqno + 1) commands

theorem successive_of_numbered {commands : List Command} {seqno : UInt32}
    (numbered : commands.map number = List.range' seqno.toNat commands.length)
    (fits : seqno.toNat + commands.length < 2 ^ 32) : Successive seqno commands := by
  induction commands generalizing seqno with
  | nil => trivial
  | cons command commands inductionHypothesis =>
    simp only [List.map_cons, List.length_cons, List.range'_succ, List.cons.injEq] at numbered fits
    have counted : (seqno + 1).toNat = seqno.toNat + 1 := by
      rw [UInt32.toNat_add]
      simp only [UInt32.reduceToNat]
      omega
    refine ⟨UInt32.toNat_inj.mp numbered.1, inductionHypothesis ?_ ?_⟩
    · rw [counted]; exact numbered.2
    · omega

theorem successive_append {left right : List Command} {seqno : UInt32} :
    Successive seqno (left ++ right) ↔
      Successive seqno left ∧ Successive (seqno + UInt32.ofNat left.length) right := by
  induction left generalizing seqno with
  | nil => simp [Successive]
  | cons command left inductionHypothesis =>
    have shifted : seqno + 1 + UInt32.ofNat left.length = seqno + UInt32.ofNat (left.length + 1) := by
      rw [UInt32.ofNat_add, UInt32.add_assoc, UInt32.add_comm 1]
      rfl
    simp only [List.cons_append, Successive, inductionHypothesis, List.length_cons, shifted, and_assoc]

/-- In seqno order no command waits, and each takes effect. -/
theorem feed_successive {blocks : Store Block} {process : MPProcess} (coherent : Coherent blocks process.table)
    (idle : process.commandQueue = []) {commands : List Command} (numbered : Successive process.seqno commands)
    (reported : ∀ command ∈ commands, IsReport command.info.operation) :
    ∃ blocks' process', feed (blocks, process) commands = .ok (blocks', process') ∧
      process'.commandQueue = [] ∧ process'.seqno = process.seqno + UInt32.ofNat commands.length ∧
      Step blocks process blocks' process' ∧ SameElse process process' ∧
      contents blocks' process'.table = (contents blocks process.table).applyAll process.seqno commands ∧
      process'.dumps = process.dumps ++ (contents blocks process.table).dumpsAll process.seqno commands := by
  induction commands generalizing blocks process with
  | nil =>
    exact ⟨blocks, process, rfl, idle, by simp, Step.of_same coherent rfl rfl rfl, SameElse.refl process, rfl,
      (List.append_nil _).symm⟩
  | cons command commands inductionHypothesis =>
    obtain ⟨blocks₁, process₁, info, applied, step₁, same₁, seqno₁, table₁⟩ :=
      applyCommand_spec coherent (reported command (by simp)) command.stack
    have called : call (blocks, process) command = .ok (blocks₁, withQueue [] process₁) := by
      have due : number command = expected (blocks, withQueue [] process) := by
        simp [number, expected, numbered.1]
      have detached : process = withQueue [] process := by rw [withQueue, ← idle]
      rw [detached, call_eq_deliver, deliver, if_pos due, consume_withQueue, consume, applied]
      rfl
    obtain ⟨blocks₂, process₂, fed, empty, seqno₂, step₂, same₂, table₂, dumps₂⟩ :=
      @inductionHypothesis blocks₁ (withQueue [] process₁) step₁.coherent rfl (by rw [withQueue_seqno, seqno₁]; exact numbered.2)
        fun other member => reported other (by simp [member])
    refine ⟨blocks₂, process₂, ?_, empty, ?_, ?_, ?_, ?_, ?_⟩
    · rw [feed, List.foldlM_cons, called]; exact fed
    · rw [seqno₂, withQueue_seqno, seqno₁, List.length_cons, UInt32.ofNat_add, UInt32.add_assoc, UInt32.add_comm 1]
      rfl
    · have detach : Step blocks₁ process₁ blocks₁ (withQueue [] process₁) := Step.of_same step₁.coherent rfl rfl rfl
      exact step₁.trans (detach.trans step₂)
    · exact same₁.trans ((show SameElse process₁ (withQueue [] process₁) from rfl).trans same₂)
    · rw [table₂, withQueue_seqno, seqno₁, Contents.applyAll, ← seqno₁, ← table₁]
      rfl
    · rw [dumps₂, withQueue_seqno, seqno₁, Contents.dumpsAll, ← seqno₁, ← table₁, ← List.append_assoc,
        ← applyCommand_dumps coherent.keyed applied]
      rfl

/-- Arrivals of the same commands in any two orders are one run. -/
theorem feed_perm {blocks : Store Block} {process : MPProcess} (idle : process.commandQueue = [])
    {commands arrival : List Command} (permuted : arrival.Perm commands)
    (numbered : commands.map number = List.range' process.seqno.toNat commands.length)
    (fits : process.seqno.toNat + commands.length < 2 ^ 32) :
    feed (blocks, process) arrival = feed (blocks, process) commands := by
  have detached : process = withQueue [] process := by rw [withQueue, ← idle]
  have inRange : ∀ command ∈ commands, process.seqno.toNat ≤ number command ∧ number command < 2 ^ 32 - 1 := by
    intro command member
    have listed := List.mem_map_of_mem (f := number) member
    rw [numbered, List.mem_range'_1] at listed
    omega
  have distinct : (commands.map number).Nodup := by rw [numbered]; exact List.nodup_range'
  rw [detached, feed_eq_deliver, feed_eq_deliver, deliver_perm consume_advances (blocks, withQueue [] process)
    permuted distinct (fun command member => (inRange command member).1) fun command member =>
    (inRange command member).2]

/-- Reports that carry the next seqnos once each end, in whatever order they arrive, in
the process that the order of their seqnos gives, with nothing left to wait for. -/
theorem feed_order_irrelevant {blocks : Store Block} {process : MPProcess}
    (coherent : Coherent blocks process.table) (idle : process.commandQueue = []) {commands arrival : List Command}
    (reported : ∀ command ∈ commands, IsReport command.info.operation)
    (numbered : commands.map number = List.range' process.seqno.toNat commands.length)
    (fits : process.seqno.toNat + commands.length < 2 ^ 32) (permuted : arrival.Perm commands) :
    ∃ blocks' process',
      feed (blocks, process) commands = .ok (blocks', process') ∧
      feed (blocks, process) arrival = .ok (blocks', process') ∧
      process'.seqno.toNat = process.seqno.toNat + commands.length ∧ process'.commandQueue = [] := by
  obtain ⟨blocks', process', fed, empty, counted, _⟩ :=
    feed_successive coherent idle (successive_of_numbered numbered fits) reported
  refine ⟨blocks', process', fed, ?_, ?_, empty⟩
  · rw [feed_perm idle permuted numbered fits, fed]
  · rw [counted, UInt32.toNat_add, UInt32.toNat_ofNat']
    omega

/-- An allocation and its release, the release arriving first. -/
theorem feed_order_irrelevant_swapped :
    let allocation : Command := ⟨{ operation := .malloc, seqno := 7, newPtr := 16, size := 8 }, none⟩
    let release : Command := ⟨{ operation := .free, seqno := 8, oldPtr := 16 }, none⟩
    ∃ blocks' process',
      feed ({}, { seqno := 7 }) [allocation, release] = .ok (blocks', process') ∧
      feed ({}, { seqno := 7 }) [release, allocation] = .ok (blocks', process') ∧
      process'.seqno.toNat = 9 ∧ process'.commandQueue = [] :=
  feed_order_irrelevant (coherent_empty fun _ _ live => by cases live) rfl (by simp [IsReport]) rfl (by decide)
    (List.Perm.swap _ _ _)

end Memprof.Delivery
