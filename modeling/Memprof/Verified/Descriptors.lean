import Memprof.Descriptors
import Memprof.Library.Outcome

/-! # Whether sockets are closed once, and whose they are

`new_process` itself closes its descriptor twice when it cannot send its message, and a
thread that connects in the middle of `mi_write_stack` or `exit_wait` goes on with a
descriptor that the server's answer has just closed.  A call that looks at `tracing` first
finds no closed descriptor unless a handler runs in between, for whoever closes one turns
`tracing` off; the handler itself does not look (`run_once_iff`).

The descriptor in a record is one that its thread has connected, unless the thread never
registered or a child of `vfork` has used the record (`run_owned`).
-/

namespace Memprof.Descriptors

open Library
open Tracing (ThreadInfo Connection)

/-- Every entry of a log is allowed after those before it. -/
def Each (allowed : List Entry → Entry → Prop) : List Entry → Prop
  | [] => True
  | entry :: before => allowed before entry ∧ Each allowed before

instance Each.decidable (allowed : List Entry → Entry → Prop) [∀ before entry, Decidable (allowed before entry)] :
    ∀ log, Decidable (Each allowed log)
  | [] => isTrue trivial
  | entry :: before =>
    have := Each.decidable allowed before
    inferInstanceAs (Decidable (allowed before entry ∧ Each allowed before))

/-- A descriptor that the task has connected is not used when the task has closed it. -/
def Once (before : List Entry) (entry : Entry) : Prop :=
  entry.action = .write ∨ entry.action = .read ∨ entry.action = .close → ⟨entry.task, .connect, entry.fd⟩ ∈ before →
    ⟨entry.task, .close, entry.fd⟩ ∉ before

instance (before : List Entry) (entry : Entry) : Decidable (Once before entry) :=
  inferInstanceAs (Decidable (_ → _))

/-- The message of `new_process` is sent, if it comes to that. -/
def Written : Connection → Prop
  | .unsent _ => False
  | .failed | .answered _ _ => True

/-- If `new_process` returns, the server has answered that it goes on. -/
def Accepted : Connection → Prop
  | .failed => True
  | .unsent _ => False
  | .answered _ response => response = some true

theorem Accepted.written {connection : Connection} (accepted : Accepted connection) : Written connection := by
  cases connection with
  | failed | answered => trivial
  | unsent outfd => exact accepted

namespace Running

/-- The descriptor of the record is one that the task has connected and closed. -/
def Spent (running : Running) : Prop :=
  ⟨running.task, .connect, running.info.outfd⟩ ∈ running.log ∧ ⟨running.task, .close, running.info.outfd⟩ ∈ running.log

/-- The task has done nothing yet. -/
def Silent (running : Running) : Prop := ∀ entry ∈ running.log, entry.task ≠ running.task

theorem Silent.not_mem {running : Running} (silent : running.Silent) (action : Action) (fd : ℤ) :
    (⟨running.task, action, fd⟩ : Entry) ∉ running.log := fun listed => silent _ listed rfl

@[simp] theorem note_log (running : Running) (action : Action) (fd : ℤ) :
    (running.note action fd).log = ⟨running.task, action, fd⟩ :: running.log := rfl

@[simp] theorem note_task (running : Running) (action : Action) (fd : ℤ) :
    (running.note action fd).task = running.task := rfl

@[simp] theorem note_info (running : Running) (action : Action) (fd : ℤ) :
    (running.note action fd).info = running.info := rfl

@[simp] theorem note_tracing (running : Running) (action : Action) (fd : ℤ) :
    (running.note action fd).tracing = running.tracing := rfl

@[simp] theorem stopTracing_log (running : Running) (fd : ℤ) :
    (running.stopTracing fd).log = ⟨running.task, .close, fd⟩ :: running.log := rfl

@[simp] theorem stopTracing_task (running : Running) (fd : ℤ) : (running.stopTracing fd).task = running.task := rfl

@[simp] theorem stopTracing_info (running : Running) (fd : ℤ) : (running.stopTracing fd).info = running.info := rfl

@[simp] theorem stopTracing_tracing (running : Running) (fd : ℤ) : (running.stopTracing fd).tracing = false := rfl

@[simp] theorem setOutfd_log (running : Running) (allocate : Option LivePid) (outfd : ℤ) :
    (running.setOutfd allocate outfd).log = running.log := by cases allocate <;> rfl

@[simp] theorem setOutfd_task (running : Running) (allocate : Option LivePid) (outfd : ℤ) :
    (running.setOutfd allocate outfd).task = running.task := by cases allocate <;> rfl

@[simp] theorem setOutfd_outfd (running : Running) (allocate : Option LivePid) (outfd : ℤ) :
    (running.setOutfd allocate outfd).info.outfd = outfd := by cases allocate <;> rfl

@[simp] theorem setOutfd_tracing (running : Running) (allocate : Option LivePid) (outfd : ℤ) :
    (running.setOutfd allocate outfd).tracing = running.tracing := by cases allocate <;> rfl

/-! ## The log that each function leaves -/

theorem newProcess_inv {running later : Running} {allocate : Option LivePid} {connection : Connection}
    (returned : running.newProcess allocate connection = .ok later) :
    ∃ outfd, later.task = running.task ∧ later.info = (running.setOutfd allocate outfd).info ∧
      ((connection = .unsent outfd ∧ later.tracing = false ∧
          later.log = ⟨running.task, .close, outfd⟩ :: ⟨running.task, .close, outfd⟩ :: ⟨running.task, .write, outfd⟩ ::
            ⟨running.task, .connect, outfd⟩ :: running.log) ∨
        (connection = .answered outfd (some true) ∧ later.tracing = running.tracing ∧
          later.log = ⟨running.task, .read, outfd⟩ :: ⟨running.task, .write, outfd⟩ :: ⟨running.task, .connect, outfd⟩ ::
            running.log) ∨
        (∃ response, response ≠ some true ∧ connection = .answered outfd response ∧ later.tracing = false ∧
          later.log = ⟨running.task, .close, outfd⟩ :: ⟨running.task, .read, outfd⟩ :: ⟨running.task, .write, outfd⟩ ::
            ⟨running.task, .connect, outfd⟩ :: running.log)) := by
  cases connection with
  | failed => cases returned
  | unsent outfd =>
    cases returned
    exact ⟨outfd, by simp, by simp, .inl (by simp)⟩
  | answered outfd response =>
    by_cases positive : response = some true
    · subst positive
      cases returned
      exact ⟨outfd, by simp, by simp, .inr (.inl (by simp))⟩
    · simp only [newProcess, if_neg positive] at returned
      cases returned
      exact ⟨outfd, by simp, by simp, .inr (.inr ⟨response, positive, by simp⟩)⟩

theorem newProcess_once {running later : Running} {allocate : Option LivePid} {connection : Connection}
    (silent : running.Silent) (returned : running.newProcess allocate connection = .ok later) :
    (Each Once later.log ↔ Each Once running.log ∧ Written connection) ∧ (later.Spent ↔ ¬ Accepted connection) := by
  obtain ⟨outfd, sameTask, info, ⟨rfl, -, log⟩ | ⟨rfl, -, log⟩ | ⟨response, negative, rfl, -, log⟩⟩ :=
    newProcess_inv returned
  -- Nothing of the task is in the log before the entries of the call itself.
  · simp [log, sameTask, info, Each, Once, Written, Accepted, Spent, silent.not_mem]
  · simp [log, sameTask, info, Each, Once, Written, Accepted, Spent, silent.not_mem]
  · simpa [log, sameTask, info, Each, Once, Written, Accepted, Spent, silent.not_mem] using negative

theorem findThread_inv {running later : Running} {registration : Connection}
    (returned : running.findThread registration = .ok later) :
    (running.info.clonePid = 0 ∧ later = running.note .found running.info.outfd) ∨
      (running.info.clonePid ≠ 0 ∧ ∃ registered, running.newProcess none registration = .ok registered ∧
        later = { registered with info := { registered.info with clonePid := 0 } }.note .found registered.info.outfd) := by
  unfold findThread at returned
  split at returned
  · obtain ⟨registered, ranProcess, ended⟩ := ok_of_bind returned
    cases ended
    exact .inr ⟨‹_›, registered, ranProcess, rfl⟩
  · cases returned
    exact .inl ⟨of_not_not ‹_›, rfl⟩

/-- Only a connection that fails ends the process. -/
theorem findThread_ok_iff {running : Running} {registration : Connection} :
    (∃ later, running.findThread registration = .ok later) ↔ running.info.clonePid = 0 ∨ registration ≠ .failed := by
  unfold findThread
  split
  next detached =>
    cases registration with
    | failed =>
      refine ⟨?_, fun goesOn => absurd rfl (goesOn.resolve_left detached)⟩
      rintro ⟨_, returned⟩
      cases returned
    | unsent | answered => exact ⟨fun _ => .inr nofun, fun _ => ⟨_, rfl⟩⟩
  next attached => exact ⟨fun _ => .inl (of_not_not attached), fun _ => ⟨_, rfl⟩⟩

theorem findThread_clonePid {running later : Running} {registration : Connection}
    (returned : running.findThread registration = .ok later) : later.info.clonePid = 0 := by
  obtain ⟨attached, rfl⟩ | ⟨-, registered, -, rfl⟩ := findThread_inv returned
  · exact attached
  · rfl

/-- What `mi_write_stack` and `exit_wait` need of a thread. -/
def Usable (running : Running) (registration : Connection) : Prop :=
  if running.info.clonePid = 0 then ¬ running.Spent else Accepted registration

theorem findThread_once {running later : Running} {registration : Connection}
    (silent : running.info.clonePid ≠ 0 → running.Silent) (returned : running.findThread registration = .ok later) :
    (Each Once later.log ↔ Each Once running.log ∧ (running.info.clonePid ≠ 0 → Written registration)) ∧
      (¬ later.Spent ↔ running.Usable registration) := by
  obtain ⟨attached, rfl⟩ | ⟨detached, registered, ranProcess, rfl⟩ := findThread_inv returned
  · simp [Each, Once, Usable, attached, Spent]
  · obtain ⟨once, spent⟩ := newProcess_once (silent detached) ranProcess
    refine ⟨?_, ?_⟩
    · simpa [Each, Once, detached] using once
    · have same : ({ registered with info := { registered.info with clonePid := 0 } }.note .found
          registered.info.outfd).Spent ↔ registered.Spent := by simp [Spent]
      rw [same, spent, Usable, if_neg detached, not_not]

theorem writeReport_once (running : Running) (nFrames : ℤ) (infoSent framesSent : Bool) :
    Each Once (running.writeReport nFrames infoSent framesSent).log ↔ Each Once running.log ∧ ¬ running.Spent := by
  unfold writeReport
  split
  · simp [Each, Once, Spent]
    tauto
  · split
    · simp [Each, Once, Spent]
      tauto
    · dsimp only
      split
      · simp [Each, Once, Spent]
        tauto
      · simp [Each, Once, Spent]
        tauto

theorem takeLeave_once (running : Running) (sent : Bool) :
    Each Once (running.takeLeave sent).log ↔ Each Once running.log ∧ ¬ running.Spent := by
  cases sent
  · simp [takeLeave, Each, Once, Spent]
    tauto
  · simp [takeLeave, Each, Once, Spent]
    tauto

theorem miWriteStack_inv {running later : Running} {nFrames : ℤ} {registration : Connection}
    {infoSent framesSent : Bool}
    (returned : running.miWriteStack nFrames registration infoSent framesSent = .ok later) :
    ((nFrames < 0 ∨ 20000 < nFrames) ∧ later = running) ∨
      (¬ (nFrames < 0 ∨ 20000 < nFrames) ∧ ∃ found, running.findThread registration = .ok found ∧
        later = found.writeReport nFrames infoSent framesSent) := by
  unfold miWriteStack at returned
  split at returned
  · cases returned
    exact .inl ⟨‹_›, rfl⟩
  · obtain ⟨found, ranFind, ended⟩ := ok_of_bind returned
    cases ended
    exact .inr ⟨‹_›, found, ranFind, rfl⟩

theorem exitWait_inv {running later : Running} {registration : Connection} {sent : Bool}
    (returned : running.exitWait registration sent = .ok later) :
    ∃ found, running.findThread registration = .ok found ∧ later = found.takeLeave sent := by
  obtain ⟨found, ranFind, ended⟩ := ok_of_bind returned
  cases ended
  exact ⟨found, ranFind, rfl⟩

theorem Usable.written {running : Running} {registration : Connection} (usable : running.Usable registration)
    (detached : running.info.clonePid ≠ 0) : Written registration := by
  rw [Usable, if_neg detached] at usable
  exact usable.written

theorem miWriteStack_once {running later : Running} {nFrames : ℤ} {registration : Connection}
    {infoSent framesSent : Bool} (silent : running.info.clonePid ≠ 0 → running.Silent)
    (returned : running.miWriteStack nFrames registration infoSent framesSent = .ok later) :
    Each Once later.log ↔
      Each Once running.log ∧ (¬ (nFrames < 0 ∨ 20000 < nFrames) → running.Usable registration) := by
  obtain ⟨elided, rfl⟩ | ⟨carried, found, ranFind, rfl⟩ := miWriteStack_inv returned
  · simp [elided]
  · obtain ⟨once, usable⟩ := findThread_once silent ranFind
    rw [writeReport_once, once, usable, and_assoc]
    exact and_congr_right fun _ =>
      ⟨fun both _ => both.2, fun needed => ⟨(needed carried).written, needed carried⟩⟩

theorem exitWait_once {running later : Running} {registration : Connection} {sent : Bool}
    (silent : running.info.clonePid ≠ 0 → running.Silent) (returned : running.exitWait registration sent = .ok later) :
    Each Once later.log ↔ Each Once running.log ∧ running.Usable registration := by
  obtain ⟨found, ranFind, rfl⟩ := exitWait_inv returned
  obtain ⟨once, usable⟩ := findThread_once silent ranFind
  rw [takeLeave_once, once, usable, and_assoc]
  exact and_congr_right fun _ => ⟨And.right, fun needed => ⟨needed.written, needed⟩⟩

/-! ## What a call does to the memory -/

/-- The entries are the task's own, and whoever closes a descriptor turns `tracing` off for
good. -/
structure Advanced (running later : Running) : Prop where
  task : later.task = running.task
  tracing : later.tracing = true → running.tracing = true
  added : ∃ entries, later.log = entries ++ running.log ∧ (∀ entry ∈ entries, entry.task = running.task) ∧
    (later.tracing = true → ∀ entry ∈ entries, entry.action ≠ .close)

theorem Advanced.refl (running : Running) : Advanced running running := ⟨rfl, id, [], by simp⟩

theorem Advanced.trans {running middle later : Running} (first : Advanced running middle)
    (second : Advanced middle later) : Advanced running later := by
  obtain ⟨entries, log, own, stopped⟩ := first.added
  obtain ⟨entries', log', own', stopped'⟩ := second.added
  refine ⟨second.task.trans first.task, fun on => first.tracing (second.tracing on), entries' ++ entries, ?_, ?_, ?_⟩
  · rw [log', log, List.append_assoc]
  · intro entry listed
    rcases List.mem_append.mp listed with listed | listed
    · exact (own' entry listed).trans first.task
    · exact own entry listed
  · intro on entry listed
    rcases List.mem_append.mp listed with listed | listed
    · exact stopped' on entry listed
    · exact stopped (second.tracing on) entry listed

theorem advanced_newProcess {running later : Running} {allocate : Option LivePid} {connection : Connection}
    (returned : running.newProcess allocate connection = .ok later) : Advanced running later := by
  obtain ⟨outfd, sameTask, -, ⟨-, off, log⟩ | ⟨-, same, log⟩ | ⟨response, -, -, off, log⟩⟩ := newProcess_inv returned
  · exact ⟨sameTask, by simp [off], [_, _, _, _], log, by simp, by simp [off]⟩
  · exact ⟨sameTask, by simp [same], [_, _, _], log, by simp, by simp⟩
  · exact ⟨sameTask, by simp [off], [_, _, _, _], log, by simp, by simp [off]⟩

theorem advanced_findThread {running later : Running} {registration : Connection}
    (returned : running.findThread registration = .ok later) : Advanced running later := by
  obtain ⟨-, rfl⟩ | ⟨-, registered, ranProcess, rfl⟩ := findThread_inv returned
  · exact ⟨rfl, id, [_], rfl, by simp, by simp⟩
  · refine (advanced_newProcess ranProcess).trans ⟨rfl, id, [_], rfl, by simp, by simp⟩

theorem advanced_writeReport (running : Running) (nFrames : ℤ) (infoSent framesSent : Bool) :
    Advanced running (running.writeReport nFrames infoSent framesSent) := by
  unfold writeReport
  split
  · exact ⟨rfl, by simp, [_, _], rfl, by simp, by simp⟩
  · split
    · exact ⟨rfl, id, [_], rfl, by simp, by simp⟩
    · dsimp only
      split
      · exact ⟨rfl, id, [_, _], rfl, by simp, by simp⟩
      · exact ⟨rfl, by simp, [_, _, _], rfl, by simp, by simp⟩

theorem advanced_takeLeave (running : Running) (sent : Bool) : Advanced running (running.takeLeave sent) := by
  cases sent
  · exact ⟨rfl, by simp [takeLeave], [_, _], rfl, by simp, by simp [takeLeave]⟩
  · exact ⟨rfl, by simp [takeLeave], [_, _, _], rfl, by simp, by simp [takeLeave]⟩

@[simp] theorem writeReport_info (running : Running) (nFrames : ℤ) (infoSent framesSent : Bool) :
    (running.writeReport nFrames infoSent framesSent).info = running.info := by
  unfold writeReport
  split
  · rfl
  · split
    · rfl
    · dsimp only
      split <;> rfl

/-- A thread that has made a call is attached. -/
structure Called (running later : Running) : Prop extends Advanced running later where
  clonePid : later.info.clonePid ≠ 0 → later = running

theorem called_findThread {running later : Running} {registration : Connection}
    (returned : running.findThread registration = .ok later) : Called running later :=
  ⟨advanced_findThread returned, fun detached => absurd (findThread_clonePid returned) detached⟩

theorem called_miWriteStack {running later : Running} {nFrames : ℤ} {registration : Connection}
    {infoSent framesSent : Bool}
    (returned : running.miWriteStack nFrames registration infoSent framesSent = .ok later) : Called running later := by
  obtain ⟨-, rfl⟩ | ⟨-, found, ranFind, rfl⟩ := miWriteStack_inv returned
  · exact ⟨Advanced.refl _, fun _ => rfl⟩
  · refine ⟨(advanced_findThread ranFind).trans (advanced_writeReport ..), fun detached => absurd ?_ detached⟩
    rw [writeReport_info]
    exact findThread_clonePid ranFind

@[simp] theorem takeLeave_clonePid (running : Running) (sent : Bool) :
    (running.takeLeave sent).info.clonePid = running.info.clonePid := by cases sent <;> rfl

theorem called_exitWait {running later : Running} {registration : Connection} {sent : Bool}
    (returned : running.exitWait registration sent = .ok later) : Called running later := by
  obtain ⟨found, ranFind, rfl⟩ := exitWait_inv returned
  refine ⟨(advanced_findThread ranFind).trans (advanced_takeLeave ..), fun detached => absurd ?_ detached⟩
  rw [takeLeave_clonePid]
  exact findThread_clonePid ranFind

/-! ## The memory is that of `Tracing` -/

structure Of (running : Running) (memory : Tracing.Memory) : Prop where
  tracing : running.tracing = memory.tracing
  thread : running.info = memory.thread

theorem Of.newProcess {running later : Running} {memory : Tracing.Memory} (same : running.Of memory)
    {allocate : Option LivePid} {connection : Connection} (returned : running.newProcess allocate connection = .ok later) :
    ∃ memory', Tracing.newProcess memory (allocate.map Subtype.val) connection = .ok memory' ∧ later.Of memory' := by
  have set : ∀ outfd, (running.setOutfd allocate outfd).info =
      (Tracing.setOutfd memory (allocate.map Subtype.val) outfd).thread := by
    intro outfd
    cases allocate <;> simp [setOutfd, Tracing.setOutfd, same.thread]
  have kept : ∀ outfd, (Tracing.setOutfd memory (allocate.map Subtype.val) outfd).tracing = memory.tracing := by
    intro outfd
    cases allocate <;> rfl
  obtain ⟨outfd, -, info, ⟨rfl, off, -⟩ | ⟨rfl, on, -⟩ | ⟨response, negative, rfl, off, -⟩⟩ := newProcess_inv returned
  · exact ⟨_, rfl, off, info.trans (set outfd)⟩
  · exact ⟨_, rfl, on.trans (same.tracing.trans (kept outfd).symm), info.trans (set outfd)⟩
  · have ran : Tracing.newProcess memory (allocate.map Subtype.val) (.answered outfd response) =
        .ok (Tracing.stopTracing (Tracing.setOutfd memory (allocate.map Subtype.val) outfd)) := if_neg negative
    exact ⟨_, ran, off, info.trans (set outfd)⟩

theorem Of.findThread {running later : Running} {memory : Tracing.Memory} (same : running.Of memory)
    {registration : Connection} (returned : running.findThread registration = .ok later) :
    ∃ memory', Tracing.findThread memory registration = .ok memory' ∧ later.Of memory' := by
  unfold Tracing.findThread
  obtain ⟨attached, rfl⟩ | ⟨detached, registered, ranProcess, rfl⟩ := findThread_inv returned
  · rw [if_neg (not_not.mpr (same.thread ▸ attached))]
    exact ⟨memory, rfl, same.tracing, same.thread⟩
  · obtain ⟨memory', ran, sameNow⟩ := same.newProcess ranProcess
    rw [if_pos (same.thread ▸ detached), show Tracing.newProcess memory none registration = .ok memory' from ran, ok_bind]
    exact ⟨_, rfl, sameNow.tracing, by simp [sameNow.thread]⟩

theorem Of.exitWait {running later : Running} {memory : Tracing.Memory} (same : running.Of memory)
    {registration : Connection} {sent : Bool} (returned : running.exitWait registration sent = .ok later) :
    ∃ memory', Tracing.exitWait memory registration = .ok memory' ∧ later.Of { memory' with tracing := false } := by
  obtain ⟨found, ranFind, rfl⟩ := exitWait_inv returned
  have counted : running.Of { memory with seqno := memory.seqno + 1 } := ⟨same.tracing, same.thread⟩
  obtain ⟨memory', ran, sameNow⟩ := counted.findThread ranFind
  rw [Tracing.exitWait, ran, ok_bind]
  refine ⟨_, rfl, rfl, ?_⟩
  cases sent <;> simp [takeLeave, sameNow.thread]

theorem Of.miWriteStack {running later : Running} {memory : Tracing.Memory} (same : running.Of memory) (pid : Pid)
    (info : MIInfo) {nFrames : ℤ} {registration : Connection} {infoSent framesSent : Bool}
    (returned : running.miWriteStack nFrames registration infoSent framesSent = .ok later) :
    ∃ memory', Tracing.miWriteStack memory pid info nFrames registration
        (infoSent && (nFrames = 0 || framesSent)) = .ok memory' ∧ later.Of memory' := by
  unfold Tracing.miWriteStack numberReport
  obtain ⟨elided, rfl⟩ | ⟨carried, found, ranFind, rfl⟩ := miWriteStack_inv returned
  · rw [if_pos elided]
    exact ⟨memory, rfl, same⟩
  · have counted : running.Of { memory with seqno := memory.seqno + 1 } := ⟨same.tracing, same.thread⟩
    obtain ⟨memory', ran, sameNow⟩ := counted.findThread ranFind
    rw [if_neg carried]
    dsimp only
    rw [ran, ok_bind]
    refine ⟨_, rfl, ?_, ?_⟩
    · unfold writeReport
      cases infoSent <;> cases framesSent <;> by_cases empty : nFrames = 0 <;>
        simp [empty, sameNow.tracing, Tracing.stopTracing]
    · rw [writeReport_info, sameNow.thread]
      split <;> rfl

end Running

/-! ## The invariant of the program -/

def Thread.tasks (thread : Thread) : List Task := thread.task :: thread.waiting

/-- A thread that is to connect has no history, and one that has just looked at `tracing`
has not closed its descriptor. -/
structure Thread.Fine (log : List Entry) (thread : Thread) : Prop where
  silent : thread.info.clonePid ≠ 0 → ∀ entry ∈ log, entry.task ≠ thread.task.id
  calm : thread.busy = true → thread.interrupted = false → ∀ entry ∈ log, entry.action = .close →
    entry.task ≠ thread.task.id
  paused : thread.waiting ≠ [] → thread.info.clonePid = 0

/-- The same for the entries of others. -/
theorem Thread.Fine.others {log entries : List Entry} {thread : Thread} (fine : thread.Fine log)
    (others : ∀ entry ∈ entries, entry.task ≠ thread.task.id) : thread.Fine (entries ++ log) := by
  refine ⟨fun detached entry listed => ?_, fun busy calm entry listed closes => ?_, fine.paused⟩
  · rcases List.mem_append.mp listed with listed | listed
    · exact others entry listed
    · exact fine.silent detached entry listed
  · rcases List.mem_append.mp listed with listed | listed
    · exact others entry listed
    · exact fine.calm busy calm entry listed closes

structure Tidy (program : Program) : Prop where
  logged : ∀ entry ∈ program.log, entry.task < program.tasks
  made : ∀ thread ∈ program.threads, ∀ task ∈ thread.tasks, task.id < program.tasks
  apart : ∀ (i j : ℕ) (thread other : Thread), program.threads[i]? = some thread →
    program.threads[j]? = some other → i ≠ j →
    ∀ task ∈ thread.tasks, ∀ task' ∈ other.tasks, task.id ≠ task'.id
  stopped : program.tracing = true → ∀ entry ∈ program.log, entry.action ≠ .close
  fine : ∀ thread ∈ program.threads, thread.Fine program.log
  unstarted : program.threads = [] → program.log = []

namespace Program

@[simp] theorem running_log (program : Program) (thread : Thread) : (program.running thread).log = program.log := rfl

@[simp] theorem running_info (program : Program) (thread : Thread) : (program.running thread).info = thread.info := rfl

@[simp] theorem resume_log (program : Program) (i : ℕ) (thread : Thread) (running : Running) :
    (program.resume i thread running).log = running.log := rfl

@[simp] theorem addThread_log (program : Program) (pid : LivePid) (info : ThreadInfo) (unregistered : Bool) :
    (program.addThread pid info unregistered).log = program.log := rfl

theorem thread_iff {program : Program} {i : ℕ} {thread : Thread} :
    program.thread i = .ok thread ↔ program.threads[i]? = some thread := by
  unfold Program.thread
  split <;> simp [*]

theorem checked_iff {program : Program} {i : ℕ} {thread : Thread} {test : Thread → Prop} [DecidablePred test] :
    (program.thread i >>= fun thread => if test thread then .ok thread else .error .absent) = .ok thread ↔
      program.threads[i]? = some thread ∧ test thread := by
  constructor
  · intro returned
    obtain ⟨found, listed, checked⟩ := ok_of_bind returned
    split at checked
    · cases checked
      exact ⟨thread_iff.mp listed, ‹_›⟩
    · cases checked
  · rintro ⟨listed, passes⟩
    rw [thread_iff.mpr listed, ok_bind, if_pos passes]

theorem entered_iff {program : Program} {i : ℕ} {thread : Thread} :
    program.entered i = .ok thread ↔ program.threads[i]? = some thread ∧ thread.busy = true := checked_iff

theorem signalled_iff {program : Program} {i : ℕ} {thread : Thread} :
    program.signalled i = .ok thread ↔
      program.threads[i]? = some thread ∧ program.timer ≠ none ∧ thread.waiting = [] :=
  @checked_iff program i thread (fun thread => program.timer ≠ none ∧ thread.waiting = []) _

theorem call_inv {program later : Program} {i : ℕ} {thread : Thread} {outcome : Except Running Running}
    (returned : program.call i thread outcome = .ok later) :
    ∃ running, outcome = .ok running ∧ later = program.resume i thread running := by
  cases outcome with
  | ok running =>
    cases returned
    exact ⟨running, rfl, rfl⟩
  | error running => cases returned

theorem miStop_resume (program : Program) (i : ℕ) (thread : Thread) (running : Running) :
    program.miStop.resume i thread running =
      { program.resume i thread running with timer := program.miStop.timer } := by
  unfold miStop
  split <;> rfl

/-- A child that cannot connect only turns `tracing` off. -/
theorem vforkChild_cases (program : Program) (i : ℕ) (thread : Thread) (childPid : LivePid) (connection : Connection) :
    (connection = .failed ∧ program.vforkChild i thread childPid connection =
      program.resume i thread { program.running thread with task := program.tasks, tracing := false }) ∨
    ∃ running, ({ program.running thread with task := program.tasks } : Running).newProcess (some childPid) connection =
        .ok running ∧
      program.vforkChild i thread childPid connection =
        { program.resume i
            { thread with
              task := { id := program.tasks, pid := childPid },
              waiting := { thread.task with vforked := true } :: thread.waiting } running with
          tasks := program.tasks + 1 } := by
  cases connection with
  | failed => exact .inl ⟨rfl, rfl⟩
  | unsent outfd => exact .inr ⟨_, rfl, rfl⟩
  | answered outfd response => exact .inr ⟨_, rfl, rfl⟩

end Program

/-- One thread is changed, with new tasks at most, and the log gets entries of that thread
and of new tasks. -/
theorem Tidy.update {program later : Program} (tidy : Tidy program) {i : ℕ} {thread changed : Thread}
    (listed : program.threads[i]? = some thread) (threads : later.threads = program.threads.set i changed)
    (tasks : program.tasks ≤ later.tasks)
    (changedTasks : ∀ task ∈ changed.tasks, task.id < later.tasks ∧
      ((∃ old ∈ thread.tasks, old.id = task.id) ∨ program.tasks ≤ task.id))
    (added : ∃ entries, later.log = entries ++ program.log ∧
      (∀ entry ∈ entries, entry.task < later.tasks ∧ (entry.task = thread.task.id ∨ program.tasks ≤ entry.task)) ∧
      (later.tracing = true → program.tracing = true ∧ ∀ entry ∈ entries, entry.action ≠ .close))
    (fine : changed.Fine later.log) : Tidy later := by
  obtain ⟨entries, log, owners, stopped⟩ := added
  have inside : i < program.threads.length := (List.getElem?_eq_some_iff.mp listed).1
  -- A thread other than `i` shares no task with the changed one.
  have distinct : ∀ j other, j ≠ i → program.threads[j]? = some other →
      ∀ task ∈ changed.tasks, ∀ task' ∈ other.tasks, task.id ≠ task'.id := by
    intro j other differs found task mem task' mem' same
    obtain ⟨old, oldMem, sameId⟩ | fresh := (changedTasks task mem).2
    · exact tidy.apart i j thread other listed found (Ne.symm differs) old oldMem task' mem' (sameId.trans same)
    · exact absurd (tidy.made other (List.mem_of_getElem? found) task' mem') (by omega)
  refine ⟨?_, ?_, ?_, ?_, ?_, fun none => ?_⟩
  · intro entry mem
    rw [log] at mem
    rcases List.mem_append.mp mem with mem | mem
    · exact (owners entry mem).1
    · exact (tidy.logged entry mem).trans_le tasks
  · intro other mem task task_mem
    rw [threads] at mem
    rcases List.mem_or_eq_of_mem_set mem with mem | rfl
    · exact (tidy.made other mem task task_mem).trans_le tasks
    · exact (changedTasks task task_mem).1
  · intro j k first second foundFirst foundSecond differs
    rw [threads] at foundFirst foundSecond
    by_cases firstHere : j = i
    · subst firstHere
      rw [List.getElem?_set_self inside] at foundFirst
      rw [List.getElem?_set_ne differs] at foundSecond
      cases foundFirst
      exact distinct k second (Ne.symm differs) foundSecond
    · rw [List.getElem?_set_ne (Ne.symm firstHere)] at foundFirst
      by_cases secondHere : k = i
      · subst secondHere
        rw [List.getElem?_set_self inside] at foundSecond
        cases foundSecond
        exact fun task mem task' mem' => (distinct j first firstHere foundFirst task' mem' task mem).symm
      · rw [List.getElem?_set_ne (Ne.symm secondHere)] at foundSecond
        exact tidy.apart j k first second foundFirst foundSecond differs
  · intro on entry mem
    rw [log] at mem
    rcases List.mem_append.mp mem with mem | mem
    · exact (stopped on).2 entry mem
    · exact tidy.stopped (stopped on).1 entry mem
  · intro other mem
    rw [threads] at mem
    obtain ⟨j, found⟩ := List.mem_iff_getElem?.mp mem
    by_cases here : j = i
    · subst here
      rw [List.getElem?_set_self inside] at found
      cases found
      exact fine
    · rw [List.getElem?_set_ne (Ne.symm here)] at found
      rw [log]
      refine (tidy.fine other (List.mem_of_getElem? found)).others fun entry mem same => ?_
      obtain own | fresh := (owners entry mem).2
      · exact tidy.apart i j thread other listed found (Ne.symm here) thread.task List.mem_cons_self other.task
          List.mem_cons_self (own.symm.trans same)
      · exact absurd (tidy.made other (List.mem_of_getElem? found) other.task List.mem_cons_self) (by omega)
  · rw [threads, List.set_eq_nil_iff] at none
    simp [none] at inside

/-- A thread is added, of a new task that has done nothing. -/
theorem Tidy.addThread {program : Program} (tidy : Tidy program) (pid : LivePid) (info : ThreadInfo)
    (unregistered : Bool) : Tidy (program.addThread pid info unregistered) := by
  refine ⟨fun entry mem => Nat.lt_succ_of_lt (tidy.logged entry mem), ?_, ?_, tidy.stopped, ?_,
    fun none => absurd none (List.append_ne_nil_of_right_ne_nil _ (List.cons_ne_nil _ _))⟩
  · intro thread mem task task_mem
    rcases List.mem_append.mp mem with mem | mem
    · exact Nat.lt_succ_of_lt (tidy.made thread mem task task_mem)
    · cases List.mem_singleton.mp mem
      cases List.mem_singleton.mp task_mem
      exact Nat.lt_succ_self _
  · intro j k first second foundFirst foundSecond differs task mem task' mem' same
    simp only [Program.addThread, List.getElem?_append] at foundFirst foundSecond
    split at foundFirst <;> split at foundSecond
    · exact tidy.apart j k first second foundFirst foundSecond differs task mem task' mem' same
    · obtain ⟨-, rfl⟩ : k - program.threads.length = 0 ∧
          _ = second := by simpa [List.getElem?_singleton] using foundSecond
      cases List.mem_singleton.mp mem'
      exact absurd (tidy.made first (List.mem_of_getElem? foundFirst) task mem) (by simp [same])
    · obtain ⟨-, rfl⟩ : j - program.threads.length = 0 ∧
          _ = first := by simpa [List.getElem?_singleton] using foundFirst
      cases List.mem_singleton.mp mem
      exact absurd (tidy.made second (List.mem_of_getElem? foundSecond) task' mem') (by simp [← same])
    · have first_at : j - program.threads.length = 0 := by
        by_contra later
        simp [later] at foundFirst
      have second_at : k - program.threads.length = 0 := by
        by_contra later
        simp [later] at foundSecond
      omega
  · intro thread mem
    rcases List.mem_append.mp mem with mem | mem
    · exact tidy.fine thread mem
    · cases List.mem_singleton.mp mem
      exact ⟨fun _ entry listed => (tidy.logged entry listed).ne, nofun, fun waits => absurd rfl waits⟩

theorem Tidy.resume {program : Program} (tidy : Tidy program) {i : ℕ} {thread changed : Thread} {running : Running}
    (listed : program.threads[i]? = some thread) (called : Running.Called (program.running thread) running)
    (same : changed.task = thread.task ∧ changed.waiting = thread.waiting)
    (quiet : changed.busy = false ∨ changed.interrupted = true) : Tidy (program.resume i changed running) := by
  have mem := List.mem_of_getElem? listed
  have before := tidy.fine thread mem
  obtain ⟨entries, log, own, stopped⟩ := called.added
  refine tidy.update listed rfl le_rfl ?_ ⟨entries, log, ?_, fun on => ⟨called.tracing on, stopped on⟩⟩ ⟨?_, ?_, ?_⟩
  · intro task task_mem
    have old : task ∈ thread.tasks := by simpa [Thread.tasks, same.1, same.2] using task_mem
    exact ⟨tidy.made thread mem task old, .inl ⟨task, old, rfl⟩⟩
  · intro entry entry_mem
    have owner : entry.task = thread.task.id := own entry entry_mem
    exact ⟨owner ▸ tidy.made thread mem thread.task List.mem_cons_self, .inl owner⟩
  · intro detached
    cases called.clonePid detached
    intro entry entry_mem
    rw [same.1]
    exact before.silent detached entry entry_mem
  · intro busy calm
    rcases quiet with idle | interrupted
    · exact absurd (idle.symm.trans busy) (by decide)
    · exact absurd (interrupted.symm.trans calm) (by decide)
  · intro waits
    by_contra detached
    cases called.clonePid detached
    exact detached (before.paused (by simpa [same.2] using waits))

/-- The thread has connected, if it was to, before the child is made. -/
theorem Tidy.registered {program : Program} (tidy : Tidy program) {i : ℕ} {thread : Thread} {running : Running}
    {registration : Connection} (listed : program.threads[i]? = some thread)
    (ran : (program.running thread).findThread registration = .ok running) :
    Tidy (program.resume i { thread with busy := false } running) :=
  tidy.resume listed (Running.called_findThread ran) ⟨rfl, rfl⟩ (.inl rfl)

theorem Tidy.timer {program : Program} (tidy : Tidy program) (timer : Option SpeedProfType) :
    Tidy { program with timer := timer } :=
      ⟨tidy.logged, tidy.made, tidy.apart, tidy.stopped, tidy.fine, tidy.unstarted⟩

theorem Tidy.silent_of_fresh {program : Program} (tidy : Tidy program) {running : Running}
    (task : running.task = program.tasks) (log : running.log = program.log) : running.Silent := by
  intro entry listed
  rw [log] at listed
  exact task ▸ (tidy.logged entry listed).ne

theorem Tidy.vforkChild {program : Program} (tidy : Tidy program) {i : ℕ} {thread : Thread} (childPid : LivePid)
    (connection : Connection) (listed : program.threads[i]? = some thread) (idle : thread.busy = false)
    (attached : thread.info.clonePid = 0) : Tidy (program.vforkChild i thread childPid connection) := by
  have mem := List.mem_of_getElem? listed
  have known : ∀ task ∈ thread.tasks, task.id < program.tasks := tidy.made thread mem
  obtain ⟨-, same⟩ | ⟨running, ranProcess, same⟩ := program.vforkChild_cases i thread childPid connection
  · rw [same]
    refine tidy.update listed rfl le_rfl (fun task old => ⟨known task old, .inl ⟨task, old, rfl⟩⟩)
      ⟨[], rfl, by simp, nofun⟩ ⟨?_, ?_, ?_⟩
    · exact fun detached => absurd attached detached
    · exact fun busy => absurd (idle.symm.trans busy) (by decide)
    · exact fun _ => attached
  · rw [same]
    obtain ⟨entries, log, own, stopped⟩ := (Running.advanced_newProcess ranProcess).added
    have tracing := (Running.advanced_newProcess ranProcess).tracing
    have attachedNow : running.info.clonePid = 0 := by
      obtain ⟨outfd, -, info, -⟩ := Running.newProcess_inv ranProcess
      rw [info]
      rfl
    refine tidy.update listed rfl (Nat.le_succ _) ?_ ⟨entries, log, ?_, fun on => ⟨tracing on, stopped on⟩⟩ ⟨?_, ?_, ?_⟩
    · intro task task_mem
      -- The child, the parent that waits for it, or one that waited before.
      rcases List.mem_cons.mp task_mem with rfl | waits
      · exact ⟨Nat.lt_succ_self _, .inr le_rfl⟩
      · rcases List.mem_cons.mp waits with rfl | waits
        · exact ⟨Nat.lt_succ_of_lt (known thread.task List.mem_cons_self), .inl ⟨thread.task, List.mem_cons_self, rfl⟩⟩
        · exact ⟨Nat.lt_succ_of_lt (known task (List.mem_cons_of_mem _ waits)),
            .inl ⟨task, List.mem_cons_of_mem _ waits, rfl⟩⟩
    · intro entry entry_mem
      have owner : entry.task = program.tasks := own entry entry_mem
      exact ⟨owner ▸ Nat.lt_succ_self _, .inr owner.ge⟩
    · exact fun detached => absurd attachedNow detached
    · exact fun busy => absurd (idle.symm.trans busy) (by decide)
    · exact fun _ => attachedNow

/-! ## One step -/

namespace Program

/-- What `mi_write_stack` and `exit_wait` need of a thread, where `unchecked` says that a
handler may have run since the thread looked at `tracing`. -/
def Ready (program : Program) (thread : Thread) (registration : Connection) (unchecked : Bool) : Prop :=
  if thread.info.clonePid = 0 then unchecked = true → ¬ (program.running thread).Spent else Accepted registration

/-- The message of a connection is sent; a thread that connects late, and goes on to use its
descriptor, is accepted; and a handler, or a call that it interrupts, does not find a closed
descriptor. -/
def Reliable (program : Program) : Event → Prop
  | .start _ _ _ connection _ => program.threads = [] → ∀ opened ∈ connection, Written opened
  | .report i nFrames registration _ _ => ∀ thread ∈ program.threads[i]?, thread.busy = true →
      ¬ (nFrames < 0 ∨ 20000 < nFrames) → program.Ready thread registration thread.interrupted
  | .sample i nFrames registration _ _ => ∀ thread ∈ program.threads[i]?, program.timer ≠ none → thread.waiting = [] →
      ¬ (nFrames < 0 ∨ 20000 < nFrames) → program.Ready thread registration true
  | .exit i registration _ => ∀ thread ∈ program.threads[i]?, thread.busy = true →
      program.Ready thread registration thread.interrupted
  | .fork i registration | .clone i registration _ => ∀ thread ∈ program.threads[i]?, thread.busy = true →
      thread.info.clonePid ≠ 0 → Written registration
  | .vfork i registration _ connection => ∀ thread ∈ program.threads[i]?, thread.busy = true →
      (thread.info.clonePid ≠ 0 → Written registration) ∧
        (thread.info.clonePid = 0 ∨ registration ≠ .failed → Written connection)
  | .enter _ | .leave _ | .spawn _ => True

theorem entered_call_inv {program target later : Program} {i : ℕ} {changed : Thread → Thread}
    {outcome : Thread → Except Running Running}
    (returned : (program.entered i >>= fun thread => target.call i (changed thread) (outcome thread)) = .ok later) :
    ∃ thread running, program.threads[i]? = some thread ∧ thread.busy = true ∧ outcome thread = .ok running ∧
      later = target.resume i (changed thread) running := by
  obtain ⟨thread, entered, called⟩ := ok_of_bind returned
  obtain ⟨running, ran, same⟩ := call_inv called
  obtain ⟨listed, busy⟩ := entered_iff.mp entered
  exact ⟨thread, running, listed, busy, ran, same⟩

theorem sample_inv {program later : Program} {i : ℕ} {nFrames : ℤ} {registration : Connection}
    {infoSent framesSent : Bool}
    (returned : program.perform (.sample i nFrames registration infoSent framesSent) = .ok later) :
    ∃ thread running, program.threads[i]? = some thread ∧ program.timer ≠ none ∧ thread.waiting = [] ∧
      (program.running thread).miWriteStack nFrames registration infoSent framesSent = .ok running ∧
      later = program.resume i { thread with interrupted := true } running := by
  obtain ⟨thread, signalled, called⟩ := ok_of_bind returned
  obtain ⟨running, ran, same⟩ := call_inv called
  obtain ⟨listed, timed, alone⟩ := signalled_iff.mp signalled
  exact ⟨thread, running, listed, timed, alone, ran, same⟩

theorem resume_thread {program : Program} {i : ℕ} {thread : Thread} (listed : program.threads[i]? = some thread)
    (changed : Thread) (running : Running) :
    (program.resume i changed running).threads[i]? = some { changed with info := running.info } :=
  List.getElem?_set_self (List.getElem?_eq_some_iff.mp listed).1

theorem vfork_inv {program later : Program} {i : ℕ} {registration connection : Connection} {childPid : LivePid}
    (returned : program.perform (.vfork i registration childPid connection) = .ok later) :
    ∃ thread running, program.threads[i]? = some thread ∧ thread.busy = true ∧
      (program.running thread).findThread registration = .ok running ∧
      later = (program.resume i { thread with busy := false } running).vforkChild i
        { thread with busy := false, info := running.info } childPid connection := by
  obtain ⟨thread, entered, rest⟩ := ok_of_bind returned
  obtain ⟨found, called, rest⟩ := ok_of_bind rest
  obtain ⟨running, ran, rfl⟩ := call_inv called
  obtain ⟨parent, looked, same⟩ := ok_of_bind rest
  obtain ⟨listed, busy⟩ := entered_iff.mp entered
  rw [thread_iff, resume_thread listed] at looked
  cases looked
  exact ⟨thread, running, listed, busy, ran, (Except.ok.inj same).symm⟩

theorem clone_inv {program later : Program} {i : ℕ} {registration : Connection} {childPid : LivePid}
    (returned : program.perform (.clone i registration childPid) = .ok later) :
    ∃ thread running, program.threads[i]? = some thread ∧ thread.busy = true ∧
      (program.running thread).findThread registration = .ok running ∧
      later = (program.resume i { thread with busy := false } running).addThread childPid
        { pid := childPid, clonePid := thread.task.pid } false := by
  obtain ⟨thread, entered, rest⟩ := ok_of_bind returned
  obtain ⟨found, called, same⟩ := ok_of_bind rest
  obtain ⟨running, ran, rfl⟩ := call_inv called
  obtain ⟨listed, busy⟩ := entered_iff.mp entered
  exact ⟨thread, running, listed, busy, ran, (Except.ok.inj same).symm⟩

theorem leave_inv {program later : Program} {i : ℕ} (returned : program.perform (.leave i) = .ok later) :
    ∃ thread task waiting, program.threads[i]? = some thread ∧ thread.waiting = task :: waiting ∧
      later = { program with
        threads := program.threads.set i { thread with task := task, waiting := waiting, busy := false } } := by
  obtain ⟨thread, looked, rest⟩ := ok_of_bind returned
  split at rest
  · cases rest
  · cases rest
    exact ⟨thread, _, _, thread_iff.mp looked, ‹_›, rfl⟩

theorem start_inv {program later : Program} {pid : LivePid} {inherited : ThreadInfo} {tracing : Bool}
    {connection : Option Connection} {timer : Option SpeedProfType}
    (returned : program.perform (.start pid inherited tracing connection timer) = .ok later) :
    program.threads = [] ∧
      ((connection = none ∧ later =
          { program.addThread pid inherited (inherited.clonePid = 0) with tracing := false, timer := timer }) ∨
        ∃ opened running, connection = some opened ∧
          ({ task := program.tasks, tracing := tracing, info := inherited, log := program.log } : Running).newProcess
            (some pid) opened = .ok running ∧
          later = { program.addThread pid running.info false with
            tracing := running.tracing, log := running.log, timer := timer }) := by
  simp only [perform] at returned
  split at returned
  · cases returned
  · refine ⟨of_not_not ‹_›, ?_⟩
    cases connection with
    | none => exact .inl ⟨rfl, (Except.ok.inj returned).symm⟩
    | some opened =>
      refine .inr ⟨opened, ?_⟩
      dsimp only at returned
      split at returned
      · exact ⟨_, rfl, ‹_›, (Except.ok.inj returned).symm⟩
      · cases returned

theorem spawn_inv {program later : Program} {pid : LivePid} (returned : program.perform (.spawn pid) = .ok later) :
    later = program.addThread pid {} true := by
  simp only [perform] at returned
  split at returned
  · cases returned
  · exact (Except.ok.inj returned).symm

end Program

theorem Tidy.silent {program : Program} (tidy : Tidy program) {i : ℕ} {thread : Thread}
    (listed : program.threads[i]? = some thread) (detached : thread.info.clonePid ≠ 0) :
    (program.running thread).Silent := (tidy.fine thread (List.mem_of_getElem? listed)).silent detached

theorem Program.ready_handler (program : Program) (thread : Thread) (registration : Connection) :
    program.Ready thread registration true ↔ (program.running thread).Usable registration := by
  by_cases attached : thread.info.clonePid = 0
  · simp [Program.Ready, Running.Usable, attached]
  · simp [Program.Ready, Running.Usable, attached]

/-- A call that no handler has interrupted has a descriptor that is open. -/
theorem Tidy.usable_iff {program : Program} (tidy : Tidy program) {i : ℕ} {thread : Thread}
    (listed : program.threads[i]? = some thread) (busy : thread.busy = true) (registration : Connection) :
    (program.running thread).Usable registration ↔ program.Ready thread registration thread.interrupted := by
  unfold Running.Usable Program.Ready
  change (if thread.info.clonePid = 0 then _ else _) ↔ _
  split
  · refine ⟨fun unspent _ => unspent, fun ready spent => ?_⟩
    cases interrupted : thread.interrupted with
    | true => exact ready interrupted spent
    | false => exact (tidy.fine thread (List.mem_of_getElem? listed)).calm busy interrupted _ spent.2 rfl rfl
  · rfl

theorem Tidy.perform {program later : Program} (tidy : Tidy program) {event : Event}
    (returned : program.perform event = .ok later) : Tidy later := by
  cases event with
  | start pid inherited tracing connection timer =>
    obtain ⟨alone, ⟨-, rfl⟩ | ⟨opened, running, -, ranProcess, rfl⟩⟩ := Program.start_inv returned
    · have added := tidy.addThread pid inherited (inherited.clonePid = 0)
      exact ⟨added.logged, added.made, added.apart, nofun, added.fine, added.unstarted⟩
    · obtain ⟨entries, log, own, stopped⟩ := (Running.advanced_newProcess ranProcess).added
      have added := tidy.addThread pid running.info false
      have attached : running.info.clonePid = 0 := by
        obtain ⟨outfd, -, info, -⟩ := Running.newProcess_inv ranProcess
        rw [info]
        rfl
      have all : running.log = entries := by rw [log, tidy.unstarted alone, List.append_nil]
      refine ⟨?_, added.made, added.apart, ?_, ?_, fun none => absurd none (by simp [Program.addThread])⟩
      · intro entry entry_mem
        exact (own entry (all ▸ entry_mem)) ▸ Nat.lt_succ_self _
      · exact fun on entry entry_mem => stopped on entry (all ▸ entry_mem)
      · intro thread thread_mem
        simp only [Program.addThread, alone, List.nil_append, List.mem_singleton] at thread_mem
        subst thread_mem
        exact ⟨fun detached => absurd attached detached, nofun, fun waits => absurd rfl waits⟩
  | enter i =>
    obtain ⟨thread, looked, same⟩ := ok_of_bind returned
    cases same
    have listed := Program.thread_iff.mp looked
    have mem := List.mem_of_getElem? listed
    refine tidy.update listed rfl le_rfl (fun task old => ⟨tidy.made thread mem task old, .inl ⟨task, old, rfl⟩⟩)
      ⟨[], rfl, by simp, fun on => ⟨on, by simp⟩⟩ ⟨(tidy.fine thread mem).silent, ?_, (tidy.fine thread mem).paused⟩
    exact fun on _ entry entry_mem closes => absurd closes (tidy.stopped on entry entry_mem)
  | report i nFrames registration infoSent framesSent =>
    obtain ⟨thread, running, listed, -, ran, rfl⟩ := Program.entered_call_inv returned
    exact tidy.resume listed (Running.called_miWriteStack ran) ⟨rfl, rfl⟩ (.inl rfl)
  | sample i nFrames registration infoSent framesSent =>
    obtain ⟨thread, running, listed, -, -, ran, rfl⟩ := Program.sample_inv returned
    exact tidy.resume listed (Running.called_miWriteStack ran) ⟨rfl, rfl⟩ (.inr rfl)
  | exit i registration sent =>
    obtain ⟨thread, running, listed, -, ran, rfl⟩ := Program.entered_call_inv returned
    have left := @Tidy.resume _ tidy _ _ { thread with busy := false } _ listed (Running.called_exitWait ran) ⟨rfl, rfl⟩
      (.inl rfl)
    rw [Program.miStop_resume]
    exact left.timer _
  | fork i registration =>
    obtain ⟨thread, running, listed, -, ran, rfl⟩ := Program.entered_call_inv returned
    exact tidy.registered listed ran
  | vfork i registration childPid connection =>
    obtain ⟨thread, running, listed, -, ran, rfl⟩ := Program.vfork_inv returned
    have found := tidy.registered listed ran
    exact found.vforkChild childPid connection (Program.resume_thread listed _ _) rfl (Running.findThread_clonePid ran)
  | leave i =>
    obtain ⟨thread, task, waiting, listed, waits, rfl⟩ := Program.leave_inv returned
    have mem := List.mem_of_getElem? listed
    have attached := (tidy.fine thread mem).paused (by simp [waits])
    refine tidy.update listed rfl le_rfl (fun older old => ?_) ⟨[], rfl, by simp, fun on => ⟨on, by simp⟩⟩
      ⟨fun detached => absurd attached detached, nofun, fun _ => attached⟩
    have known : older ∈ thread.tasks := by
      rw [Thread.tasks, waits]
      exact List.mem_cons_of_mem _ old
    exact ⟨tidy.made thread mem older known, .inl ⟨older, known, rfl⟩⟩
  | clone i registration childPid =>
    obtain ⟨thread, running, listed, -, ran, rfl⟩ := Program.clone_inv returned
    have found := tidy.registered listed ran
    exact found.addThread _ _ _
  | spawn pid =>
    cases Program.spawn_inv returned
    exact tidy.addThread pid {} true

theorem Tidy.vforkChild_once {program : Program} (tidy : Tidy program) (i : ℕ) (thread : Thread) (childPid : LivePid)
    (connection : Connection) :
    Each Once (program.vforkChild i thread childPid connection).log ↔ Each Once program.log ∧ Written connection := by
  obtain ⟨rfl, same⟩ | ⟨running, ranProcess, same⟩ := program.vforkChild_cases i thread childPid connection
  · rw [same]
    exact (and_iff_left trivial).symm
  · rw [same]
    have silent : ({ program.running thread with task := program.tasks } : Running).Silent :=
      tidy.silent_of_fresh rfl rfl
    exact (Running.newProcess_once silent ranProcess).1

/-- A step leaves the log in order exactly if it is reliable. -/
theorem Tidy.perform_once {program later : Program} (tidy : Tidy program) {event : Event}
    (returned : program.perform event = .ok later) :
    Each Once later.log ↔ Each Once program.log ∧ program.Reliable event := by
  cases event with
  | start pid inherited tracing connection timer =>
    obtain ⟨alone, ⟨rfl, rfl⟩ | ⟨opened, running, rfl, ranProcess, rfl⟩⟩ := Program.start_inv returned
    · simp [Program.Reliable]
    · have once := (Running.newProcess_once (tidy.silent_of_fresh rfl rfl) ranProcess).1
      simpa [Program.Reliable, alone] using once
  | enter i =>
    obtain ⟨thread, looked, same⟩ := ok_of_bind returned
    cases same
    exact (and_iff_left trivial).symm
  | report i nFrames registration infoSent framesSent =>
    obtain ⟨thread, running, listed, busy, ran, rfl⟩ := Program.entered_call_inv returned
    have once := Running.miWriteStack_once (tidy.silent listed) ran
    rw [tidy.usable_iff listed busy] at once
    simpa [Program.Reliable, listed, busy] using once
  | sample i nFrames registration infoSent framesSent =>
    obtain ⟨thread, running, listed, timed, alone, ran, rfl⟩ := Program.sample_inv returned
    have once := Running.miWriteStack_once (tidy.silent listed) ran
    rw [← program.ready_handler] at once
    simpa [Program.Reliable, listed, timed, alone] using once
  | exit i registration sent =>
    obtain ⟨thread, running, listed, busy, ran, rfl⟩ := Program.entered_call_inv returned
    have once := Running.exitWait_once (tidy.silent listed) ran
    rw [tidy.usable_iff listed busy] at once
    rw [Program.miStop_resume]
    simpa [Program.Reliable, listed, busy] using once
  | fork i registration =>
    obtain ⟨thread, running, listed, busy, ran, rfl⟩ := Program.entered_call_inv returned
    have once := (Running.findThread_once (tidy.silent listed) ran).1
    simpa [Program.Reliable, listed, busy] using once
  | vfork i registration childPid connection =>
    obtain ⟨thread, running, listed, busy, ran, rfl⟩ := Program.vfork_inv returned
    have once := (Running.findThread_once (tidy.silent listed) ran).1
    have found := tidy.registered listed ran
    have goesOn : thread.info.clonePid = 0 ∨ registration ≠ .failed := Running.findThread_ok_iff.mp ⟨running, ran⟩
    rw [found.vforkChild_once]
    rw [Program.resume_log, once, and_assoc]
    simp [Program.Reliable, listed, busy, goesOn]
  | leave i =>
    obtain ⟨thread, task, waiting, -, -, rfl⟩ := Program.leave_inv returned
    exact (and_iff_left trivial).symm
  | clone i registration childPid =>
    obtain ⟨thread, running, listed, busy, ran, rfl⟩ := Program.clone_inv returned
    have once := (Running.findThread_once (tidy.silent listed) ran).1
    simpa [Program.Reliable, listed, busy] using once
  | spawn pid =>
    cases Program.spawn_inv returned
    exact (and_iff_left trivial).symm

theorem Program.found_of_not_ready (program : Program) {thread : Thread} {registration : Connection} {unchecked : Bool}
    (refused : ¬ program.Ready thread registration unchecked) :
    ∃ found, (program.running thread).findThread registration = .ok found := by
  refine Running.findThread_ok_iff.mpr ?_
  by_contra both
  obtain ⟨detached, rfl⟩ := not_or.mp both |>.imp id of_not_not
  refine refused ?_
  rw [Program.Ready, if_neg (show thread.info.clonePid ≠ 0 from detached)]
  trivial

theorem Program.found_of_not_written (program : Program) (thread : Thread) {registration : Connection}
    (refused : ¬ Written registration) : ∃ found, (program.running thread).findThread registration = .ok found := by
  refine Running.findThread_ok_iff.mpr (.inr ?_)
  rintro rfl
  exact refused trivial

theorem Program.perform_of_unreliable {program : Program} {event : Event} (refused : ¬ program.Reliable event) :
    ∃ later, program.perform event = .ok later := by
  cases event with
  | start pid inherited tracing connection timer =>
    simp only [Reliable, not_forall] at refused
    obtain ⟨alone, opened, opens, unsent⟩ := refused
    cases Option.mem_def.mp opens
    cases opened with
    | unsent outfd => simp [perform, alone, Running.newProcess]
    | failed | answered => exact absurd trivial unsent
  | report i nFrames registration infoSent framesSent =>
    simp only [Reliable, not_forall] at refused
    obtain ⟨thread, listed, busy, carried, unready⟩ := refused
    obtain ⟨found, ran⟩ := program.found_of_not_ready unready
    simp only [perform, entered_iff.mpr ⟨listed, busy⟩, ok_bind, Running.miWriteStack, if_neg carried, ran]
    exact ⟨_, rfl⟩
  | sample i nFrames registration infoSent framesSent =>
    simp only [Reliable, not_forall] at refused
    obtain ⟨thread, listed, timed, alone, carried, unready⟩ := refused
    obtain ⟨found, ran⟩ := program.found_of_not_ready unready
    simp only [perform, signalled_iff.mpr ⟨listed, timed, alone⟩, ok_bind, Running.miWriteStack, if_neg carried, ran]
    exact ⟨_, rfl⟩
  | exit i registration sent =>
    simp only [Reliable, not_forall] at refused
    obtain ⟨thread, listed, busy, unready⟩ := refused
    obtain ⟨found, ran⟩ := program.found_of_not_ready unready
    simp only [perform, entered_iff.mpr ⟨listed, busy⟩, ok_bind, Running.exitWait, ran]
    exact ⟨_, rfl⟩
  | fork i registration =>
    simp only [Reliable, not_forall] at refused
    obtain ⟨thread, listed, busy, detached, unsent⟩ := refused
    obtain ⟨found, ran⟩ := program.found_of_not_written thread unsent
    simp only [perform, entered_iff.mpr ⟨listed, busy⟩, ok_bind, ran]
    exact ⟨_, rfl⟩
  | vfork i registration childPid connection =>
    simp only [Reliable, not_forall] at refused
    obtain ⟨thread, listed, busy, unsent⟩ := refused
    have goesOn : thread.info.clonePid = 0 ∨ registration ≠ .failed := by
      by_contra both
      obtain ⟨detached, rfl⟩ := not_or.mp both |>.imp id of_not_not
      exact unsent ⟨fun _ => trivial, fun either => absurd either both⟩
    obtain ⟨found, ran⟩ := (@Running.findThread_ok_iff (program.running thread) registration).mpr goesOn
    simp only [perform, entered_iff.mpr ⟨listed, busy⟩, ok_bind, ran, call, thread_iff.mpr (resume_thread listed _ _)]
    exact ⟨_, rfl⟩
  | clone i registration childPid =>
    simp only [Reliable, not_forall] at refused
    obtain ⟨thread, listed, busy, detached, unsent⟩ := refused
    obtain ⟨found, ran⟩ := program.found_of_not_written thread unsent
    simp only [perform, entered_iff.mpr ⟨listed, busy⟩, ok_bind, ran, call]
    exact ⟨_, rfl⟩
  | enter | leave | spawn => exact absurd trivial refused

theorem Tidy.initial : Tidy {} where
  logged _ member := absurd member List.not_mem_nil
  made _ member := absurd member List.not_mem_nil
  apart i _ _ _ listed := by
    rw [show ({} : Program).threads[i]? = none from List.getElem?_nil] at listed
    cases listed
  stopped _ _ member := absurd member List.not_mem_nil
  fine _ member := absurd member List.not_mem_nil
  unstarted _ := rfl

/-- `new_process` closes twice what it cannot send on; a late answer and a handler make
others use a closed descriptor; and nothing else does. -/
theorem run_once_iff (events : List Event) :
    (∀ earlier program, earlier <+: events → Program.run earlier = .ok program → Each Once program.log) ↔
      ∀ earlier event program, earlier ++ [event] <+: events → Program.run earlier = .ok program →
        program.Reliable event :=
  @foldlM_holds_iff _ _ _ Program.perform Tidy (fun program => Each Once program.log) (fun _ _ => True) Program.Reliable {}
    ⟨Tidy.initial, trivial⟩
    (fun _ _ _ tidy holds _ returned =>
      ⟨tidy.perform returned, (tidy.perform_once returned).trans (and_iff_right holds)⟩)
    events (fun _ _ _ _ _ => trivial) fun _ _ _ _ _ _ refused => Program.perform_of_unreliable refused

/-- The message of the first process cannot be sent. -/
theorem run_closesTwice : ¬ ∀ events program, Program.run events = .ok program → Each Once program.log := by
  intro once
  exact absurd (once [.start ⟨1, by decide⟩ {} true (some (.unsent 5)) none] _ rfl) (by decide)

/-! ## Whose descriptor it is -/

/-- A task uses descriptors that it has connected, and `find_thread` returns only to a task
that has connected one. -/
def Owned (before : List Entry) (entry : Entry) : Prop :=
  match entry.action with
  | .connect => True
  | .found => ∃ earlier ∈ before, earlier.task = entry.task ∧ earlier.action = .connect
  | .write | .read | .close => ⟨entry.task, .connect, entry.fd⟩ ∈ before

instance (before : List Entry) (entry : Entry) : Decidable (Owned before entry) := by
  unfold Owned
  split <;> infer_instance

namespace Running

/-- The task has connected a descriptor, and if `own` it is the one in the record. -/
def Connected (running : Running) (own : Prop) : Prop :=
  ∃ fd, ⟨running.task, .connect, fd⟩ ∈ running.log ∧ (own → fd = running.info.outfd)

theorem Connected.advance {running later : Running} {own : Prop} (connected : running.Connected own)
    (advanced : Advanced running later) (outfd : later.info.outfd = running.info.outfd) : later.Connected own := by
  obtain ⟨fd, listed, same⟩ := connected
  obtain ⟨entries, log, -, -⟩ := advanced.added
  refine ⟨fd, ?_, fun owns => (same owns).trans outfd.symm⟩
  rw [log, advanced.task]
  exact List.mem_append_right entries listed

theorem Connected.own {running : Running} {own : Prop} (connected : running.Connected own) (owns : own) :
    ⟨running.task, .connect, running.info.outfd⟩ ∈ running.log := by
  obtain ⟨fd, listed, same⟩ := connected
  exact same owns ▸ listed

theorem newProcess_owned {running later : Running} {allocate : Option LivePid} {connection : Connection}
    (owned : Each Owned running.log) (returned : running.newProcess allocate connection = .ok later) :
    Each Owned later.log ∧ ∀ own, later.Connected own := by
  obtain ⟨outfd, sameTask, info, ⟨-, -, log⟩ | ⟨-, -, log⟩ | ⟨response, -, -, -, log⟩⟩ := newProcess_inv returned
  · exact ⟨by simp [log, Each, Owned, owned], fun own => ⟨outfd, by simp [log, sameTask], by simp [info]⟩⟩
  · exact ⟨by simp [log, Each, Owned, owned], fun own => ⟨outfd, by simp [log, sameTask], by simp [info]⟩⟩
  · exact ⟨by simp [log, Each, Owned, owned], fun own => ⟨outfd, by simp [log, sameTask], by simp [info]⟩⟩

theorem found_owned {running : Running} {own : Prop} (owned : Each Owned running.log)
    (connected : running.Connected own) : Each Owned (running.note .found running.info.outfd).log := by
  obtain ⟨fd, listed, -⟩ := connected
  exact ⟨⟨_, listed, rfl, rfl⟩, owned⟩

theorem findThread_owned {running later : Running} {registration : Connection} {own : Prop}
    (owned : Each Owned running.log) (connected : running.info.clonePid = 0 → running.Connected own)
    (returned : running.findThread registration = .ok later) : Each Owned later.log ∧ later.Connected own := by
  obtain ⟨attached, rfl⟩ | ⟨-, registered, ranProcess, rfl⟩ := findThread_inv returned
  · exact ⟨found_owned owned (connected attached), (connected attached).advance (advanced_findThread returned) rfl⟩
  · obtain ⟨ownedNow, connectedNow⟩ := newProcess_owned owned ranProcess
    obtain ⟨fd, listed, same⟩ := connectedNow own
    exact ⟨⟨⟨_, listed, rfl, rfl⟩, ownedNow⟩, fd, List.mem_cons_of_mem _ listed, same⟩

theorem writeReport_owned {running : Running} (nFrames : ℤ) (infoSent framesSent : Bool)
    (owned : Each Owned running.log) (connected : ⟨running.task, .connect, running.info.outfd⟩ ∈ running.log) :
    Each Owned (running.writeReport nFrames infoSent framesSent).log := by
  unfold writeReport
  split
  · simp [Each, Owned, owned, connected]
  · split
    · simp [Each, Owned, owned, connected]
    · dsimp only
      split
      · simp [Each, Owned, owned, connected]
      · simp [Each, Owned, owned, connected]

theorem takeLeave_owned {running : Running} (sent : Bool) (owned : Each Owned running.log)
    (connected : ⟨running.task, .connect, running.info.outfd⟩ ∈ running.log) :
    Each Owned (running.takeLeave sent).log := by
  cases sent
  · simp [takeLeave, Each, Owned, owned, connected]
  · simp [takeLeave, Each, Owned, owned, connected]

theorem miWriteStack_owned {running later : Running} {nFrames : ℤ} {registration : Connection}
    {infoSent framesSent : Bool} {own : Prop} (owned : Each Owned running.log)
    (connected : running.info.clonePid = 0 → running.Connected own) (owns : own)
    (returned : running.miWriteStack nFrames registration infoSent framesSent = .ok later) :
    Each Owned later.log ∧ (later.info.clonePid = 0 → later.Connected own) := by
  obtain ⟨-, rfl⟩ | ⟨-, found, ranFind, rfl⟩ := miWriteStack_inv returned
  · exact ⟨owned, connected⟩
  · obtain ⟨ownedNow, connectedNow⟩ := findThread_owned owned connected ranFind
    exact ⟨writeReport_owned _ _ _ ownedNow (connectedNow.own owns),
      fun _ => connectedNow.advance (advanced_writeReport ..) (by rw [writeReport_info])⟩

@[simp] theorem takeLeave_outfd (running : Running) (sent : Bool) :
    (running.takeLeave sent).info.outfd = running.info.outfd := by cases sent <;> rfl

theorem exitWait_owned {running later : Running} {registration : Connection} {sent : Bool}
    {own : Prop} (owned : Each Owned running.log) (connected : running.info.clonePid = 0 → running.Connected own)
    (owns : own) (returned : running.exitWait registration sent = .ok later) :
    Each Owned later.log ∧ later.Connected own := by
  obtain ⟨found, ranFind, rfl⟩ := exitWait_inv returned
  obtain ⟨ownedNow, connectedNow⟩ := findThread_owned owned connected ranFind
  exact ⟨takeLeave_owned _ ownedNow (connectedNow.own owns),
    connectedNow.advance (advanced_takeLeave ..) (takeLeave_outfd ..)⟩

end Running

/-- A registered task has connected a descriptor or is to connect one; it is the one in the
record until a child of `vfork` connects there. -/
structure Thread.Held (log : List Entry) (thread : Thread) : Prop where
  connected : thread.task.unregistered = false → thread.info.clonePid = 0 →
    ∃ fd, ⟨thread.task.id, .connect, fd⟩ ∈ log ∧ (thread.task.vforked = false → fd = thread.info.outfd)
  waiting : ∀ task ∈ thread.waiting, task.vforked = true ∧
    (task.unregistered = false → ∃ fd, ⟨task.id, .connect, fd⟩ ∈ log)

theorem Thread.Held.mono {log entries : List Entry} {thread : Thread} (held : thread.Held log) :
    thread.Held (entries ++ log) := by
  refine ⟨fun registered attached => ?_, fun task waits => ⟨(held.waiting task waits).1, fun registered => ?_⟩⟩
  · obtain ⟨fd, listed, same⟩ := held.connected registered attached
    exact ⟨fd, List.mem_append_right entries listed, same⟩
  · obtain ⟨fd, listed⟩ := (held.waiting task waits).2 registered
    exact ⟨fd, List.mem_append_right entries listed⟩

structure Held (program : Program) : Prop where
  owned : Each Owned program.log
  threads : ∀ thread ∈ program.threads, thread.Held program.log

theorem Held.update {program later : Program} (held : Held program) {i : ℕ} {changed : Thread}
    (threads : later.threads = program.threads.set i changed) (added : ∃ entries, later.log = entries ++ program.log)
    (owned : Each Owned later.log) (here : changed.Held later.log) : Held later := by
  obtain ⟨entries, log⟩ := added
  refine ⟨owned, fun thread mem => ?_⟩
  rw [threads] at mem
  rcases List.mem_or_eq_of_mem_set mem with mem | rfl
  · rw [log]
    exact (held.threads thread mem).mono
  · exact here

theorem Held.addThread {program : Program} (held : Held program) (pid : LivePid) (info : ThreadInfo)
    (unregistered : Bool) (attached : unregistered = false → info.clonePid ≠ 0) :
    Held (program.addThread pid info unregistered) := by
  refine ⟨held.owned, fun thread mem => ?_⟩
  rcases List.mem_append.mp mem with mem | mem
  · exact held.threads thread mem
  · cases List.mem_singleton.mp mem
    exact ⟨fun registered none => absurd none (attached registered), nofun⟩

/-- Only a thread that is registered, and not the parent of a `vfork` in whose record the
child has connected, uses its record. -/
def Program.Registered (program : Program) : Event → Prop
  | .report i nFrames _ _ _ => ∀ thread ∈ program.threads[i]?, thread.busy = true →
      ¬ (nFrames < 0 ∨ 20000 < nFrames) → thread.task.unregistered = false ∧ thread.task.vforked = false
  | .sample i nFrames _ _ _ => ∀ thread ∈ program.threads[i]?, program.timer ≠ none → thread.waiting = [] →
      ¬ (nFrames < 0 ∨ 20000 < nFrames) → thread.task.unregistered = false ∧ thread.task.vforked = false
  | .exit i _ _ => ∀ thread ∈ program.threads[i]?, thread.busy = true →
      thread.task.unregistered = false ∧ thread.task.vforked = false
  | .fork i _ | .vfork i _ _ _ | .clone i _ _ => ∀ thread ∈ program.threads[i]?, thread.busy = true →
      thread.task.unregistered = false
  | .start .. | .enter _ | .leave _ | .spawn _ => True

instance (program : Program) (event : Event) : Decidable (program.Registered event) := by
  cases event <;> unfold Program.Registered <;> infer_instance

theorem Held.resume {program : Program} (held : Held program) {i : ℕ} {thread changed : Thread} {running : Running}
    (listed : program.threads[i]? = some thread) (advanced : Running.Advanced (program.running thread) running)
    (owned : Each Owned running.log)
    (connected : thread.task.unregistered = false → running.info.clonePid = 0 →
      running.Connected (thread.task.vforked = false))
    (same : changed.task = thread.task ∧ changed.waiting = thread.waiting) :
    Held (program.resume i changed running) := by
  obtain ⟨entries, log, -, -⟩ := advanced.added
  refine held.update rfl ⟨entries, log⟩ owned ⟨fun registered attached => ?_, fun task waits => ?_⟩
  · change changed.task.unregistered = false at registered
    change ∃ fd, ⟨changed.task.id, .connect, fd⟩ ∈ running.log ∧
      (changed.task.vforked = false → fd = running.info.outfd)
    rw [same.1] at registered ⊢
    have here := connected registered attached
    rw [Running.Connected, advanced.task] at here
    exact here
  · change task ∈ changed.waiting at waits
    rw [same.2] at waits
    change _ ∧ (_ → ∃ fd, _ ∈ running.log)
    rw [log]
    exact ((held.threads thread (List.mem_of_getElem? listed)).mono).waiting task waits

theorem Held.miWriteStack {program : Program} (held : Held program) {i : ℕ} {thread changed : Thread}
    {running : Running} {nFrames : ℤ} {registration : Connection} {infoSent framesSent : Bool}
    (listed : program.threads[i]? = some thread)
    (allowed : ¬ (nFrames < 0 ∨ 20000 < nFrames) → thread.task.unregistered = false ∧ thread.task.vforked = false)
    (returned : (program.running thread).miWriteStack nFrames registration infoSent framesSent = .ok running)
    (same : changed.task = thread.task ∧ changed.waiting = thread.waiting) :
    Held (program.resume i changed running) := by
  have advanced := (Running.called_miWriteStack returned).toAdvanced
  have before := (held.threads thread (List.mem_of_getElem? listed)).connected
  by_cases elided : nFrames < 0 ∨ 20000 < nFrames
  · obtain ⟨-, rfl⟩ | ⟨carried, -⟩ := Running.miWriteStack_inv returned
    · exact held.resume listed advanced held.owned before same
    · exact absurd elided carried
  · obtain ⟨registered, alone⟩ := allowed elided
    obtain ⟨owned, connected⟩ := Running.miWriteStack_owned held.owned (before registered) alone returned
    exact held.resume listed advanced owned (fun _ => connected) same

theorem Held.registered {program : Program} (held : Held program) {i : ℕ} {thread : Thread} {running : Running}
    {registration : Connection} (listed : program.threads[i]? = some thread)
    (registered : thread.task.unregistered = false)
    (ran : (program.running thread).findThread registration = .ok running) :
    Held (program.resume i { thread with busy := false } running) := by
  have before := (held.threads thread (List.mem_of_getElem? listed)).connected registered
  obtain ⟨owned, connected⟩ := Running.findThread_owned held.owned before ran
  exact held.resume listed (Running.advanced_findThread ran) owned (fun _ _ => connected) ⟨rfl, rfl⟩

theorem Held.vforkChild {program : Program} (held : Held program) {i : ℕ} {thread : Thread} (childPid : LivePid)
    (connection : Connection) (listed : program.threads[i]? = some thread) (attached : thread.info.clonePid = 0) :
    Held (program.vforkChild i thread childPid connection) := by
  have before := held.threads thread (List.mem_of_getElem? listed)
  obtain ⟨-, same⟩ | ⟨running, ranProcess, same⟩ := program.vforkChild_cases i thread childPid connection
  · rw [same]
    exact held.update rfl ⟨[], rfl⟩ held.owned ⟨before.connected, before.waiting⟩
  · rw [same]
    have advanced := Running.advanced_newProcess ranProcess
    obtain ⟨entries, log, -, -⟩ := advanced.added
    obtain ⟨owned, connected⟩ := Running.newProcess_owned held.owned ranProcess
    have kept : thread.Held running.log := by
      rw [log]
      exact before.mono
    refine held.update rfl ⟨entries, log⟩ owned ⟨fun _ _ => ?_, fun task waits => ?_⟩
    · obtain ⟨fd, entry_mem, own⟩ := connected True
      rw [advanced.task] at entry_mem
      exact ⟨fd, entry_mem, fun _ => own trivial⟩
    · -- The parent has connected before, or waited already.
      rcases List.mem_cons.mp waits with rfl | waits
      · refine ⟨rfl, fun registered => ?_⟩
        obtain ⟨fd, entry_mem, -⟩ := kept.connected registered attached
        exact ⟨fd, entry_mem⟩
      · exact kept.waiting task waits

theorem Held.perform {program later : Program} (held : Held program) {event : Event}
    (registered : program.Registered event) (returned : program.perform event = .ok later) : Held later := by
  cases event with
  | start pid inherited tracing connection timer =>
    obtain ⟨alone, ⟨-, rfl⟩ | ⟨opened, running, -, ranProcess, rfl⟩⟩ := Program.start_inv returned
    · have added := held.addThread pid inherited (inherited.clonePid = 0) (by simp)
      exact ⟨added.owned, added.threads⟩
    · obtain ⟨owned, connected⟩ := Running.newProcess_owned held.owned ranProcess
      refine ⟨owned, fun thread mem => ?_⟩
      simp only [Program.addThread, alone, List.nil_append, List.mem_singleton] at mem
      subst mem
      obtain ⟨fd, entry_mem, own⟩ := connected True
      rw [(Running.advanced_newProcess ranProcess).task] at entry_mem
      exact ⟨fun _ _ => ⟨fd, entry_mem, fun _ => own trivial⟩, nofun⟩
  | enter i =>
    obtain ⟨thread, looked, same⟩ := ok_of_bind returned
    cases same
    have before := held.threads thread (List.mem_of_getElem? (Program.thread_iff.mp looked))
    exact held.update rfl ⟨[], rfl⟩ held.owned ⟨before.connected, before.waiting⟩
  | report i nFrames registration infoSent framesSent =>
    obtain ⟨thread, running, listed, busy, ran, rfl⟩ := Program.entered_call_inv returned
    exact held.miWriteStack listed (registered thread listed busy) ran ⟨rfl, rfl⟩
  | sample i nFrames registration infoSent framesSent =>
    obtain ⟨thread, running, listed, timed, alone, ran, rfl⟩ := Program.sample_inv returned
    exact held.miWriteStack listed (registered thread listed timed alone) ran ⟨rfl, rfl⟩
  | exit i registration sent =>
    obtain ⟨thread, running, listed, busy, ran, rfl⟩ := Program.entered_call_inv returned
    obtain ⟨known, alone⟩ := registered thread listed busy
    have before := (held.threads thread (List.mem_of_getElem? listed)).connected known
    obtain ⟨owned, connected⟩ := Running.exitWait_owned held.owned before alone ran
    have left := @Held.resume _ held _ _ { thread with busy := false } _ listed (Running.called_exitWait ran).toAdvanced owned
      (fun _ _ => connected) ⟨rfl, rfl⟩
    rw [Program.miStop_resume]
    exact ⟨left.owned, left.threads⟩
  | fork i registration =>
    obtain ⟨thread, running, listed, busy, ran, rfl⟩ := Program.entered_call_inv returned
    exact held.registered listed (registered thread listed busy) ran
  | vfork i registration childPid connection =>
    obtain ⟨thread, running, listed, busy, ran, rfl⟩ := Program.vfork_inv returned
    have found := held.registered listed (registered thread listed busy) ran
    exact found.vforkChild childPid connection (Program.resume_thread listed _ _) (Running.findThread_clonePid ran)
  | leave i =>
    obtain ⟨thread, task, waiting, listed, waits, rfl⟩ := Program.leave_inv returned
    have before := (held.threads thread (List.mem_of_getElem? listed)).waiting
    rw [waits] at before
    refine held.update rfl ⟨[], rfl⟩ held.owned ⟨fun known _ => ?_, fun older old => before older (List.mem_cons_of_mem _ old)⟩
    obtain ⟨vforked, connected⟩ := before task List.mem_cons_self
    obtain ⟨fd, entry_mem⟩ := connected known
    exact ⟨fd, entry_mem, fun alone => absurd (vforked.symm.trans alone) (by decide)⟩
  | clone i registration childPid =>
    obtain ⟨thread, running, listed, busy, ran, rfl⟩ := Program.clone_inv returned
    have found := held.registered listed (registered thread listed busy) ran
    exact found.addThread _ _ _ fun _ => thread.task.pid.property
  | spawn pid =>
    cases Program.spawn_inv returned
    exact held.addThread pid {} true nofun

/-- A thread of `__clone` connects with its first report; a child of `vfork` has the record of
its parent to itself. -/
theorem run_owned {events : List Event}
    (registered : ∀ earlier event program, earlier ++ [event] <+: events → Program.run earlier = .ok program →
      program.Registered event) :
    ∀ earlier program, earlier <+: events → Program.run earlier = .ok program → Each Owned program.log :=
  fun earlier program before ran =>
    (@foldlM_invariant _ _ _ Program.perform Held Program.Registered {} ⟨trivial, nofun⟩
      (fun _ _ _ held known returned => held.perform known returned) events registered earlier program before ran).owned

theorem run_owned_clone :
    let events : List Event :=
      [.start ⟨1, by decide⟩ {} true (some (.answered 5 (some true))) none, .enter 0,
        .clone 0 .failed ⟨2, by decide⟩, .enter 1, .report 1 3 (.answered 6 (some true)) true true, .enter 0,
        .vfork 0 .failed ⟨3, by decide⟩ (.answered 7 (some true)), .enter 0, .exit 0 .failed true, .leave 0]
    ∃ program, Program.run events = .ok program ∧ program.tasks = 3 ∧ Each Owned program.log := by
  intro events
  exact ⟨_, rfl, rfl, run_owned (forall_steps_iff.mp (by decide)) events _ (List.prefix_refl _) rfl⟩

/-- A thread that is not made by `__clone` of the library writes to descriptor `0`, and
closes it. -/
theorem run_usesForeign : ¬ ∀ events program, Program.run events = .ok program → Each Owned program.log := by
  intro owned
  exact absurd (owned [.start ⟨1, by decide⟩ {} true (some (.answered 5 (some true))) none, .spawn ⟨1, by decide⟩, .enter 1,
    .report 1 3 .failed false false] _ rfl) (by decide)

end Memprof.Descriptors
