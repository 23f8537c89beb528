import Mathlib.Data.List.Basic
import Memprof.Library.Outcome
import Memprof.Tracing

/-! # A forked child and the tracing of its parent

A child of `fork` works on a copy of the library's memory.  A child of `vfork` works on its
parent's: the parent goes on as before exactly if the child registers under the parent's
file descriptor, is never refused, never fails to report and leaves no trace in the counter.
-/

namespace Memprof.Tracing

open Library

/-- What the parent's reports depend on is as it was. -/
def Undisturbed (before after : Memory) : Prop :=
  after.tracing = before.tracing ∧ after.thread.outfd = before.thread.outfd ∧ after.seqno = before.seqno

/-- The server has agreed. -/
def Connection.Accepted (connection : Connection) : Prop := ∃ outfd, connection = .answered outfd (some true)

def Connection.outfd : Connection → ℤ
  | .failed => 0
  | .unsent outfd | .answered outfd _ => outfd

/-- The report gets a number. -/
def Call.Numbered : Call → Prop
  | .report _ _ nFrames _ _ => 0 ≤ nFrames ∧ nFrames ≤ 20000
  | .exit _ | .vforked _ _ _ => False

instance (call : Call) : Decidable call.Numbered := by
  cases call <;> unfold Call.Numbered <;> infer_instance

/-- The call does not end the tracing. -/
def Call.Quiet : Call → Prop
  | .report pid info nFrames registration sent =>
    (Call.report pid info nFrames registration sent).Numbered → sent = true
  | .exit _ => False
  | .vforked _ _ connection => connection.Accepted

/-- The file descriptor that the last connection has left in the thread. -/
def lastOutfd (outfd : ℤ) : List Call → ℤ
  | [] => outfd
  | .vforked _ _ connection :: calls => lastOutfd connection.outfd calls
  | .report _ _ _ _ _ :: calls | .exit _ :: calls => lastOutfd outfd calls

/-! ## The child's calls -/

/-- Tracing never starts again. -/
theorem perform_off (calls : List Call) {memory : Memory} (off : memory.tracing = false) :
    calls.foldl Call.perform memory = memory := by
  induction calls with
  | nil => rfl
  | cons call calls inductionHypothesis =>
    have unchanged : Call.perform memory call = memory := by simp [Call.perform, off]
    rw [List.foldl_cons, unchanged, inductionHypothesis]

theorem findThread_registered {memory : Memory} (registered : memory.thread.clonePid = 0) (registration : Connection) :
    findThread memory registration = .ok memory := by
  simp [findThread, registered]

/-- A connection for a new process. -/
theorem newProcess_spec (memory : Memory) (childPid : Pid) (connection : Connection) :
    ((left (newProcess memory (some childPid) connection)).tracing = true ↔
      memory.tracing = true ∧ connection.Accepted) ∧
    (connection.Accepted → left (newProcess memory (some childPid) connection) =
      setOutfd memory (some childPid) connection.outfd) := by
  cases connection with
  | failed => simp [newProcess, left, Connection.Accepted]
  | unsent outfd => simp [newProcess, left, stopTracing, Connection.Accepted]
  | answered outfd response =>
    by_cases agreed : response = some true
    · simp [newProcess, left, agreed, Connection.Accepted, Connection.outfd, setOutfd]
    · simp [newProcess, left, agreed, stopTracing, Connection.Accepted]

/-- A thread that traces and has connected. -/
structure Active (memory : Memory) : Prop where
  tracing : memory.tracing = true
  registered : memory.thread.clonePid = 0

/-- One call: the tracing ends, or the counter and the file descriptor say what was done. -/
theorem perform_spec {memory : Memory} (active : Active memory) (call : Call) :
    ((Call.perform memory call).tracing = true ↔ call.Quiet) ∧
    (call.Quiet → Active (Call.perform memory call) ∧
      (Call.perform memory call).thread.outfd = lastOutfd memory.thread.outfd [call] ∧
      (Call.perform memory call).seqno = memory.seqno + if call.Numbered then 1 else 0) := by
  obtain ⟨tracing, registered⟩ := active
  cases call with
  | report pid info nFrames registration sent =>
    by_cases numbered : 0 ≤ nFrames ∧ nFrames ≤ 20000
    · have written : miWriteStack memory pid info nFrames registration sent =
          .ok (if sent then { memory with seqno := memory.seqno + 1 }
            else stopTracing { memory with seqno := memory.seqno + 1 }) := by
        have inRange : ¬(nFrames < 0 ∨ 20000 < nFrames) := by omega
        have found : findThread { memory with seqno := memory.seqno + 1 } registration =
            .ok { memory with seqno := memory.seqno + 1 } :=
          @findThread_registered { memory with seqno := memory.seqno + 1 } registered registration
        rw [miWriteStack, numberReport, if_neg inRange]
        simp only [found, ok_bind]
      rw [Call.perform, if_pos tracing]
      simp only [written, left, Call.Quiet, Call.Numbered, numbered, and_self, if_true, forall_true_left]
      -- The number is used up whether or not the report gets through.
      cases sent with
      | true => exact ⟨iff_of_true tracing rfl, fun _ => ⟨⟨tracing, registered⟩, rfl, rfl⟩⟩
      | false => exact ⟨iff_of_false (by simp [stopTracing]) (by simp), fun never => by cases never⟩
    · -- A trace that is taken to be bogus is dropped.
      have dropped : miWriteStack memory pid info nFrames registration sent = .ok memory := by
        have outOfRange : nFrames < 0 ∨ 20000 < nFrames := by omega
        rw [miWriteStack, numberReport, if_pos outOfRange]
      have quiet : (Call.report pid info nFrames registration sent).Quiet := fun isNumbered =>
        absurd isNumbered numbered
      rw [Call.perform, if_pos tracing]
      simp only [dropped, left, Call.Numbered, numbered, if_false, UInt32.add_zero]
      exact ⟨iff_of_true tracing quiet, fun _ => ⟨⟨tracing, registered⟩, rfl, trivial⟩⟩
  | exit registration =>
    rw [Call.perform, if_pos tracing]
    -- `tracing` is off afterwards, and the memory is the parent's too.
    exact ⟨iff_of_false (by simp) id, fun never => never.elim⟩
  | vforked childPid registration connection =>
    have spec := newProcess_spec memory childPid connection
    rw [Call.perform, if_pos tracing]
    simp only [findThread_registered registered, ok_bind]
    -- The process made by `vfork` starts in the same memory, whose thread it registers anew.
    refine ⟨spec.1.trans (and_iff_right tracing), fun accepted => ?_⟩
    rw [spec.2 accepted]
    exact ⟨⟨tracing, rfl⟩, rfl, by simp [Call.Numbered, setOutfd]⟩

theorem lastOutfd_cons (outfd : ℤ) (call : Call) (calls : List Call) :
    lastOutfd outfd (call :: calls) = lastOutfd (lastOutfd outfd [call]) calls := by
  cases call <;> rfl

/-- The whole run. -/
theorem run_spec {memory : Memory} (active : Active memory) (calls : List Call) :
    ((calls.foldl Call.perform memory).tracing = true ↔ ∀ call ∈ calls, call.Quiet) ∧
    ((∀ call ∈ calls, call.Quiet) →
      (calls.foldl Call.perform memory).thread.outfd = lastOutfd memory.thread.outfd calls ∧
      (calls.foldl Call.perform memory).seqno = memory.seqno + UInt32.ofNat (calls.countP fun call => call.Numbered)) := by
  induction calls generalizing memory with
  | nil => exact ⟨by simp [active.tracing], fun _ => ⟨rfl, by simp⟩⟩
  | cons call calls inductionHypothesis =>
    obtain ⟨goesOn, after⟩ := perform_spec active call
    rw [List.foldl_cons]
    by_cases quiet : call.Quiet
    · obtain ⟨activeAfter, outfd, seqno⟩ := after quiet
      obtain ⟨goesOnLater, afterLater⟩ := inductionHypothesis activeAfter
      refine ⟨goesOnLater.trans (by simp [quiet]), fun all => ?_⟩
      obtain ⟨outfdLater, seqnoLater⟩ := afterLater fun other member => all other (List.mem_cons_of_mem _ member)
      refine ⟨by rw [outfdLater, outfd, ← lastOutfd_cons], ?_⟩
      rw [seqnoLater, seqno, List.countP_cons]
      by_cases numbered : call.Numbered
      · simp [numbered, UInt32.ofNat_add, UInt32.add_assoc, UInt32.add_comm]
      · simp [numbered]
    · have off : (Call.perform memory call).tracing = false := by
        rw [← Bool.not_eq_true, goesOn]
        exact quiet
      rw [perform_off calls off]
      refine ⟨iff_of_false (by simp [off]) (by simp [quiet]), fun all => ?_⟩
      exact absurd (all call (by simp)) quiet

/-! ## Back in the parent -/

/-- The calls of the child leave nothing behind in memory they share with the parent. -/
structure Traceless (outfd : ℤ) (connection : Connection) (calls : List Call) : Prop where
  accepted : connection.Accepted
  quiet : ∀ call ∈ calls, call.Quiet
  numbered : (calls.countP fun call => call.Numbered) % 2 ^ 32 = 0
  outfd : lastOutfd connection.outfd calls = outfd

/-- A child that runs in the memory of its parent. -/
theorem shared_undisturbed_iff {memory registered : Memory} (active : Active registered)
    (tracing : memory.tracing = true) (seqno : registered.seqno = memory.seqno) (childPid : Pid)
    (connection : Connection) (calls : List Call) :
    Undisturbed memory (calls.foldl Call.perform (left (newProcess registered (some childPid) connection))) ↔
      Traceless memory.thread.outfd connection calls := by
  obtain ⟨goesOn, made⟩ := newProcess_spec registered childPid connection
  by_cases accepted : connection.Accepted
  · rw [made accepted]
    have activeChild : Active (setOutfd registered (some childPid) connection.outfd) := ⟨active.tracing, rfl⟩
    obtain ⟨goesOnLater, after⟩ := run_spec activeChild calls
    have seqnoChild : (setOutfd registered (some childPid) connection.outfd).seqno = memory.seqno := seqno
    have outfdChild : (setOutfd registered (some childPid) connection.outfd).thread.outfd = connection.outfd := rfl
    constructor
    · rintro ⟨sameTracing, sameOutfd, sameSeqno⟩
      have quiet := goesOnLater.mp (sameTracing.trans tracing)
      obtain ⟨outfd, counted⟩ := after quiet
      rw [counted, seqnoChild] at sameSeqno
      -- The counter is back where it was only after a multiple of its range.
      have none : UInt32.ofNat (calls.countP fun call => call.Numbered) = 0 := by simpa using sameSeqno
      refine ⟨accepted, quiet, ?_, ?_⟩
      · have zero := congrArg UInt32.toNat none
        simpa using zero
      · rw [← sameOutfd, outfd, outfdChild]
    · rintro ⟨_, quiet, numbered, outfd⟩
      obtain ⟨outfdLater, counted⟩ := after quiet
      refine ⟨(goesOnLater.mpr quiet).trans tracing.symm, by rw [outfdLater, outfdChild, outfd], ?_⟩
      have none : UInt32.ofNat (calls.countP fun call => call.Numbered) = 0 := by
        rw [← UInt32.toNat_inj]
        simpa using numbered
      rw [counted, seqnoChild, none, UInt32.add_zero]
  -- A connection that is not accepted turns tracing off, and nothing turns it on again.
  · have off : (left (newProcess registered (some childPid) connection)).tracing = false := by
      rw [← Bool.not_eq_true, goesOn]
      exact fun both => accepted both.2
    rw [perform_off calls off]
    refine iff_of_false ?_ fun traceless => accepted traceless.accepted
    rintro ⟨sameTracing, _⟩
    rw [off, tracing] at sameTracing
    cases sameTracing

/-- What the parent's own registration does, when the call goes on. -/
theorem findThread_spec {memory registered : Memory} {registration : Connection} (tracing : memory.tracing = true)
    (found : findThread memory registration = .ok registered) :
    registered.seqno = memory.seqno ∧ registered.thread.clonePid = 0 ∧
      (registered.tracing = true ↔ memory.thread.clonePid = 0 ∨ registration.Accepted) ∧
      (registered.thread.outfd = if memory.thread.clonePid = 0 then memory.thread.outfd else registration.outfd) := by
  unfold findThread at found
  split at found
  next unregistered =>
    obtain ⟨middle, connected, found⟩ := ok_of_bind found
    cases found
    cases registration with
    | failed => cases connected
    | unsent outfd =>
      cases connected
      exact ⟨rfl, rfl, by simp [stopTracing, unregistered, Connection.Accepted],
        by simp [unregistered, setOutfd, stopTracing, Connection.outfd]⟩
    | answered outfd response =>
      by_cases agreed : response = some true
      · rw [newProcess, if_pos agreed] at connected
        cases connected
        exact ⟨rfl, rfl, by simp [setOutfd, tracing, agreed, Connection.Accepted],
          by simp [unregistered, setOutfd, Connection.outfd]⟩
      · rw [newProcess, if_neg agreed] at connected
        cases connected
        exact ⟨rfl, rfl, by simp [stopTracing, unregistered, agreed, Connection.Accepted],
          by simp [unregistered, setOutfd, stopTracing, Connection.outfd]⟩
  next settled =>
    rw [not_not] at settled
    cases found
    exact ⟨rfl, settled, by simp [tracing, settled], by simp [settled]⟩

/-- A child that has a memory of its own: what is left is the parent's own registration. -/
theorem registered_undisturbed_iff {memory registered : Memory} {registration : Connection}
    (tracing : memory.tracing = true) (found : findThread memory registration = .ok registered) :
    Undisturbed memory registered ↔ (memory.thread.clonePid = 0 ∨ registration.Accepted) ∧
      (memory.thread.clonePid = 0 ∨ registration.outfd = memory.thread.outfd) := by
  obtain ⟨seqno, _, goesOn, outfd⟩ := findThread_spec tracing found
  rw [← goesOn]
  simp only [Undisturbed, tracing, seqno, and_true, outfd]
  refine and_congr_right fun _ => ?_
  split
  next was => simp [was]
  next was => simp [was]

theorem vforked_undisturbed_iff {memory registered : Memory} {registration : Connection}
    (tracing : memory.tracing = true) (found : findThread memory registration = .ok registered) (childPid : Pid)
    (connection : Connection)
    (calls : List Call) :
    Undisturbed memory (calls.foldl Call.perform (left (newProcess registered (some childPid) connection))) ↔
      (memory.thread.clonePid = 0 ∨ registration.Accepted) ∧ Traceless memory.thread.outfd connection calls := by
  obtain ⟨seqno, settled, goesOn, _⟩ := findThread_spec tracing found
  rw [← goesOn]
  by_cases goes : registered.tracing = true
  · rw [and_iff_right goes]
    exact shared_undisturbed_iff ⟨goes, settled⟩ tracing seqno childPid connection calls
  · -- The parent itself has been refused, and nothing turns the tracing on again.
    have off : (left (newProcess registered (some childPid) connection)).tracing = false := by
      rw [← Bool.not_eq_true, (newProcess_spec registered childPid connection).1]
      exact fun both => goes both.1
    rw [perform_off calls off]
    refine iff_of_false ?_ fun both => goes both.1
    rintro ⟨sameTracing, _⟩
    rw [off, tracing] at sameTracing
    cases sameTracing

/-- When the parent's tracing is what it was: nothing was traced, or the thread had
connected, or does so now as it should, and the child has a memory of its own or is traceless. -/
def Undisturbing (kind : ForkKind) (memory : Memory) (registration connection : Connection)
    (calls : List Call) : Prop :=
  memory.tracing = false ∨
    (memory.thread.clonePid = 0 ∨ registration.Accepted) ∧
      match kind with
      | .fork => memory.thread.clonePid = 0 ∨ registration.outfd = memory.thread.outfd
      | .vfork => Traceless memory.thread.outfd connection calls

/-- For every state of the library, every answer of the server and everything the child can
do: the parent finds its tracing as it was exactly under these conditions. -/
theorem fork_undisturbed_iff {kind : ForkKind} {memory after : Memory} {childPid : Pid}
    {registration connection : Connection} {calls : List Call}
    (returned : kind.parentMemory memory childPid registration connection calls = .ok after) :
    Undisturbed memory after ↔ Undisturbing kind memory registration connection calls := by
  cases tracing : memory.tracing with
  | false =>
    -- Without tracing neither call does anything of its own.
    have unchanged : after = memory := by
      cases kind with
      | fork =>
        simp only [ForkKind.parentMemory, fork, tracing] at returned
        exact (Except.ok.inj returned).symm
      | vfork =>
        simp only [ForkKind.parentMemory, vfork, tracing, perform_off calls tracing] at returned
        exact (Except.ok.inj returned).symm
    rw [unchanged]
    exact iff_of_true ⟨rfl, rfl, rfl⟩ (.inl tracing)
  | true =>
    simp only [Undisturbing, tracing, Bool.true_eq_false, false_or]
    cases kind with
    | fork =>
      obtain ⟨result, forked, rfl⟩ := ok_of_map returned
      rw [fork, if_pos tracing] at forked
      obtain ⟨registered, found, forked⟩ := ok_of_bind forked
      cases forked
      -- The parent's memory is what `find_thread` has left.
      exact registered_undisturbed_iff tracing found
    | vfork =>
      rw [ForkKind.parentMemory, vfork, if_pos tracing] at returned
      obtain ⟨registered, found, returned⟩ := ok_of_bind returned
      cases returned
      exact vforked_undisturbed_iff tracing found childPid connection calls

theorem lastOutfd_ne {outfd start : ℤ} {calls : List Call} (first : start ≠ outfd)
    (others : ∀ childPid registration connection, Call.vforked childPid registration connection ∈ calls →
      connection.outfd ≠ outfd) : lastOutfd start calls ≠ outfd := by
  induction calls generalizing start with
  | nil => exact first
  | cons call calls inductionHypothesis =>
    have rest : ∀ childPid registration connection, Call.vforked childPid registration connection ∈ calls →
        connection.outfd ≠ outfd := fun childPid registration connection member =>
      others childPid registration connection (List.mem_cons_of_mem _ member)
    cases call with
    | report _ _ _ _ _ | exit _ => exact inductionHypothesis first rest
    | vforked childPid registration connection =>
      exact inductionHypothesis (others childPid registration connection (by simp)) rest

/-- The parent's descriptor is open in the child, so that a socket made there gets another
one: a `vfork` that is traced always disturbs. -/
theorem vfork_disturbs_open {memory after : Memory} {childPid : Pid} {registration connection : Connection}
    {calls : List Call} (tracing : memory.tracing = true) (fresh : connection.outfd ≠ memory.thread.outfd)
    (others : ∀ childPid registration connection, Call.vforked childPid registration connection ∈ calls →
      connection.outfd ≠ memory.thread.outfd)
    (returned : vfork memory childPid registration connection calls = .ok after) : ¬Undisturbed memory after := by
  rw [vfork, if_pos tracing] at returned
  obtain ⟨registered, found, returned⟩ := ok_of_bind returned
  cases returned
  rw [vforked_undisturbed_iff tracing found]
  exact fun both => lastOutfd_ne fresh others both.2.outfd

/-- A thread that traces on descriptor 3. -/
def onThree : Memory := { seqno := 7, thread := { pid := 100, outfd := 3 } }

theorem fork_undisturbed_iff_forked :
    Undisturbed onThree onThree ↔ Undisturbing .fork onThree .failed (.answered 4 (some true))
      [.report 101 { operation := .malloc } 5 .failed true, .exit .failed] :=
  @fork_undisturbed_iff .fork onThree onThree 101 .failed (.answered 4 (some true))
    [.report 101 { operation := .malloc } 5 .failed true, .exit .failed] rfl

/-- A child of `vfork` that is accepted and allocates moves the descriptor and the counter
of its parent, one that is refused ends its tracing. -/
theorem vfork_disturbs :
    (∃ after, ForkKind.vfork.parentMemory onThree 101 .failed (.answered 4 (some true))
        [.report 101 { operation := .malloc } 5 .failed true] = .ok after ∧
      after.tracing = true ∧ after.thread.outfd = 4 ∧ after.seqno = 8 ∧ ¬Undisturbed onThree after) ∧
    ∃ after, ForkKind.vfork.parentMemory onThree 101 .failed (.answered 4 (some false)) [] = .ok after ∧
      after.tracing = false ∧ ¬Undisturbed onThree after := by
  refine ⟨⟨_, rfl, rfl, rfl, rfl, ?_⟩, ⟨_, rfl, rfl, ?_⟩⟩
  · rintro ⟨_, outfd, _⟩
    exact absurd outfd (by decide)
  · rintro ⟨tracing, _⟩
    cases tracing

end Memprof.Tracing
