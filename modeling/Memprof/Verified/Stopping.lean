import Memprof.Stopping
import Memprof.Verified.Reports

/-! # Letting the target go

`leaks_find` gives back what it took on none of its ways out: if the memory cannot be opened
the clones stay stopped, the target stays attached, and otherwise the descriptor is closed
twice.  So it lets the target go exactly if it has taken nothing.  The references to the
blocks are balanced on both ways.
-/

namespace Memprof.Stopping

open Library Delivery Accounting

/-! ## The property -/

/-- What a call of `leaks_find` that returns owes: each signal is followed by its counterpart,
what it opened it closed once, and each reference that it keeps is that of a block of the result. -/
structure LetsGo (world later : World) (result : List BlockId) (log : Log) : Prop where
  continued : ∀ clone before after, log.events = before ++ .stop clone :: after → .cont clone ∈ after
  detached : ∀ before after, log.events = before ++ .attach :: after → .detach ∈ after
  closed : ∀ file, .open file ∈ log.events → log.events.count (.close file) = 1
  released : ∀ b < world.blocks.size, later.blocks.refs b = world.blocks.refs b + result.count b

/-- A file that `read_proc_stat` opens and cannot parse. -/
def Unparsed (file : Option CString) : Prop := file.isSome = true ∧ readProcStat file = none

instance (file : Option CString) : Decidable (Unparsed file) := inferInstanceAs (Decidable (_ ∧ _))

/-- The last file that the loop looks at can be parsed, if it can be opened. -/
def Parsed (files : List (Option CString)) : Prop := ∀ file, files.find? (!waits ·) = some file → ¬ Unparsed file

/-- Nothing is taken: neither the attachment nor a signal comes off, and `/proc/PID/mem`
cannot be opened; what else is opened is closed by its reader. -/
structure TakesNothing (outcomes : Outcomes) (clones : List ProcId) : Prop where
  unattached : outcomes.attaches = false
  unopened : outcomes.opensMem = false
  each : ∀ i < clones.length, outcomes.stops i = false ∧ Parsed (outcomes.polls i)

/-! ## What is added to the log -/

def Adds (allowed : Event → Prop) (log later : Log) : Prop :=
  ∃ added, later.events = log.events ++ added ∧ ∀ event ∈ added, allowed event

theorem Adds.refl (allowed : Event → Prop) (log : Log) : Adds allowed log log := ⟨[], by simp, by simp⟩

theorem Adds.trans {allowed : Event → Prop} {first second third : Log} (left : Adds allowed first second)
    (right : Adds allowed second third) : Adds allowed first third := by
  obtain ⟨added, grown, every⟩ := left
  obtain ⟨more, grown', every'⟩ := right
  refine ⟨added ++ more, by rw [grown', grown, List.append_assoc], fun event member => ?_⟩
  exact (List.mem_append.mp member).elim (every event) (every' event)

theorem Adds.imp {allowed also : Event → Prop} {log later : Log} (adds : Adds allowed log later)
    (weaker : ∀ event, allowed event → also event) : Adds also log later := by
  obtain ⟨added, grown, every⟩ := adds
  exact ⟨added, grown, fun event member => weaker event (every event member)⟩

/-- What is in the log stays there, as often as it was. -/
theorem Adds.count_le {allowed : Event → Prop} {log later : Log} (adds : Adds allowed log later) (event : Event) :
    log.events.count event ≤ later.events.count event := by
  obtain ⟨added, grown, _⟩ := adds
  rw [grown, List.count_append]
  exact Nat.le_add_right _ _

theorem Adds.mem {allowed : Event → Prop} {log later : Log} (adds : Adds allowed log later) {event : Event}
    (member : event ∈ log.events) : event ∈ later.events :=
  List.count_pos_iff.mp (Nat.lt_of_lt_of_le (List.count_pos_iff.mpr member) (adds.count_le event))

theorem adds_note {allowed : Event → Prop} {event : Event} (permitted : allowed event) (log : Log) :
    Adds allowed log (log.note event) :=
  ⟨[event], rfl, fun _ member => List.mem_singleton.mp member ▸ permitted⟩

theorem adds_noteIf {allowed : Event → Prop} {event : Event} (permitted : allowed event) (log : Log) (done : Bool) :
    Adds allowed log (log.noteIf done event) := by
  unfold Log.noteIf
  split
  next => exact adds_note permitted log
  next => exact Adds.refl allowed log

def IsFile : Event → Prop
  | .open _ | .close _ => True
  | .attach | .detach | .stop _ | .cont _ => False

theorem adds_openFile (log : Log) : Adds IsFile log log.openFile.1 :=
  ⟨[.open log.files], rfl, fun _ member => List.mem_singleton.mp member ▸ trivial⟩

theorem adds_readStatFile (log : Log) (file : Option CString) : Adds IsFile log (readStatFile log file) := by
  unfold readStatFile
  split
  next => exact Adds.refl _ log
  next =>
    dsimp only
    split
    next => exact adds_openFile log
    next => exact (adds_openFile log).trans (adds_note trivial _)

theorem adds_readStatFiles (files : List (Option CString)) (log : Log) :
    Adds IsFile log (files.foldl readStatFile log) := by
  induction files generalizing log with
  | nil => exact Adds.refl _ log
  | cons file files inductionHypothesis => exact (adds_readStatFile log file).trans (inductionHypothesis _)

theorem adds_readStackMaps (outcomes : Outcomes) (log : Log) : Adds IsFile log (readStackMaps outcomes log) := by
  unfold readStackMaps
  split
  next => exact (adds_openFile log).trans (adds_note trivial _)
  next => exact Adds.refl _ log

theorem adds_waitLoop {files : List (Option CString)} {log later : Log} (ran : waitLoop log files = .ok later) :
    Adds IsFile log later := by
  induction files generalizing log with
  | nil => cases ran
  | cons file files inductionHypothesis =>
    rw [waitLoop] at ran
    split at ran
    next => exact (adds_readStatFile log file).trans (inductionHypothesis ran)
    next =>
      cases ran
      exact adds_readStatFile log file

/-- What the loop that stops the clones may add. -/
def StopsOne (clones : List ProcId) (event : Event) : Prop := IsFile event ∨ ∃ clone ∈ clones, event = .stop clone

theorem adds_stopClones {outcomes : Outcomes} {clones : List ProcId} {i : ℕ} {log later : Log}
    (ran : stopClones outcomes i clones log = .ok later) : Adds (StopsOne clones) log later := by
  induction clones generalizing i log with
  | nil =>
    cases ran
    exact Adds.refl _ _
  | cons clone clones inductionHypothesis =>
    rw [stopClones] at ran
    obtain ⟨waited, looped, rest⟩ := ok_of_bind ran
    have stopped : Adds (StopsOne (clone :: clones)) log (log.noteIf (outcomes.stops i) (.stop clone)) :=
      adds_noteIf (.inr ⟨clone, by simp, rfl⟩) log _
    refine (stopped.trans ((adds_waitLoop looped).imp fun _ => .inl)).trans ((inductionHypothesis rest).imp ?_)
    rintro event (file | ⟨other, member, rfl⟩)
    · exact .inl file
    · exact .inr ⟨other, by simp [member], rfl⟩

def IsCont (event : Event) : Prop := ∃ clone, event = .cont clone

theorem adds_continueClones (outcomes : Outcomes) (clones : List ProcId) (i : ℕ) (log : Log) :
    Adds IsCont log (continueClones outcomes i clones log) := by
  induction clones generalizing i log with
  | nil => exact Adds.refl _ log
  | cons clone clones inductionHypothesis => exact (adds_noteIf ⟨clone, rfl⟩ log _).trans (inductionHypothesis _ _)

/-! ## Files that are closed, and nothing else taken -/

/-- Files that have not been opened are not in the log. -/
def Fresh (log : Log) : Prop := ∀ file, log.files ≤ file → .open file ∉ log.events ∧ .close file ∉ log.events

/-- Nothing is left of what the log shows. -/
structure Clean (log : Log) : Prop where
  closed : ∀ file, .open file ∈ log.events → log.events.count (.close file) = 1
  unstopped : ∀ clone, .stop clone ∉ log.events
  unattached : .attach ∉ log.events

theorem fresh_stop {log : Log} (fresh : Fresh log) (done : Bool) (clone : ProcId) :
    Fresh (log.noteIf done (.stop clone)) := by
  unfold Log.noteIf
  split
  next => exact fun file new => by simpa [Log.note] using fresh file new
  next => exact fresh

theorem clean_stop_iff (log : Log) (done : Bool) (clone : ProcId) :
    Clean (log.noteIf done (.stop clone)) ↔ Clean log ∧ done = false := by
  unfold Log.noteIf
  cases done with
  | false => exact (and_iff_left rfl).symm
  | true =>
    refine iff_of_false (fun clean => clean.unstopped clone ?_) fun both => Bool.noConfusion both.2
    exact List.mem_append_right _ (List.mem_singleton_self _)

theorem fresh_openFile {log : Log} (fresh : Fresh log) : Fresh log.openFile.1 := by
  intro file new
  have later : log.files < file := new
  obtain ⟨unopened, unclosed⟩ := fresh file later.le
  simp [Log.openFile, unopened, unclosed, later.ne']

theorem fresh_close {log : Log} (fresh : Fresh log) {file : ℕ} (opened : file < log.files) :
    Fresh (log.note (.close file)) := by
  intro other new
  have later : other ≠ file := (opened.trans_le new).ne'
  simpa [Log.note, later] using fresh other new

/-- A file that is opened is closed only by what comes after. -/
theorem not_clean_openFile {log : Log} (fresh : Fresh log) : ¬ Clean log.openFile.1 := by
  intro clean
  have once := clean.closed log.files (by simp [Log.openFile])
  have never : Event.close log.files ∉ log.openFile.1.events := by
    simpa [Log.openFile] using (fresh log.files (Nat.le_refl _)).2
  rw [List.count_eq_zero_of_not_mem never] at once
  cases once

theorem clean_openClose_iff {log : Log} (fresh : Fresh log) :
    Clean (log.openFile.1.note (.close log.files)) ↔ Clean log := by
  obtain ⟨unopened, unclosed⟩ := fresh log.files (Nat.le_refl _)
  have events : (log.openFile.1.note (.close log.files)).events =
      log.events ++ [.open log.files, .close log.files] := by
    simp [Log.openFile, Log.note]
  have counted : ∀ file, (log.events ++ [Event.open log.files, .close log.files]).count (.close file) =
      log.events.count (.close file) + if file = log.files then 1 else 0 := by
    intro file
    rw [List.count_append]
    by_cases same : file = log.files
    · simp [same]
    · simp [same, Ne.symm same]
  constructor
  · intro clean
    refine ⟨fun file opened => ?_, fun clone member => clean.unstopped clone ?_, fun member => clean.unattached ?_⟩
    · have other : file ≠ log.files := fun same => unopened (same ▸ opened)
      have once := clean.closed file (by rw [events]; simp [opened])
      rw [events, counted, if_neg other] at once
      exact once
    · rw [events]
      simp [member]
    · rw [events]
      simp [member]
  · intro clean
    refine ⟨fun file opened => ?_, fun clone member => ?_, fun member => ?_⟩
    · rw [events] at opened ⊢
      rw [counted]
      by_cases same : file = log.files
      · rw [if_pos same, same, List.count_eq_zero_of_not_mem unclosed]
      · rw [if_neg same, clean.closed file (by simpa [same] using opened)]
    · rw [events] at member
      exact clean.unstopped clone (by simpa using member)
    · rw [events] at member
      exact clean.unattached (by simpa using member)

/-- One look at a file. -/
theorem readStatFile_clean {log : Log} (fresh : Fresh log) (file : Option CString) :
    Fresh (readStatFile log file) ∧ (Clean (readStatFile log file) ↔ Clean log ∧ ¬ Unparsed file) := by
  unfold readStatFile Unparsed
  cases file with
  | none => exact ⟨fresh, by simp⟩
  | some contents =>
    dsimp only
    cases readProcStat (some contents) with
    | none => exact ⟨fresh_openFile fresh, iff_of_false (not_clean_openFile fresh) (by simp)⟩
    | some stat =>
      refine ⟨fresh_close (fresh_openFile fresh) (Nat.lt_succ_self _), ?_⟩
      exact (clean_openClose_iff fresh).trans (by simp)

/-- While the loop waits it reads what it looks at: a file that is not parsed ends it. -/
theorem not_unparsed_of_waits {file : Option CString} (waiting : waits file = true) : ¬ Unparsed file := by
  rintro ⟨_, unparsed⟩
  rw [waits, processStatus, unparsed] at waiting
  exact absurd waiting (by decide)

theorem waitLoop_clean {files : List (Option CString)} {log later : Log} (ran : waitLoop log files = .ok later)
    (fresh : Fresh log) : Fresh later ∧ (Clean later ↔ Clean log ∧ Parsed files) := by
  induction files generalizing log with
  | nil => cases ran
  | cons file files inductionHypothesis =>
    obtain ⟨freshRead, cleanRead⟩ := readStatFile_clean fresh file
    rw [waitLoop] at ran
    split at ran
    next waiting =>
      obtain ⟨freshLater, cleanLater⟩ := inductionHypothesis ran freshRead
      refine ⟨freshLater, cleanLater.trans ?_⟩
      have skipped : (file :: files).find? (!waits ·) = files.find? (!waits ·) := by simp [waiting]
      rw [cleanRead, and_iff_left (not_unparsed_of_waits waiting), Parsed, Parsed, skipped]
    next stopped =>
      cases ran
      refine ⟨freshRead, cleanRead.trans ?_⟩
      have found : (file :: files).find? (!waits ·) = some file := by simp [stopped]
      simp [Parsed, found]

theorem stopClones_clean {outcomes : Outcomes} {clones : List ProcId} {i : ℕ} {log later : Log}
    (ran : stopClones outcomes i clones log = .ok later) (fresh : Fresh log) :
    Fresh later ∧ (Clean later ↔ Clean log ∧
      ∀ k < clones.length, outcomes.stops (i + k) = false ∧ Parsed (outcomes.polls (i + k))) := by
  induction clones generalizing i log with
  | nil =>
    cases ran
    exact ⟨fresh, by simp⟩
  | cons clone clones inductionHypothesis =>
    rw [stopClones] at ran
    obtain ⟨waited, looped, rest⟩ := ok_of_bind ran
    obtain ⟨freshWaited, cleanWaited⟩ := waitLoop_clean looped (fresh_stop fresh _ clone)
    obtain ⟨freshLater, cleanLater⟩ := inductionHypothesis rest freshWaited
    refine ⟨freshLater, ?_⟩
    rw [cleanLater, cleanWaited, clean_stop_iff, and_assoc, and_assoc]
    refine and_congr_right fun _ => ?_
    constructor
    · rintro ⟨unstopped, parsed, others⟩ k inside
      cases k with
      | zero => exact ⟨unstopped, parsed⟩
      | succ k =>
        rw [← Nat.add_assoc, Nat.add_right_comm]
        exact others k (Nat.lt_of_succ_lt_succ inside)
    · intro all
      obtain ⟨unstopped, parsed⟩ := all 0 (Nat.zero_lt_succ _)
      refine ⟨unstopped, parsed, fun k inside => ?_⟩
      rw [Nat.add_right_comm, Nat.add_assoc]
      exact all (k + 1) (Nat.succ_lt_succ inside)

theorem fresh_start (attached : Bool) : Fresh (Log.noteIf {} attached .attach) := by
  intro file _
  cases attached <;> simp [Log.noteIf, Log.note]

theorem clean_start_iff (attached : Bool) : Clean (Log.noteIf {} attached .attach) ↔ attached = false := by
  cases attached with
  | false => exact iff_of_true ⟨by simp [Log.noteIf], by simp [Log.noteIf], by simp [Log.noteIf]⟩ rfl
  | true => exact iff_of_false (fun clean => clean.unattached (by simp [Log.noteIf, Log.note])) Bool.noConfusion

/-! ## The two ways out -/

section

variable {outcomes : Outcomes} {fuel : ℕ} {world later : World} {p : ProcId} {clones : List ProcId}
  {result : List BlockId} {log : Log}

/-- What is in the log when `/proc/PID/mem` is opened. -/
theorem adds_stopped {stopped : Log}
    (ran : stopClones outcomes 0 clones (Log.noteIf {} outcomes.attaches .attach) = .ok stopped) :
    ∀ event ∈ stopped.events, event = .attach ∨ StopsOne clones event := by
  obtain ⟨added, grown, every⟩ := adds_stopClones ran
  intro event member
  rw [grown] at member
  rcases List.mem_append.mp member with first | more
  · refine .inl ?_
    revert first
    cases outcomes.attaches <;> simp [Log.noteIf, Log.note]
  · exact .inr (every event more)

/-- Until then nothing is given back. -/
theorem unsent_stopped {stopped : Log}
    (ran : stopClones outcomes 0 clones (Log.noteIf {} outcomes.attaches .attach) = .ok stopped) (clone : ProcId) :
    .cont clone ∉ stopped.events := by
  intro member
  rcases adds_stopped ran _ member with same | file | ⟨_, _, same⟩
  · cases same
  · exact file
  · cases same

theorem undetached_stopped {stopped : Log}
    (ran : stopClones outcomes 0 clones (Log.noteIf {} outcomes.attaches .attach) = .ok stopped) :
    .detach ∉ stopped.events := by
  intro member
  rcases adds_stopped ran _ member with same | file | ⟨_, _, same⟩
  · cases same
  · exact file
  · cases same

/-- Where nothing is given back, the target is let go exactly if the log is clean. -/
theorem letsGo_of_unopened (unsent : ∀ clone, .cont clone ∉ log.events) (undetached : .detach ∉ log.events) :
    LetsGo world world [] log ↔ Clean log := by
  constructor
  · intro goes
    refine ⟨goes.closed, fun clone member => ?_, fun member => ?_⟩
    · obtain ⟨before, after, split⟩ := List.append_of_mem member
      have sent := goes.continued clone before after split
      exact unsent clone (by simp [split, sent])
    · obtain ⟨before, after, split⟩ := List.append_of_mem member
      have detached := goes.detached before after split
      exact undetached (by simp [split, detached])
  · intro clean
    refine ⟨fun clone before after split => ?_, fun before after split => ?_, clean.closed, fun b _ => by simp⟩
    · exact absurd (by simp [split]) (clean.unstopped clone)
    · exact absurd (by simp [split]) clean.unattached

/-- If it cannot be opened, nothing is given back. -/
theorem unopened_returns (listed : world.mpServerGetProcessClones p = .ok clones) (unopened : outcomes.opensMem = false)
    (returned : leaksFind outcomes fuel world p = .ok (later, result, log)) :
    later = world ∧ result = [] ∧
      stopClones outcomes 0 clones (Log.noteIf {} outcomes.attaches .attach) = .ok log := by
  rw [leaksFind, listed, ok_bind] at returned
  obtain ⟨stopped, ran, rest⟩ := ok_of_bind returned
  rw [unopened, if_pos Bool.false_ne_true] at rest
  cases rest
  exact ⟨rfl, rfl, ran⟩

/-- If it can, the search is made between the two loops over the clones. -/
theorem opened_returns (listed : world.mpServerGetProcessClones p = .ok clones) (opened : outcomes.opensMem = true)
    (returned : leaksFind outcomes fuel world p = .ok (later, result, log)) :
    ∃ stopped searched : Log, stopClones outcomes 0 clones (Log.noteIf {} outcomes.attaches .attach) = .ok stopped ∧
      Adds IsFile stopped.openFile.1 searched ∧
      Memprof.leaksFind fuel world p (stoppedTarget outcomes clones) = .ok (later, result) ∧
      log = ((continueClones outcomes 0 clones (searched.note (.close stopped.files))).note
        (.close stopped.files)).noteIf outcomes.detaches .detach := by
  rw [leaksFind, listed, ok_bind] at returned
  obtain ⟨stopped, ran, rest⟩ := ok_of_bind returned
  rw [opened, if_neg (not_not.mpr rfl)] at rest
  obtain ⟨⟨world', result'⟩, searched, returned⟩ := ok_of_bind rest
  cases returned
  exact ⟨stopped, _, ran, (adds_readStackMaps outcomes _).trans (adds_readStatFiles _ _), searched, rfl⟩

/-- The descriptor is closed twice. -/
theorem opened_closes_twice (listed : world.mpServerGetProcessClones p = .ok clones) (opened : outcomes.opensMem = true)
    (returned : leaksFind outcomes fuel world p = .ok (later, result, log)) :
    ∃ memfd, .open memfd ∈ log.events ∧ 2 ≤ log.events.count (.close memfd) := by
  obtain ⟨stopped, searched, _, files, _, rfl⟩ := opened_returns listed opened returned
  let closed := searched.note (.close stopped.files)
  let continued := continueClones outcomes 0 clones closed
  have looped : Adds (fun _ => True) closed continued := (adds_continueClones outcomes clones 0 closed).imp fun _ _ => trivial
  have left : Adds (fun _ => True) (continued.note (.close stopped.files))
      ((continued.note (.close stopped.files)).noteIf outcomes.detaches .detach) := adds_noteIf trivial _ _
  refine ⟨stopped.files, ?_, ?_⟩
  · have searching : Adds (fun _ => True) stopped.openFile.1 searched := files.imp fun _ _ => trivial
    have whole := ((searching.trans (adds_note trivial _)).trans looped).trans ((adds_note trivial _).trans left)
    refine List.count_pos_iff.mp (Nat.lt_of_lt_of_le ?_ (whole.count_le _))
    simp [Log.openFile]
  · calc
      2 = 1 + 1 := rfl
      _ ≤ closed.events.count (.close stopped.files) + 1 := by simp [closed, Log.note]
      _ ≤ continued.events.count (.close stopped.files) + 1 := Nat.add_le_add_right (looped.count_le _) 1
      _ = (continued.note (.close stopped.files)).events.count (.close stopped.files) := by simp [Log.note]
      _ ≤ _ := left.count_le _

/-- For every set of clones and every outcome of the calls: if `leaks_find` returns, it lets
the target go exactly if it has taken nothing. -/
theorem letsGo_iff (listed : world.mpServerGetProcessClones p = .ok clones)
    (returned : leaksFind outcomes fuel world p = .ok (later, result, log)) :
    LetsGo world later result log ↔ TakesNothing outcomes clones := by
  cases opened : outcomes.opensMem with
  | true =>
    obtain ⟨memfd, isOpened, twice⟩ := opened_closes_twice listed opened returned
    refine iff_of_false (fun goes => ?_) fun nothing => ?_
    · rw [goes.closed memfd isOpened] at twice
      exact absurd twice (by decide)
    · rw [nothing.unopened] at opened
      cases opened
  | false =>
    obtain ⟨rfl, rfl, ran⟩ := unopened_returns listed opened returned
    obtain ⟨_, cleaned⟩ := stopClones_clean ran (fresh_start outcomes.attaches)
    rw [letsGo_of_unopened (unsent_stopped ran) (undetached_stopped ran), cleaned, clean_start_iff]
    simp only [Nat.zero_add]
    exact ⟨fun ⟨unattached, each⟩ => ⟨unattached, opened, each⟩, fun nothing => ⟨nothing.unattached, nothing.each⟩⟩

/-- One program, which the server knows as `100`. -/
def traced : World := { processes := [{}], pidTable := some ((∅ : HashTable Pid ProcId).insert 100 0) }

/-- A target that is gone. -/
def gone : Outcomes where
  attaches := false
  stops _ := false
  polls _ := [none]
  opensMem := false
  opensMaps := false
  stats _ := none
  target := { peekData := fun _ => none }
  continues _ := false
  detaches := false

theorem traced_listed : traced.mpServerGetProcessClones 0 = .ok [0] := by decide

theorem letsGo_iff_gone : LetsGo traced traced [] {} := by
  refine (@letsGo_iff gone 0 traced traced 0 [0] [] {} traced_listed rfl).mpr ⟨rfl, rfl, fun i _ => ⟨rfl, ?_⟩⟩
  rintro file found
  have unread : ([none] : List (Option CString)).find? (!waits ·) = some none := by decide
  cases unread.symm.trans found
  decide

/-- Its memory cannot be opened, but it is there. -/
def unreadable : Outcomes := { gone with attaches := true, stops := fun _ => true }

/-- The only clone stays stopped, and the target attached. -/
theorem letsGo_unreadable :
    leaksFind unreadable 0 traced 0 = .ok (traced, [], { events := [.attach, .stop 0] }) ∧
      ¬ LetsGo traced traced [] { events := [.attach, .stop 0] } := by
  refine ⟨rfl, fun goes => ?_⟩
  cases goes.continued 0 [.attach] [] rfl

/-! ## What the search gives back -/

/-- In any session the references are balanced, whether the memory can be opened or not. -/
theorem returned_released {session : Session} {roots lost : List BlockId} (pinned : Reports.Pinned session roots lost)
    (listed : session.world.mpServerGetProcessClones p = .ok clones)
    (returned : leaksFind outcomes fuel session.world p = .ok (later, result, log)) :
    ∀ b < session.world.blocks.size, later.blocks.refs b = session.world.blocks.refs b + result.count b := by
  intro b inside
  cases opened : outcomes.opensMem with
  | false =>
    obtain ⟨rfl, rfl, _⟩ := unopened_returns listed opened returned
    simp
  | true =>
    obtain ⟨_, _, _, _, searched, _⟩ := opened_returns listed opened returned
    cases found : session.world.process p with
    | error fault =>
      rw [Memprof.leaksFind, found] at searched
      cases searched
    | ok process =>
      have own := World.mem_of_process found
      have referenced : ∀ b ∈ process.held, 0 < session.world.blocks.refs b :=
        fun b => Store.refs_pos_of_held (pinned.held own)
      obtain ⟨blocks, new, rfl, _, changes, fresh, _⟩ := (Reports.leaksFind_ensures found pinned.positive
        (Reports.nodup_values (pinned.keyed process own)) referenced fuel (stoppedTarget outcomes clones)).of_ok searched
      have old : new.count b = 0 := List.count_eq_zero_of_not_mem fun member => Nat.not_lt.mpr (fresh b member).1 inside
      rw [changes.refs, old, Nat.cast_zero, zero_add]

/-- Every clone that can be reached is continued in the second loop. -/
theorem continueClones_mem {clones : List ProcId} {i : ℕ}
    (continues : ∀ k < clones.length, outcomes.continues (i + k) = true) (log : Log) :
    ∀ clone ∈ clones, .cont clone ∈ (continueClones outcomes i clones log).events := by
  induction clones generalizing i log with
  | nil => simp
  | cons clone clones inductionHypothesis =>
    have sent : outcomes.continues i = true := continues 0 (Nat.zero_lt_succ _)
    have others : ∀ k < clones.length, outcomes.continues (i + 1 + k) = true := fun k inside => by
      rw [Nat.add_right_comm, Nat.add_assoc]
      exact continues (k + 1) (Nat.succ_lt_succ inside)
    intro other member
    rw [continueClones, Log.noteIf, if_pos sent]
    rcases List.mem_cons.mp member with rfl | rest
    · exact (adds_continueClones outcomes clones (i + 1) _).mem (by simp [Log.note])
    · exact inductionHypothesis others _ other rest

/-- A stop is in the part of the log before the memory is opened. -/
theorem mem_after {events first second before after : List Event} {event other : Event}
    (parts : events = first ++ second) (absent : event ∉ second) (member : other ∈ second)
    (split : events = before ++ event :: after) : other ∈ after := by
  rw [parts] at split
  rcases List.append_eq_append_iff.mp split with ⟨more, rfl, rest⟩ | ⟨more, rfl, rest⟩
  · exact absurd (by rw [rest]; simp) absent
  · cases more with
    | nil =>
      rw [List.nil_append] at rest
      exact absurd (by rw [← rest]; simp) absent
    | cons head more =>
      rw [List.cons_append, List.cons.injEq] at rest
      rw [rest.2]
      exact List.mem_append_right _ member

/-- If the memory can be opened and the clones can be reached, each of them is continued
after it was stopped. -/
theorem opened_continued (listed : world.mpServerGetProcessClones p = .ok clones) (opened : outcomes.opensMem = true)
    (continues : ∀ i < clones.length, outcomes.continues i = true)
    (returned : leaksFind outcomes fuel world p = .ok (later, result, log)) (clone : ProcId) (before after : List Event)
    (split : log.events = before ++ .stop clone :: after) : .cont clone ∈ after := by
  obtain ⟨stopped, searched, ran, files, _, rfl⟩ := opened_returns listed opened returned
  let closed := searched.note (.close stopped.files)
  let continued := continueClones outcomes 0 clones closed
  let allowed : Event → Prop := fun event => ∀ clone, event ≠ .stop clone
  have searching : Adds allowed stopped closed :=
    (((adds_openFile stopped).trans files).trans (adds_note trivial _)).imp fun event file clone same => by
      rw [same] at file
      exact file
  have looping : Adds allowed closed continued := (adds_continueClones outcomes clones 0 closed).imp
    fun event ⟨_, same⟩ clone other => by cases same.symm.trans other
  have closes : allowed (.close stopped.files) := fun _ same => Event.noConfusion same
  have detaches : allowed .detach := fun _ same => Event.noConfusion same
  have leaving : Adds allowed continued _ :=
    (adds_note closes continued).trans (adds_noteIf detaches _ outcomes.detaches)
  obtain ⟨second, parts, absent⟩ := (searching.trans looping).trans leaving
  have absentStop : .stop clone ∉ second := fun member => absent _ member clone rfl
  have member : clone ∈ clones := by
    have inFirst : .stop clone ∈ stopped.events := by
      have inEither : .stop clone ∈ stopped.events ++ second := by
        rw [← parts, split]
        simp
      exact (List.mem_append.mp inEither).resolve_right absentStop
    rcases adds_stopped ran _ inFirst with same | file | ⟨other, isClone, same⟩
    · cases same
    · exact file.elim
    · cases same
      exact isClone
  have sent := leaving.mem (@continueClones_mem outcomes clones 0 (by simpa using continues) closed clone member)
  rw [parts] at sent
  exact mem_after parts absentStop ((List.mem_append.mp sent).resolve_left (unsent_stopped ran clone)) split

end

end Memprof.Stopping
