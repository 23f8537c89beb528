import Memprof.Recording
import Memprof.Verified.LifeCycle

/-! # Reports and the record button

A report stops the input of its process and starts it again.  The profile does that only for
a process that was recorded, the leak report for every process: after it a process is
recorded whose record button was left off.
-/

namespace Memprof.Recording

open Library Control Toolbar

/-! ## The source of one process -/

/-- The main loop has a source that runs `input_func` for the process. -/
def Watched (world : World) (p : ProcId) : Prop := ∃ watch ∈ world.watches, watch.process = p

instance (world : World) (p : ProcId) : Decidable (Watched world p) := List.decidableBEx _ _

/-- A process with a channel, whose source, if there is one, is that of its tag. -/
structure Connected (world : World) (p : ProcId) (process : MPProcess) : Prop where
  found : world.process p = .ok process
  channel : process.inputChannel.isSome = true
  tagged : ∀ watch ∈ world.watches, watch.process = p → watch.tag = process.inputTag
  watched : Watched world p ↔ process.inputTag ≠ 0

def Running (world : World) (p : ProcId) : Prop := ∃ process, Connected world p process

theorem Running.quiet {world later : World} {p : ProcId} (running : Running world p) (quiet : Quiet world later) :
    Running later p ∧ (Watched later p ↔ Watched world p) := by
  obtain ⟨process, connected⟩ := running
  have same : (later.processes.map face)[p]? = (world.processes.map face)[p]? := by rw [quiet.faces]
  rw [List.getElem?_map, List.getElem?_map, World.process_eq_ok.mp connected.found] at same
  obtain ⟨process', held, faces⟩ := Option.map_eq_some_iff.mp same
  have tag : process'.inputTag = process.inputTag := congrArg (·.2.1) faces
  have channel : process'.inputChannel = process.inputChannel := congrArg (·.2.2) faces
  have watched : Watched later p ↔ Watched world p := by rw [Watched, Watched, quiet.watches]
  refine ⟨⟨process', World.process_eq_ok.mpr held, ?_, ?_, ?_⟩, watched⟩
  · rw [channel]
    exact connected.channel
  · rw [quiet.watches, tag]
    exact connected.tagged
  · rw [watched, tag]
    exact connected.watched

theorem Running.stop {world later : World} {p : ProcId} (running : Running world p)
    (performed : world.processStopInput p = .ok later) : Running later p ∧ ¬ Watched later p := by
  obtain ⟨process, connected⟩ := running
  have unwatched : ¬ Watched later p := by
    unfold World.processStopInput at performed
    rw [connected.found, ok_bind] at performed
    split at performed
    next =>
      cases performed
      rintro ⟨watch, member, own⟩
      obtain ⟨there, other⟩ := List.mem_filter.mp member
      exact of_decide_eq_true other (connected.tagged watch there own)
    next idle =>
      cases performed
      rw [connected.watched]
      exact idle
  obtain ⟨_, found⟩ := LifeCycle.processStopInput_moved connected.found performed
  refine ⟨⟨_, found, connected.channel, ?_, ?_⟩, unwatched⟩
  · intro watch member own
    exact absurd ⟨watch, member, own⟩ unwatched
  · exact iff_of_false unwatched fun nonzero => nonzero rfl

theorem Running.start {world later : World} {p : ProcId} (running : Running world p)
    (performed : world.processStartInput p = .ok later) : Running later p ∧ Watched later p := by
  obtain ⟨process, connected⟩ := running
  unfold World.processStartInput at performed
  rw [connected.found, ok_bind] at performed
  split at performed
  next channel idle held =>
    cases performed
    have watched : Watched ({ world with
        watches := ⟨world.lastTag + 1, channel, p⟩ :: world.watches, lastTag := world.lastTag + 1 }.setProcess p
          { process with inputTag := world.lastTag + 1 }) p := ⟨_, List.mem_cons_self, rfl⟩
    refine ⟨⟨_, World.process_setProcess_self connected.found _, by simp [held], ?_, ?_⟩, watched⟩
    · intro watch member own
      rcases List.mem_cons.mp member with rfl | old
      · rfl
      · exact absurd idle (connected.watched.mp ⟨watch, old, own⟩)
    · exact iff_of_true watched (Nat.succ_ne_zero _)
  next started =>
    cases performed
    refine ⟨⟨process, connected⟩, connected.watched.mpr fun idle => ?_⟩
    obtain ⟨channel, held⟩ := Option.isSome_iff_exists.mp connected.channel
    exact started channel idle held

theorem generateLeakCb_world {session later : Session} {w fuel : ℕ} {target : Option Target}
    {pwin : ProcessWindow} {p : ProcId} (found : session.windows[w]? = some pwin) (shown : pwin.process = some p)
    (performed : session.generateLeakCb w fuel target = .ok later) :
    ∃ stopped searched pwin', session.world.processStopInput p = .ok stopped ∧ Quiet stopped searched ∧
      searched.processStartInput p = .ok later.world ∧ later.windows[w]? = some pwin' ∧ pwin'.process = some p := by
  have window : session.window w = .ok pwin := by rw [Session.window, found]
  unfold Session.generateLeakCb at performed
  rw [window, ok_bind, shown] at performed
  obtain ⟨stopped, stop, performed⟩ := ok_of_bind performed
  obtain ⟨blocks, _, performed⟩ := ok_of_bind performed
  obtain ⟨⟨searched, leaks⟩, search, performed⟩ := ok_of_bind performed
  obtain ⟨usage, _, performed⟩ := ok_of_bind performed
  obtain ⟨started, start, performed⟩ := ok_of_bind performed
  cases performed
  refine ⟨stopped, searched, ⟨some p, leaks, usage⟩, stop, ?_, start, ?_, rfl⟩
  · cases target with
    | none =>
      cases search
      exact ⟨rfl, rfl, rfl, rfl⟩
    | some target =>
      obtain ⟨process, foundProcess, search⟩ := ok_of_bind search
      obtain ⟨_, _, search⟩ := ok_of_bind search
      obtain ⟨_, _, search⟩ := ok_of_bind search
      obtain ⟨_, _, search⟩ := ok_of_bind search
      obtain ⟨_, _, search⟩ := ok_of_bind search
      cases search
      have unset : stopped.process p = .ok process := foundProcess
      exact .set unset rfl rfl rfl rfl rfl
  · exact List.getElem?_set_self (List.getElem?_eq_some_iff.mp found).1

variable {σ τ : Type} [DecidableEq σ] {locate : τ → Addr → Option σ × τ} {name : σ → String}
    {skipFuncs : List String} {noMaps : τ}

theorem profileCreate_quiet {maps maps' : τ} {world later : World} {p : ProcId} {profile : Profile σ}
    (returned : profileCreate locate name maps world p skipFuncs = .ok (later, maps', profile)) :
    Quiet world later := by
  obtain ⟨process, found, returned⟩ := ok_of_bind returned
  obtain ⟨_, _, returned⟩ := ok_of_bind returned
  obtain ⟨_, _, returned⟩ := ok_of_bind returned
  obtain ⟨_, _, returned⟩ := ok_of_bind returned
  cases returned
  exact .set found rfl rfl rfl rfl rfl

/-! ## The buttons -/

/-- The window shows a process that runs. -/
structure Shows (toolbar : Toolbar σ τ) (p : ProcId) : Prop where
  window : ∃ pwin, toolbar.session.windows[toolbar.w]? = some pwin ∧ pwin.process = some p
  running : Running toolbar.session.world p

/-- How the record button is left by a button that is pressed. -/
def toggled (active : Bool) : Press → Bool
  | .record => !active
  | .profile | .leak _ _ | .reset => active

def IsLeak : Press → Prop
  | .leak _ _ => True
  | .record | .profile | .reset => False

/-- Everything but the record button makes a report or resets one. -/
def Reports : Press → Prop
  | .record => False
  | .profile | .leak _ _ | .reset => True

/-- What the buttons leave, where `before` says whether the process was watched. -/
def leaves (before active : Bool) : Press → Bool
  | .record => !active
  | .profile | .reset => before
  | .leak _ _ => true

omit [DecidableEq σ] in
theorem Shows.window_ok {toolbar : Toolbar σ τ} {p : ProcId} (shows : Shows toolbar p) :
    ∃ pwin, toolbar.session.windows[toolbar.w]? = some pwin ∧ toolbar.session.window toolbar.w = .ok pwin ∧
      pwin.process = some p := by
  obtain ⟨pwin, found, shown⟩ := shows.window
  exact ⟨pwin, found, by rw [Session.window, found], shown⟩

theorem Shows.press {toolbar later : Toolbar σ τ} {p : ProcId} (shows : Shows toolbar p) {pressed : Press}
    (performed : toolbar.press locate name skipFuncs noMaps pressed = .ok later) :
    Shows later p ∧ later.active = toggled toolbar.active pressed ∧
      (Watched later.session.world p ↔ leaves (decide (Watched toolbar.session.world p)) toolbar.active pressed = true) := by
  obtain ⟨pwin, found, window, shown⟩ := shows.window_ok
  cases pressed with
  | record =>
    simp only [Toolbar.press, recordButtonToggledCb, window, shown, ok_bind, World.setRecording] at performed
    obtain ⟨world, set, performed⟩ := ok_of_bind performed
    cases performed
    cases on : toolbar.active with
    | true =>
      rw [on] at set
      obtain ⟨running, unwatched⟩ := shows.running.stop set
      exact ⟨⟨⟨pwin, found, shown⟩, running⟩, by simp [toggled], by simpa [leaves] using unwatched⟩
    | false =>
      rw [on] at set
      obtain ⟨running, watched⟩ := shows.running.start set
      exact ⟨⟨⟨pwin, found, shown⟩, running⟩, by simp [toggled], by simpa [leaves] using watched⟩
  | profile =>
    simp only [Toolbar.press, generateProfileCb, window, shown, ok_bind, World.processIsRecording] at performed
    obtain ⟨was, recording, performed⟩ := ok_of_bind performed
    obtain ⟨process, foundProcess, recording⟩ := ok_of_bind recording
    obtain ⟨stopped, stop, performed⟩ := ok_of_bind performed
    obtain ⟨⟨made, maps, profile⟩, create, performed⟩ := ok_of_bind performed
    obtain ⟨restored, restore, performed⟩ := ok_of_bind performed
    cases performed
    cases recording
    obtain ⟨runningStopped, unwatched⟩ := shows.running.stop stop
    obtain ⟨running, watched⟩ := runningStopped.quiet (profileCreate_quiet create)
    obtain ⟨process', connected⟩ := shows.running
    have same := connected.found
    rw [foundProcess] at same
    cases same
    unfold World.restoreInput at restore
    split at restore
    next was =>
      obtain ⟨runningStarted, started⟩ := running.start restore
      refine ⟨⟨⟨pwin, found, shown⟩, runningStarted⟩, rfl, iff_of_true started ?_⟩
      simpa [leaves, connected.watched] using was
    next was =>
      cases restore
      refine ⟨⟨⟨pwin, found, shown⟩, running⟩, rfl, iff_of_false (watched.not.mpr unwatched) ?_⟩
      simpa [leaves, connected.watched] using was
  | leak fuel target =>
    obtain ⟨session, ran, performed⟩ := ok_of_bind performed
    cases performed
    obtain ⟨stopped, searched, pwin', stop, quiet, start, found', shown'⟩ := generateLeakCb_world found shown ran
    obtain ⟨runningStopped, _⟩ := shows.running.stop stop
    obtain ⟨running, started⟩ := (runningStopped.quiet quiet).1.start start
    exact ⟨⟨⟨pwin', found', shown'⟩, running⟩, rfl, iff_of_true started rfl⟩
  | reset =>
    simp only [Toolbar.press, resetProfileCb, window, shown, ok_bind, Session.processWindowReset] at performed
    obtain ⟨world, clear, performed⟩ := ok_of_bind performed
    cases performed
    obtain ⟨running, watched⟩ := shows.running.quiet (dropBlocks_quiet clear)
    refine ⟨⟨⟨_, List.getElem?_set_self (List.getElem?_eq_some_iff.mp found).1, rfl⟩, running⟩, rfl, ?_⟩
    simpa [leaves] using watched

/-! ## Runs -/

/-- How the record button is left by the buttons pressed so far. -/
def leftOn (active : Bool) (presses : List Press) : Bool := presses.foldl toggled active

/-- No leak report is made while the record button is off. -/
def LeaksWhileOn (active : Bool) (presses : List Press) : Prop :=
  ∀ earlier pressed, earlier ++ [pressed] <+: presses → IsLeak pressed → leftOn active earlier = true

variable (locate name skipFuncs noMaps)

/-- After each report or reset of a run the process is watched if and only if it was, and that
is if and only if the record button was left on. -/
def Keeps (toolbar : Toolbar σ τ) (p : ProcId) (presses : List Press) : Prop :=
  ∀ earlier pressed reached later, earlier ++ [pressed] <+: presses →
    earlier.foldlM (Toolbar.press locate name skipFuncs noMaps) toolbar = .ok reached →
    reached.press locate name skipFuncs noMaps pressed = .ok later → Reports pressed →
      (Watched later.session.world p ↔ Watched reached.session.world p) ∧
      (Watched later.session.world p ↔ leftOn toolbar.active earlier = true)

variable {locate name skipFuncs noMaps}

theorem run_shows {toolbar : Toolbar σ τ} {p : ProcId} (shows : Shows toolbar p) {presses : List Press}
    {reached : Toolbar σ τ}
    (ran : presses.foldlM (Toolbar.press locate name skipFuncs noMaps) toolbar = .ok reached) :
    Shows reached p ∧ reached.active = leftOn toolbar.active presses := by
  induction presses using List.reverseRecOn generalizing reached with
  | nil =>
    cases ran
    exact ⟨shows, rfl⟩
  | append_singleton presses pressed inductionHypothesis =>
    rw [foldlM_concat] at ran
    obtain ⟨middle, ranMiddle, performed⟩ := ok_of_bind ran
    obtain ⟨showsMiddle, active⟩ := inductionHypothesis ranMiddle
    obtain ⟨showsLater, toggled_eq, _⟩ := showsMiddle.press performed
    refine ⟨showsLater, ?_⟩
    rw [toggled_eq, active, leftOn, leftOn, List.foldl_append]
    rfl

/-- As long as leak reports are made while the button is on, it says whether the process is watched. -/
theorem run_watched {toolbar : Toolbar σ τ} {p : ProcId} (shows : Shows toolbar p)
    (left : Watched toolbar.session.world p ↔ toolbar.active = true) {presses : List Press}
    (on : LeaksWhileOn toolbar.active presses) {reached : Toolbar σ τ}
    (ran : presses.foldlM (Toolbar.press locate name skipFuncs noMaps) toolbar = .ok reached) :
    Watched reached.session.world p ↔ leftOn toolbar.active presses = true := by
  induction presses using List.reverseRecOn generalizing reached with
  | nil =>
    cases ran
    exact left
  | append_singleton presses pressed inductionHypothesis =>
    rw [foldlM_concat] at ran
    obtain ⟨middle, ranMiddle, performed⟩ := ok_of_bind ran
    have before := inductionHypothesis (fun earlier other prefixed =>
      on earlier other (prefixed.trans (List.prefix_append _ _))) ranMiddle
    obtain ⟨showsMiddle, active⟩ := run_shows shows ranMiddle
    obtain ⟨_, _, watched⟩ := showsMiddle.press performed
    rw [watched, active, leftOn, leftOn, List.foldl_append, ← leftOn]
    cases pressed with
    | record => rfl
    | profile | reset => simpa [leaves, toggled] using before
    | leak fuel target =>
      have here := on presses _ (List.prefix_refl _) trivial
      simp [leaves, toggled, here]

/-- For a process that runs and is recorded as the record button says: if no leak report is
made while the button is off, reports and resets keep what the button says; and in a run that
comes to its end they keep it only then. -/
theorem reports_keep_recording {toolbar : Toolbar σ τ} {p : ProcId} (shows : Shows toolbar p)
    (left : Watched toolbar.session.world p ↔ toolbar.active = true) (presses : List Press) :
    (LeaksWhileOn toolbar.active presses → Keeps locate name skipFuncs noMaps toolbar p presses) ∧
      ∀ last, presses.foldlM (Toolbar.press locate name skipFuncs noMaps) toolbar = .ok last →
        (Keeps locate name skipFuncs noMaps toolbar p presses ↔ LeaksWhileOn toolbar.active presses) := by
  have enough : LeaksWhileOn toolbar.active presses → Keeps locate name skipFuncs noMaps toolbar p presses := by
    intro on earlier pressed reached later before ran performed reports
    have here : LeaksWhileOn toolbar.active (earlier ++ [pressed]) := fun first other prefixed =>
      on first other (prefixed.trans before)
    have watchedBefore := run_watched shows left (fun first other prefixed =>
      here first other (prefixed.trans (List.prefix_append _ _))) ran
    have watchedAfter := run_watched shows left here (by rw [foldlM_concat, ran, ok_bind, performed])
    have kept : leftOn toolbar.active (earlier ++ [pressed]) = leftOn toolbar.active earlier := by
      rw [leftOn, List.foldl_append]
      cases pressed with
      | record => exact reports.elim
      | profile | leak _ _ | reset => rfl
    rw [kept] at watchedAfter
    exact ⟨watchedAfter.trans watchedBefore.symm, watchedAfter⟩
  refine ⟨enough, fun last ran => ⟨fun keeps earlier pressed before isLeak => ?_, enough⟩⟩
  obtain ⟨rest, rfl⟩ := before
  rw [List.append_assoc, List.foldlM_append] at ran
  obtain ⟨reached, ranReached, ran⟩ := ok_of_bind ran
  obtain ⟨later, performed, _⟩ := ok_of_bind ran
  cases pressed with
  | record | profile | reset => exact isLeak.elim
  | leak fuel target =>
    obtain ⟨showsReached, _⟩ := run_shows shows ranReached
    obtain ⟨_, _, watched⟩ := showsReached.press performed
    exact (keeps earlier _ reached later (List.prefix_append _ _) ranReached performed trivial).2.mp (watched.mpr rfl)

/-- A program that has connected, in a window as it is made. -/
def recorded : Toolbar ℕ Unit where
  session :=
    { world :=
        { processes := [{ status := .running, pid := 7, inputTag := 1, inputChannel := some 3 }]
          watches := [⟨1, 3, 0⟩]
          lastTag := 1 }
      windows := [{ process := some 0 }] }
  w := 0
  maps := ()

def locateNothing (maps : Unit) (_ : Addr) : Option ℕ × Unit := (none, maps)

theorem shows_recorded : Shows recorded 0 where
  window := ⟨_, rfl, rfl⟩
  running := ⟨_, rfl, rfl, by decide, by decide⟩

/-- Reports of both kinds are made, but that of the leaks before the button is switched off. -/
def presses : List Press := [.leak 9 none, .profile, .record, .profile, .reset]

theorem reports_keep_recording_presses :
    (LeaksWhileOn true presses → Keeps locateNothing (fun _ => "") [] () recorded 0 presses) ∧
      ∀ last, presses.foldlM (Toolbar.press locateNothing (fun _ => "") [] ()) recorded = .ok last →
        (Keeps locateNothing (fun _ => "") [] () recorded 0 presses ↔ LeaksWhileOn true presses) :=
  reports_keep_recording shows_recorded (by decide) presses

/-- The record button is switched off, and a leak report made. -/
theorem not_keeps_leak_report : Shows recorded 0 ∧ (Watched recorded.session.world 0 ↔ recorded.active = true) ∧
    ¬ Keeps locateNothing (fun _ => "") [] () recorded 0
      [.record, .leak 9 (some { peekData := fun _ => none })] := by
  refine ⟨shows_recorded, by decide, fun keeps => ?_⟩
  obtain ⟨reached, ranReached, last⟩ : ∃ reached, [Press.record].foldlM
      (Toolbar.press locateNothing (fun _ => "") [] ()) recorded = .ok reached ∧
      ((reached.press locateNothing (fun _ => "") [] ()
        (.leak 9 (some { peekData := fun _ => none }))).toOption.any fun later =>
          decide (Watched later.session.world 0)) = true := exists_ok_of_any (by decide +kernel)
  obtain ⟨later, performed, watched⟩ := exists_ok_of_any last
  have off := (keeps [.record] _ reached later (List.prefix_refl _) ranReached performed trivial).2.mp
    watched
  exact Bool.false_ne_true off

end Memprof.Recording
