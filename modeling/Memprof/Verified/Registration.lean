import Memprof.Verified.Serving

/-! # Who is registered with the server

The registry is what `pid_table` and the processes say of each other: who is listed under
which pid, what is a clone of what, and who is present, which is connected or, for a
program that the user has started, still expected.  Every input of the main loop makes at
most one of three changes to it.
-/

namespace Memprof.Registration

open Library Accounting Serving Delivery

/-- A process as far as the registry goes. -/
structure Entry where
  pid : Pid
  cloneOf : Option ProcId
  present : Bool
  followFork : Bool
  followExec : Bool

structure Registry where
  entries : List Entry
  listed : HashTable Pid ProcId

def entry (process : MPProcess) : Entry where
  pid := process.pid
  cloneOf := process.cloneOf
  present := process.inputChannel.isSome || process.status = .starting
  followFork := process.followFork
  followExec := process.followExec

def registry (world : World) : Registry where
  entries := world.processes.map entry
  listed := world.pidTable.getD ∅

/-- A registration takes the place of another one: of a program started under a pid in
use, of a clone under the pid of another process, and of an image that is followed. -/
def Overwrites (world : World) : World.Event → Prop
  | .run pid => (world.mpServerFindProcess pid).isSome
  | .connect _ info =>
    match info.operation with
    | .clone => (world.mpServerFindProcess info.newPid).isSome
    | .new => ∃ p process, world.mpServerFindProcess info.newPid = some p ∧ world.process p = .ok process ∧
        process.followExec = true
    | .fork => (∀ p process, world.mpServerFindProcess info.pid = some p → world.process p = .ok process →
          process.followFork = true) ∧
        ∃ p process, world.mpServerFindProcess info.newPid = some p ∧ world.process p = .ok process ∧
          process.followExec = true
    | .malloc | .realloc | .free | .time | .exec | .exit | .other _ _ => False
  | .startInput _ | .stopInput _ | .clearInput _ | .message _ _ _ | .eof _ => False

/-- The process whose channel has ended. -/
def ends : World.Event → Option ProcId
  | .eof watch => some watch.process
  | .run _ | .startInput _ | .stopInput _ | .clearInput _ | .connect _ _ | .message _ _ _ => none

/-- The three changes: the entry that `ending` names is no longer present, one is present
again, or a present one is added and listed. -/
inductive Change (overwrites : Prop) (ending : Option ProcId) : Registry → Registry → Prop
  | none {registry : Registry} (keeps : ¬overwrites) : Change overwrites ending registry registry
  | ended {registry : Registry} {p : ProcId} {e : Entry} (found : registry.entries[p]? = some e) (keeps : ¬overwrites)
      (named : ending = some p) :
      Change overwrites ending registry {
        entries := registry.entries.set p { e with present := false }
        listed := if registry.listed.lookup e.pid = some p then registry.listed.erase e.pid else registry.listed }
  | renewed {registry : Registry} {p : ProcId} {e : Entry} (found : registry.entries[p]? = some e)
      (named : registry.listed.lookup e.pid = some p) (keeps : ¬overwrites) :
      Change overwrites ending registry { registry with entries := registry.entries.set p { e with present := true } }
  | added {registry : Registry} {e : Entry} (present : e.present = true)
      (clone : ∀ parent ∈ e.cloneOf, parent < registry.entries.length ∧ e.followFork = false ∧ e.followExec = false)
      (overwriting : overwrites ↔ registry.listed.lookup e.pid ≠ .none) :
      Change overwrites ending registry {
        entries := registry.entries ++ [e]
        listed := registry.listed.insert e.pid registry.entries.length }

section Change

variable {before after : Registry} {overwrites : Prop} {ending : Option ProcId}

/-- A process stays the same but for its presence. -/
theorem Change.kept (change : Change overwrites ending before after) {p : ProcId} {e : Entry}
    (found : before.entries[p]? = some e) :
    ∃ e', after.entries[p]? = some e' ∧ e' = { e with present := e'.present } := by
  have set : ∀ {q : ProcId} {other : Entry} {present : Bool}, before.entries[q]? = some other →
      ∃ e', (before.entries.set q { other with present := present })[p]? = some e' ∧
        e' = { e with present := e'.present } := by
    intro q other present held
    by_cases same : p = q
    · subst same
      rw [found] at held
      cases held
      exact ⟨_, List.getElem?_set_self (List.getElem?_eq_some_iff.mp found).1, rfl⟩
    · exact ⟨e, by rw [List.getElem?_set_ne (Ne.symm same), found], rfl⟩
  cases change with
  | none _ => exact ⟨e, found, rfl⟩
  | ended held _ _ => exact set held
  | renewed held _ _ => exact set held
  | added _ _ _ => exact ⟨e, by rw [List.getElem?_append_left (List.getElem?_eq_some_iff.mp found).1, found], rfl⟩

/-- A pid stays listed, unless a process with this pid ends. -/
theorem Change.listed_kept (change : Change overwrites ending before after) {pid : Pid}
    (listed : ∃ p, before.listed.lookup pid = some p)
    (other : ∀ p ∈ ending, ∀ e, before.entries[p]? = some e → e.pid ≠ pid) : ∃ p, after.listed.lookup pid = some p := by
  obtain ⟨p, named⟩ := listed
  cases change with
  | none _ => exact ⟨p, named⟩
  | ended found _ ended =>
    refine ⟨p, ?_⟩
    split
    next => rw [AList.lookup_erase_ne (Ne.symm (other _ ended _ found)), named]
    next => exact named
  | renewed _ _ _ => exact ⟨p, named⟩
  | @added e _ _ _ =>
    by_cases same : pid = e.pid
    · rw [same]
      exact ⟨_, AList.lookup_insert _⟩
    · exact ⟨p, by rw [AList.lookup_insert_ne same, named]⟩

end Change

theorem find_eq (world : World) (pid : Pid) : world.mpServerFindProcess pid = (registry world).listed.lookup pid := by
  unfold World.mpServerFindProcess registry
  cases world.pidTable <;> rfl

theorem registry_eq {world later : World} (processes : later.processes.map entry = world.processes.map entry)
    (table : later.pidTable = world.pidTable) : registry later = registry world := by
  rw [registry, registry, processes, table]

theorem registry_set {world later : World} {p : ProcId} {process process' : MPProcess}
    (found : world.process p = .ok process) (processes : later.processes = world.processes.set p process')
    (same : entry process' = entry process) (table : later.pidTable = world.pidTable) :
    registry later = registry world := by
  refine registry_eq ?_ table
  rw [processes, List.map_set, same]
  obtain ⟨inside, here⟩ := List.getElem?_eq_some_iff.mp (World.process_eq_ok.mp found)
  rw [← here]
  simp [← List.map_set]

/-! ## What each input does -/

theorem startInput_registry {world later : World} {p : ProcId} (started : world.processStartInput p = .ok later) :
    registry later = registry world := by
  obtain ⟨process, found, started⟩ := ok_of_bind started
  split at started
  · cases started
    exact registry_set found rfl rfl rfl
  · cases started
    rfl

theorem stopInput_registry {world later : World} {p : ProcId} (stopped : world.processStopInput p = .ok later) :
    registry later = registry world := by
  obtain ⟨process, found, stopped⟩ := ok_of_bind stopped
  split at stopped
  · cases stopped
    exact registry_set found rfl rfl rfl
  · cases stopped
    rfl

theorem clearInput_registry {world later : World} {p : ProcId} (cleared : world.processClearInput p = .ok later) :
    registry later = registry world := by
  obtain ⟨process, found, cleared⟩ := ok_of_bind cleared
  obtain ⟨blocks, _, cleared⟩ := ok_of_bind cleared
  obtain ⟨stashes, _, cleared⟩ := ok_of_bind cleared
  cases cleared
  exact registry_set found rfl rfl rfl

theorem message_registry {world later : World} (served : Served world) {watch : Watch} (member : watch ∈ world.watches)
    {info : MIInfo} {frames : List Addr} (handled : world.inputMessage watch.process info frames = .ok later) :
    registry later = registry world := by
  obtain ⟨process, found, _, connected⟩ := served.watched watch member
  obtain ⟨ready, stack, process', ranPrepare, replaces, prepared, _, _, soundReady⟩ :=
    prepareInput_ok served.sound found connected info frames
  -- Whatever the status becomes, the process stays connected.
  have same : entry process' = entry process := by
    rw [prepared]
    simp [entry, connected]
  obtain ⟨⟨ready', stack'⟩, ranPrepare', handled⟩ := ok_of_bind handled
  rw [ranPrepare] at ranPrepare'
  cases ranPrepare'
  obtain ⟨root, _, handled⟩ := ok_of_bind handled
  obtain ⟨rootProcess, foundRoot, _⟩ := ok_of_bind handled
  have commanded := @command_ensures ready soundReady root rootProcess foundRoot (fun _ => True) info stack
    fun _ _ => .inr trivial
  obtain ⟨rootProcess', replacesRoot, _, sameRoot, _⟩ := commanded.of_ok handled
  have unchanged : entry rootProcess' = entry rootProcess := by rw [sameRoot]; rfl
  exact (registry_set foundRoot replacesRoot.processes unchanged replacesRoot.pidTable).trans
    (registry_set found replaces.processes same replaces.pidTable)

theorem entry_of_process {world : World} {p : ProcId} {process : MPProcess} (found : world.process p = .ok process) :
    (registry world).entries[p]? = some (entry process) := by
  rw [registry, List.getElem?_map, World.process_eq_ok.mp found]
  rfl

theorem eof_change {world later : World} (served : Served world) {watch : Watch} (member : watch ∈ world.watches)
    (handled : world.inputEof watch = .ok later) :
    Change False (some watch.process) (registry world) (registry later) := by
  obtain ⟨process, found, _⟩ := served.watched watch member
  obtain ⟨later', ran, _, processes, table, _⟩ := inputEof_ok served member found
  rw [handled] at ran
  cases ran
  have after : registry later = {
      entries := (registry world).entries.set watch.process { entry process with present := false }
      listed := if (registry world).listed.lookup process.pid = some watch.process
        then (registry world).listed.erase process.pid else (registry world).listed } := by
    rw [registry, processes, table, List.map_set, registry, unlisted]
    have closed : entry (ended process) = { entry process with present := false } := by simp [entry, ended]
    rw [closed]
    cases world.pidTable with
    | none => rfl
    | some listed => simp
  rw [after]
  exact .ended (entry_of_process found) id rfl

/-- A present process is added and listed. -/
theorem added_change {world later : World} {process : MPProcess} {overwrites : Prop} {ending : Option ProcId}
    (processes : later.processes = world.processes ++ [process])
    (table : later.pidTable = some ((world.pidTable.getD ∅).insert process.pid world.processes.length))
    (present : process.inputChannel.isSome = true ∨ process.status = .starting)
    (clone : ∀ parent ∈ process.cloneOf,
      parent < world.processes.length ∧ process.followFork = false ∧ process.followExec = false)
    (overwriting : overwrites ↔ world.mpServerFindProcess process.pid ≠ none) :
    Change overwrites ending (registry world) (registry later) := by
  have length : (registry world).entries.length = world.processes.length := by rw [registry, List.length_map]
  have after : registry later = {
      entries := (registry world).entries ++ [entry process]
      listed := (registry world).listed.insert (entry process).pid (registry world).entries.length } := by
    rw [length, registry, processes, table, List.map_append]
    rfl
  rw [after]
  refine .added ?_ ?_ ?_
  · simp only [entry, Bool.or_eq_true, decide_eq_true_eq]
    exact present
  · rw [length]
    exact clone
  · rw [overwriting, find_eq]
    rfl

theorem run_change {world later : World} (served : Served world) {pid : Pid} (named : pid ≠ 0)
    (handled : world.processRun pid = .ok later) :
    Change (Overwrites world (.run pid)) none (registry world) (registry later) := by
  obtain ⟨later', process, ran, _, processes, samePid, status, cloneOf, table⟩ := processRun_ok served named
  rw [handled] at ran
  cases ran
  refine added_change processes (samePid ▸ table) (.inr status) (by simp [cloneOf]) ?_
  rw [Overwrites, samePid, Option.isSome_iff_ne_none]

/-- A `MI_NEW`, or a `MI_FORK` that is accepted. -/
theorem new_change {world : World} (served : Served world) {channel : Channel} (fresh : world.Fresh channel)
    {info : MIInfoFork} (named : info.newPid ≠ 0) {result : World × Bool} {overwrites : Prop}
    (handled : world.controlNew channel info = .ok result)
    (overwriting : overwrites ↔ ∃ p process, world.mpServerFindProcess info.newPid = some p ∧
      world.process p = .ok process ∧ process.followExec = true) :
    Change overwrites none (registry world) (registry result.1) := by
  cases listed : world.mpServerFindProcess info.newPid with
  | some p =>
    obtain ⟨_, old, found, samePid⟩ := served.listed _ p listed
    cases follow : old.followExec with
    | false =>
      -- The process that is listed takes the connection over and stays listed.
      have keeps : ¬overwrites := by
        rw [overwriting]
        rintro ⟨q, process, listed', found', follow'⟩
        rw [listed] at listed'
        cases listed'
        rw [found] at found'
        cases found'
        rw [follow] at follow'
        cases follow'
      obtain ⟨later, tag, ran, _, processes, _, table⟩ := controlNew_reset served found follow fresh listed
      rw [handled] at ran
      cases ran
      have after : registry later =
          { registry world with entries := (registry world).entries.set p { entry old with present := true } } := by
        rw [registry, registry, processes, table, List.map_set]
        rfl
      rw [after]
      have named : world.mpServerFindProcess old.pid = some p := by rw [samePid, listed]
      exact .renewed (entry_of_process found) (by rw [← find_eq]; exact named) keeps
    | true =>
      obtain ⟨later, process, ran, _, processes, connected, pid, cloneOf, table⟩ :=
        controlNew_follow served found follow fresh named listed
      rw [handled] at ran
      cases ran
      -- With `follow_exec` a new process takes the entry.
      refine added_change processes (pid ▸ table) (.inl (by rw [connected]; rfl)) (by simp [cloneOf]) ?_
      rw [overwriting, pid, listed]
      simp [found, follow]
  | none =>
    cases parent : world.mpServerFindProcess info.pid with
    | none =>
      -- Nobody knows the parent: the connection is refused.
      rw [World.controlNew, listed, parent] at handled
      cases handled
      refine .none ?_
      rw [overwriting]
      rintro ⟨p, _, listed', _⟩
      rw [listed] at listed'
      cases listed'
    | some p =>
      obtain ⟨_, process, found, _⟩ := served.listed _ p parent
      obtain ⟨later, child, ran, _, processes, connected, _, cloneOf, _, pid, table, _⟩ :=
        controlNew_fork served found fresh named listed parent
      rw [handled] at ran
      cases ran
      refine added_change processes (pid ▸ table) (.inl (by rw [connected]; rfl)) (by simp [cloneOf]) ?_
      rw [overwriting, pid, listed]
      simp

theorem connect_change {world : World} (served : Served world) {channel : Channel} {info : MIInfoFork}
    (admissible : world.Admissible (.connect channel info)) {result : World × Bool}
    (handled : world.controlFunc channel info = .ok result) :
    Change (Overwrites world (.connect channel info)) none (registry world) (registry result.1) := by
  obtain ⟨fresh, named⟩ := admissible
  unfold World.controlFunc at handled
  rw [Overwrites]
  cases operation : info.operation with
  | new =>
    rw [operation] at handled
    exact new_change served fresh named handled Iff.rfl
  | fork =>
    rw [operation] at handled
    simp only at handled
    cases parent : world.mpServerFindProcess info.pid with
    | none =>
      rw [parent] at handled
      exact new_change served fresh named handled (by simp)
    | some p =>
      rw [parent] at handled
      obtain ⟨process, found, handled⟩ := ok_of_bind handled
      cases follow : process.followFork with
      | true =>
        rw [if_pos follow] at handled
        -- That the fork is accepted is part of what overwriting means for it.
        have accepted : ∀ q other, some p = some q → world.process q = .ok other → other.followFork = true := by
          intro q other same found'
          cases same
          rw [found] at found'
          cases found'
          exact follow
        exact new_change served fresh named handled (and_iff_right accepted)
      | false =>
        rw [if_neg (by simp [follow])] at handled
        cases handled
        -- A refused connection overwrites nothing, whoever is listed.
        exact .none (by simp [found, follow])
  | clone =>
    rw [operation] at handled
    cases parent : world.mpServerFindProcess info.pid with
    | none =>
      simp only [World.controlClone, parent] at handled
      cases handled
    | some p =>
      obtain ⟨_, process, found, _⟩ := served.listed _ p parent
      have inside := (List.getElem?_eq_some_iff.mp (World.process_eq_ok.mp found)).1
      obtain ⟨later, tag, ran, _, processes, table⟩ := controlClone_ok served fresh named parent
      rw [ran] at handled
      cases handled
      refine added_change processes table (.inl rfl) (fun q same => ?_) ?_
      · cases same
        exact ⟨inside, rfl, rfl⟩
      · rw [Option.isSome_iff_ne_none]
        rfl
  | malloc | realloc | free | time | exec | exit =>
    rw [operation] at handled
    cases handled
  | other _ _ =>
    rw [operation] at handled
    cases handled
    exact .none id

/-- Every input changes the registry in one of the three ways, or not at all. -/
theorem handle_change {world later : World} (served : Served world) {event : World.Event}
    (admissible : world.Admissible event) (handled : world.handle event = .ok later) :
    Change (Overwrites world event) (ends event) (registry world) (registry later) := by
  cases event with
  | run pid => exact run_change served admissible handled
  | startInput p => exact startInput_registry handled ▸ .none id
  | stopInput p => exact stopInput_registry handled ▸ .none id
  | clearInput p => exact clearInput_registry handled ▸ .none id
  | connect channel info =>
    obtain ⟨result, ran, rfl⟩ := ok_of_map handled
    exact connect_change served admissible ran
  | message watch info frames => exact message_registry served admissible handled ▸ .none id
  | eof watch => exact eof_change served admissible handled

/-! ## Runs -/

def run (followFork followExec : Bool) (events : List World.Event) : Except Fault World :=
  events.foldlM World.handle { defaultFollowFork := followFork, defaultFollowExec := followExec }

/-- Every input of the run is one that can happen. -/
def Possible (followFork followExec : Bool) (events : List World.Event) : Prop :=
  ∀ earlier event reached, earlier ++ [event] <+: events → run followFork followExec earlier = .ok reached →
    reached.Admissible event

instance (followFork followExec : Bool) (events : List World.Event) :
    Decidable (Possible followFork followExec events) :=
  decidable_of_iff _ forall_steps_iff

/-- A run passes through reachable states, and all of these are passed through. -/
theorem reachable_iff {world : World} : world.Reachable ↔
    ∃ followFork followExec events, run followFork followExec events = .ok world ∧
      Possible followFork followExec events := by
  constructor
  · rintro ⟨followFork, followExec, steps⟩
    refine ⟨followFork, followExec, ?_⟩
    induction steps with
    | refl => exact ⟨[], rfl, fun earlier event _ before => by simp at before⟩
    | tail _ step inductionHypothesis =>
      obtain ⟨events, ran, possible⟩ := inductionHypothesis
      obtain ⟨event, admissible, handled⟩ := World.step_iff.mp step
      refine ⟨events ++ [event], by rw [run, foldlM_concat, ← run, ran, ok_bind, handled], ?_⟩
      intro earlier other reached before ranEarlier
      -- The last event was admissible when it came, the others by induction.
      cases List.prefix_concat_iff.mp before with
      | inl all =>
        obtain ⟨rfl, same⟩ := List.append_inj' all rfl
        cases same
        rw [ran] at ranEarlier
        cases ranEarlier
        exact admissible
      | inr shorter => exact possible earlier other reached shorter ranEarlier
  · rintro ⟨followFork, followExec, events, ran, possible⟩
    refine ⟨followFork, followExec, ?_⟩
    -- The last event is the last step.
    induction events using List.reverseRecOn generalizing world with
    | nil =>
      cases ran
      exact .refl
    | append_singleton events event inductionHypothesis =>
      rw [run, foldlM_concat] at ran
      obtain ⟨middle, ranMiddle, handled⟩ := ok_of_bind ran
      refine (inductionHypothesis ranMiddle ?_).tail (World.step_iff.mpr ⟨event, ?_, handled⟩)
      · exact fun earlier other reached before => possible earlier other reached (before.trans (List.prefix_append _ _))
      · exact possible events event middle (List.prefix_refl _) ranMiddle

end Memprof.Registration
