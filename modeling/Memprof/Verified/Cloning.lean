import Memprof.Cloning
import Memprof.Verified.Registration

/-! # Clones that connect late

A clone connects with the first report it makes, and names its parent then.  The parent is
found as long as the end of its channel has not been handled, so that the server survives
exactly the runs in which no channel ends before all clones of its thread have connected or
ended themselves.
-/

namespace Memprof.Cloning

open Library Accounting Serving Registration

/-- The thread will connect, unless it ends before, and name `parent`. -/
def Waiting (thread : Thread) (parent : Pid) : Prop := thread.clonePid = some parent ∧ thread.exited = false

/-- Whichever clone connects next, its parent is found and the profiler goes on. -/
def NeverAborts (system : System) : Prop :=
  ∀ thread ∈ system.threads, ∀ parent, Waiting thread parent →
    (∃ p, system.world.mpServerFindProcess parent = some p) ∧
      ∀ channel, system.world.Fresh channel →
        system.world.controlFunc channel (System.cloneInfo thread) ≠ .error .gError

/-- When the end of a channel is handled that takes its process out of the `pid_table`, no
clone of the thread is still to connect. -/
def Collected (system : System) : Event → Prop
  | .eof t watch => ∀ thread, system.thread t = .ok thread →
    system.world.mpServerFindProcess thread.pid = some watch.process →
      ∀ clone ∈ system.threads, ¬Waiting clone thread.pid
  | .clone _ _ | .report _ | .accept _ _ | .exit _ | .serve _ => True

structure Kept (system : System) : Prop where
  served : Served system.world
  distinct : (system.threads.map Thread.pid).Nodup
  named : ∀ thread ∈ system.threads, thread.pid ≠ 0
  own : ∀ thread ∈ system.threads, ∀ p ∈ thread.process, ∃ e, (registry system.world).entries[p]? = some e ∧
    e.pid = thread.pid
  registered : ∀ thread ∈ system.threads, thread.clonePid = none → thread.exited = false →
    ∃ p, (registry system.world).listed.lookup thread.pid = some p
  family : ∀ thread ∈ system.threads, ∀ parent ∈ thread.clonePid, ∃ other ∈ system.threads, other.pid = parent

def ParentsListed (system : System) : Prop :=
  ∀ thread ∈ system.threads, ∀ parent, Waiting thread parent →
    ∃ p, (registry system.world).listed.lookup parent = some p

theorem neverAborts_iff {system : System} (kept : Kept system) : NeverAborts system ↔ ParentsListed system := by
  constructor
  · intro never thread member parent waiting
    rw [← find_eq]
    exact (never thread member parent waiting).1
  · intro listed thread member parent waiting
    obtain ⟨p, found⟩ := listed thread member parent waiting
    rw [← find_eq] at found
    refine ⟨⟨p, found⟩, fun channel fresh aborted => ?_⟩
    have named : system.world.mpServerFindProcess (System.cloneInfo thread).pid = some p := by
      simp [System.cloneInfo, newProcessInfo, waiting.1, found]
    obtain ⟨later, _, ran, _⟩ := @controlClone_ok _ kept.served channel fresh (System.cloneInfo thread)
      (kept.named thread member) p named
    have handled : system.world.controlFunc channel (System.cloneInfo thread) = .ok (later, true) := ran
    rw [handled] at aborted
    cases aborted

/-! ## Threads -/

theorem mem_of_thread {system : System} {t : ℕ} {thread : Thread} (found : system.thread t = .ok thread) :
    thread ∈ system.threads := by
  unfold System.thread at found
  split at found
  next held => cases found; exact List.mem_of_getElem? held
  next => cases found

theorem getElem?_of_thread {system : System} {t : ℕ} {thread : Thread} (found : system.thread t = .ok thread) :
    system.threads[t]? = some thread := by
  unfold System.thread at found
  split at found
  next held => cases found; exact held
  next => cases found

/-- A thread that keeps its pid changes, and the world may. -/
theorem distinct_set {system : System} {t : ℕ} {thread thread' : Thread} (found : system.thread t = .ok thread)
    (pid : thread'.pid = thread.pid) :
    (system.threads.set t thread').map Thread.pid = system.threads.map Thread.pid := by
  obtain ⟨inside, here⟩ := List.getElem?_eq_some_iff.mp (getElem?_of_thread found)
  rw [List.map_set, pid, ← here]
  simp [← List.map_set]

theorem exists_mem_set {system : System} {t : ℕ} {thread thread' : Thread} (found : system.thread t = .ok thread)
    (pid : thread'.pid = thread.pid) {other : Thread} (member : other ∈ system.threads) :
    ∃ same ∈ system.threads.set t thread', same.pid = other.pid := by
  have pids := distinct_set found pid
  have listed : other.pid ∈ (system.threads.set t thread').map Thread.pid := by
    rw [pids]
    exact List.mem_map_of_mem member
  obtain ⟨same, inSet, samePid⟩ := List.mem_map.mp listed
  exact ⟨same, inSet, samePid⟩

section Step

variable {system : System} {t : ℕ} {thread : Thread}

/-- A thread that is not another one has another pid. -/
theorem Kept.pid_ne (kept : Kept system) {left right : Thread} (leftMember : left ∈ system.threads)
    (rightMember : right ∈ system.threads) (apart : left ≠ right) : left.pid ≠ right.pid := fun same =>
  apart (List.inj_on_of_nodup_map kept.distinct leftMember rightMember same)

/-- A thread changes, and keeps what it has promised. -/
theorem Kept.update (kept : Kept system) (found : system.thread t = .ok thread) {thread' : Thread}
    (pid : thread'.pid = thread.pid)
    (own : ∀ p ∈ thread'.process, ∃ e, (registry system.world).entries[p]? = some e ∧ e.pid = thread.pid)
    (registered : thread'.clonePid = none → thread'.exited = false →
      ∃ p, (registry system.world).listed.lookup thread.pid = some p)
    (family : ∀ parent ∈ thread'.clonePid, ∃ other ∈ system.threads, other.pid = parent) :
    Kept (system.setThread t thread') := by
  have cases_mem : ∀ other ∈ system.threads.set t thread', other ∈ system.threads ∨ other = thread' :=
    fun other inSet => List.mem_or_eq_of_mem_set inSet
  refine ⟨kept.served, ?_, ?_, ?_, ?_, ?_⟩
  · rw [System.setThread, distinct_set found pid]
    exact kept.distinct
  · intro other inSet
    cases cases_mem other inSet with
    | inl old => exact kept.named other old
    | inr new => rw [new, pid]; exact kept.named thread (mem_of_thread found)
  · intro other inSet
    cases cases_mem other inSet with
    | inl old => exact kept.own other old
    | inr new => rw [new, pid]; exact own
  · intro other inSet
    cases cases_mem other inSet with
    | inl old => exact kept.registered other old
    | inr new => rw [new, pid]; exact registered
  · intro other inSet parent isParent
    have before : ∃ same ∈ system.threads, same.pid = parent := by
      cases cases_mem other inSet with
      | inl old => exact kept.family other old parent isParent
      | inr new => exact family parent (new ▸ isParent)
    obtain ⟨same, old, rfl⟩ := before
    exact exists_mem_set found pid old

theorem ParentsListed.update (listed : ParentsListed system) {thread' : Thread}
    (waits : ∀ parent, Waiting thread' parent → ∃ p, (registry system.world).listed.lookup parent = some p) :
    ParentsListed (system.setThread t thread') := by
  intro other inSet parent waiting
  cases List.mem_or_eq_of_mem_set inSet with
  | inl old => exact listed other old parent waiting
  | inr new => exact waits parent (new ▸ waiting)

/-- The flags of a thread change, which may end. -/
theorem Kept.setThread (kept : Kept system) (found : system.thread t = .ok thread) {thread' : Thread}
    (pid : thread'.pid = thread.pid) (clonePid : thread'.clonePid = thread.clonePid)
    (process : thread'.process = thread.process) (exited : thread'.exited = false → thread.exited = false) :
    Kept (system.setThread t thread') ∧ (ParentsListed system → ParentsListed (system.setThread t thread')) := by
  have member := mem_of_thread found
  constructor
  · apply kept.update found pid
    · rw [process]
      exact kept.own thread member
    · rw [clonePid]
      exact fun settled alive => kept.registered thread member settled (exited alive)
    · rw [clonePid]
      exact kept.family thread member
  · intro listed
    refine listed.update fun parent waiting => ?_
    exact listed thread member parent ⟨clonePid ▸ waiting.1, exited waiting.2⟩

/-- The world changes, in which no thread ends that has connected and goes on. -/
theorem Kept.setWorld (kept : Kept system) {later : World} (served : Served later) {overwrites : Prop}
    {ending : Option ProcId} (change : Change overwrites ending (registry system.world) (registry later))
    (apart : ∀ thread ∈ system.threads, thread.clonePid = none → thread.exited = false →
      ∀ p ∈ ending, ∀ e, (registry system.world).entries[p]? = some e → e.pid ≠ thread.pid) :
    Kept { system with world := later } where
  served := served
  distinct := kept.distinct
  named := kept.named
  own thread member p owned := by
    obtain ⟨e, found, same⟩ := kept.own thread member p owned
    obtain ⟨e', found', same'⟩ := change.kept found
    exact ⟨e', found', (congrArg Entry.pid same').trans same⟩
  registered thread member settled alive :=
    change.listed_kept (kept.registered thread member settled alive) (apart thread member settled alive)
  family := kept.family

theorem ParentsListed.setWorld (listed : ParentsListed system) {later : World} {overwrites : Prop}
    {ending : Option ProcId} (change : Change overwrites ending (registry system.world) (registry later))
    (apart : ∀ thread ∈ system.threads, ∀ parent, Waiting thread parent →
      ∀ p ∈ ending, ∀ e, (registry system.world).entries[p]? = some e → e.pid ≠ parent) :
    ParentsListed { system with world := later } := fun thread member parent waiting =>
  change.listed_kept (listed thread member parent waiting) (apart thread member parent waiting)

/-- A thread is known to the server as a process that is listed under its pid. -/
theorem Kept.register (kept : Kept system) (listed : ParentsListed system) (found : system.thread t = .ok thread)
    {p : ProcId} {e : Entry} (owned : (registry system.world).entries[p]? = some e) (pid : e.pid = thread.pid)
    (named : ∃ q, (registry system.world).listed.lookup thread.pid = some q) :
    let thread' : Thread := { thread with clonePid := none, connecting := false, process := some p }
    Kept (system.setThread t thread') ∧ ParentsListed (system.setThread t thread') := by
  constructor
  · refine kept.update found ?_ ?_ ?_ ?_
    · rfl
    · rintro q ⟨⟩
      exact ⟨e, owned, pid⟩
    · exact fun _ _ => named
    · rintro parent ⟨⟩
  · refine listed.update fun parent waiting => ?_
    cases waiting.1

/-! ## One event -/

theorem clone_step (kept : Kept system) (listed : ParentsListed system) {pid : Pid} {later : System}
    (enabled : system.Enabled (.clone t pid)) (performed : system.perform (.clone t pid) = .ok later) :
    Kept later ∧ ParentsListed later := by
  obtain ⟨parent, found, settled, alive, named, fresh⟩ := enabled
  simp only [System.perform, found, ok_bind] at performed
  cases performed
  have member := mem_of_thread found
  refine ⟨⟨kept.served, ?_, ?_, ?_, ?_, ?_⟩, ?_⟩
  · rw [List.map_append, List.map_singleton, List.nodup_append]
    refine ⟨kept.distinct, List.nodup_singleton _, ?_⟩
    intro old inOld new inNew
    obtain ⟨thread, inThreads, rfl⟩ := List.mem_map.mp inOld
    rw [List.mem_singleton.mp inNew]
    exact fresh thread inThreads
  · intro thread inThreads
    cases List.mem_append.mp inThreads with
    | inl old => exact kept.named thread old
    | inr new => rw [List.mem_singleton.mp new]; exact named
  · intro thread inThreads p owned
    cases List.mem_append.mp inThreads with
    | inl old => exact kept.own thread old p owned
    | inr new =>
      rw [List.mem_singleton.mp new] at owned
      cases owned
  · intro thread inThreads settled' alive'
    cases List.mem_append.mp inThreads with
    | inl old => exact kept.registered thread old settled' alive'
    | inr new =>
      rw [List.mem_singleton.mp new] at settled'
      cases settled'
  · intro thread inThreads named' isParent
    cases List.mem_append.mp inThreads with
    | inl old =>
      obtain ⟨other, inOld, same⟩ := kept.family thread old named' isParent
      exact ⟨other, List.mem_append_left _ inOld, same⟩
    | inr new =>
      rw [List.mem_singleton.mp new] at isParent
      cases isParent
      exact ⟨parent, List.mem_append_left _ member, rfl⟩
  · intro thread inThreads named' waiting
    cases List.mem_append.mp inThreads with
    | inl old => exact listed thread old named' waiting
    | inr new =>
      -- The parent has connected before it makes the clone, and has not ended.
      rw [List.mem_singleton.mp new] at waiting
      cases waiting.1
      exact kept.registered parent member settled alive

theorem accept_step (kept : Kept system) (listed : ParentsListed system) {channel : Channel} {later : System}
    (enabled : system.Enabled (.accept t channel)) (performed : system.perform (.accept t channel) = .ok later) :
    Kept later ∧ ParentsListed later := by
  obtain ⟨thread, found, _, waits, alive, fresh⟩ := enabled
  obtain ⟨parent, isParent⟩ := Option.ne_none_iff_exists'.mp waits
  have member := mem_of_thread found
  obtain ⟨p, named⟩ := listed thread member parent ⟨isParent, alive⟩
  rw [← find_eq] at named
  have namedParent : system.world.mpServerFindProcess (System.cloneInfo thread).pid = some p := by
    simp [System.cloneInfo, newProcessInfo, isParent, named]
  obtain ⟨world, tag, ran, served, processes, table⟩ :=
    @controlClone_ok _ kept.served channel fresh (System.cloneInfo thread) (kept.named thread member) p namedParent
  have handled : system.world.controlFunc channel (System.cloneInfo thread) = .ok (world, true) := ran
  simp only [System.perform, found, ok_bind, handled] at performed
  cases performed
  have change := @connect_change system.world kept.served channel (System.cloneInfo thread)
    ⟨fresh, kept.named thread member⟩ _ handled
  have keptWorld : Kept { system with world := world } :=
    kept.setWorld served change fun _ _ _ _ _ none => by cases none
  have listedWorld : ParentsListed { system with world := world } :=
    listed.setWorld change fun _ _ _ _ _ none => by cases none
  have foundNew := entry_of_process (process_of_append processes)
  refine keptWorld.register listedWorld found foundNew rfl ⟨system.world.processes.length, ?_⟩
  rw [registry, table]
  exact AList.lookup_insert _

/-- What is listed after the end of a channel. -/
theorem find_eof {world later : World} (served : Served world) {watch : Watch} (watched : watch ∈ world.watches)
    {process : MPProcess} (found : world.process watch.process = .ok process)
    (handled : world.inputEof watch = .ok later) (pid : Pid) :
    later.mpServerFindProcess pid =
      if pid = process.pid ∧ world.mpServerFindProcess pid = some watch.process then none
      else world.mpServerFindProcess pid := by
  obtain ⟨later', ran, _, _, table, _⟩ := inputEof_ok served watched found
  rw [handled] at ran
  cases ran
  unfold World.mpServerFindProcess
  rw [table, unlisted]
  cases world.pidTable with
  | none => simp
  | some listed =>
    simp only [Option.map_some]
    by_cases same : pid = process.pid
    · subst same
      by_cases own : listed.lookup process.pid = some watch.process <;> simp [own]
    · by_cases own : listed.lookup process.pid = some watch.process <;> simp [own, same]

theorem eof_step (kept : Kept system) (listed : ParentsListed system) {watch : Watch} {later : System}
    (enabled : system.Enabled (.eof t watch)) (performed : system.perform (.eof t watch) = .ok later) :
    Kept later ∧ (ParentsListed later ↔ Collected system (.eof t watch)) := by
  obtain ⟨thread, found, exited, owned, watched⟩ := enabled
  obtain ⟨world, handled, performed⟩ := ok_of_bind performed
  cases performed
  have member := mem_of_thread found
  obtain ⟨process, foundProcess, _⟩ := kept.served.watched watch watched
  have pid : process.pid = thread.pid := by
    obtain ⟨e, foundEntry, same⟩ := kept.own thread member watch.process owned
    rw [entry_of_process foundProcess] at foundEntry
    cases foundEntry
    exact same
  have lookups := find_eof kept.served watched foundProcess handled
  rw [pid] at lookups
  constructor
  · have admissible : system.world.Admissible (.eof watch) := watched
    refine kept.setWorld (kept.served.step (World.step_iff.mpr ⟨.eof watch, admissible, handled⟩))
      (eof_change kept.served watched handled) ?_
    rintro other inThreads _ alive p isEnding e foundEntry
    cases isEnding
    rw [entry_of_process foundProcess] at foundEntry
    cases foundEntry
    show process.pid ≠ other.pid
    rw [pid]
    exact kept.pid_ne member inThreads fun same => by rw [← same, exited] at alive; cases alive
  · simp only [ParentsListed, ← find_eq, lookups]
    constructor
    · intro listedLater thread' found' own clone inThreads waiting
      rw [found] at found'
      cases found'
      obtain ⟨p, named⟩ := listedLater clone inThreads thread.pid waiting
      rw [if_pos ⟨rfl, own⟩] at named
      cases named
    · intro collected clone inThreads parent waiting
      have before := listed clone inThreads parent waiting
      rw [← find_eq] at before
      rw [if_neg]
      · exact before
      · rintro ⟨rfl, own⟩
        exact collected thread found own clone inThreads waiting

theorem serve_step (kept : Kept system) (listed : ParentsListed system) {event : World.Event} {later : System}
    (enabled : system.Enabled (.serve event)) (performed : system.perform (.serve event) = .ok later) :
    Kept later ∧ ParentsListed later := by
  obtain ⟨admissible, foreign⟩ := enabled
  obtain ⟨world, handled, performed⟩ := ok_of_bind performed
  cases performed
  have change := handle_change kept.served admissible handled
  -- A process that ends has the pid of no thread.
  have apart : ∀ thread ∈ system.threads, ∀ p ∈ ends event, ∀ e, (registry system.world).entries[p]? = some e →
      e.pid ≠ thread.pid := by
    intro thread member p isEnding e foundEntry
    cases event with
    | eof watch =>
      cases isEnding
      obtain ⟨process, found, _⟩ := kept.served.watched watch admissible
      rw [entry_of_process found] at foundEntry
      cases foundEntry
      exact (foreign watch rfl process found thread member).symm
    | run _ | startInput _ | stopInput _ | clearInput _ | connect _ _ | message _ _ _ => cases isEnding
  constructor
  · exact kept.setWorld (kept.served.step (World.step_iff.mpr ⟨event, admissible, handled⟩)) change
      fun thread member _ _ => apart thread member
  · refine listed.setWorld change fun thread member parent waiting p isEnding e foundEntry => ?_
    obtain ⟨other, inThreads, rfl⟩ := kept.family thread member parent waiting.1
    exact apart other inThreads p isEnding e foundEntry

theorem step_iff (kept : Kept system) (never : NeverAborts system) {event : Event} {later : System}
    (enabled : system.Enabled event) (performed : system.perform event = .ok later) :
    Kept later ∧ (NeverAborts later ↔ Collected system event) := by
  have listed := (neverAborts_iff kept).mp never
  have always : Kept later ∧ ParentsListed later → Kept later ∧ (NeverAborts later ↔ True) := fun both =>
    ⟨both.1, iff_of_true ((neverAborts_iff both.1).mpr both.2) trivial⟩
  cases event with
  | clone t pid => exact always (clone_step kept listed enabled performed)
  | report t =>
    obtain ⟨thread, found, _⟩ := enabled
    simp only [System.perform, found, ok_bind] at performed
    cases performed
    have set := @Kept.setThread _ _ _ kept found { thread with connecting := true } rfl rfl rfl id
    exact always ⟨set.1, set.2 listed⟩
  | accept t channel => exact always (accept_step kept listed enabled performed)
  | exit t =>
    obtain ⟨thread, found, _⟩ := enabled
    simp only [System.perform, found, ok_bind] at performed
    cases performed
    have set := @Kept.setThread _ _ _ kept found { thread with exited := true } rfl rfl rfl (fun alive => by cases alive)
    exact always ⟨set.1, set.2 listed⟩
  | eof t watch =>
    obtain ⟨keptLater, listed_iff⟩ := eof_step kept listed enabled performed
    exact ⟨keptLater, (neverAborts_iff keptLater).trans listed_iff⟩
  | serve event => exact always (serve_step kept listed enabled performed)

end Step

/-! ## Runs -/

theorem kept_start {world : World} (reachable : world.Reachable) {p : ProcId} {pid : Pid}
    (listed : world.mpServerFindProcess pid = some p) : Kept (start world p pid) := by
  have served := reachable_served reachable
  obtain ⟨named, process, found, same⟩ := served.listed pid p listed
  refine ⟨served, by simp [start], ?_, ?_, ?_, ?_⟩
  · intro thread member
    rw [List.mem_singleton.mp member]
    exact named
  · intro thread member q owned
    rw [List.mem_singleton.mp member] at owned
    cases owned
    exact ⟨entry process, entry_of_process found, by rw [List.mem_singleton.mp member]; exact same⟩
  · intro thread member _ _
    rw [List.mem_singleton.mp member, ← find_eq]
    exact ⟨p, listed⟩
  · intro thread member parent isParent
    rw [List.mem_singleton.mp member] at isParent
    cases isParent

theorem neverAborts_start {world : World} {p : ProcId} {pid : Pid} : NeverAborts (start world p pid) := by
  intro thread member parent waiting
  rw [List.mem_singleton.mp member] at waiting
  cases waiting.1

/-- From any reachable state in which a program is traced, and in any order of its clones'
reports and ends and of what the server handles: in every state whichever clone connects
next finds its parent, exactly if no end of a channel was handled while a clone of its
thread was still to connect. -/
theorem run_neverAborts_iff {world : World} (reachable : world.Reachable) {p : ProcId} {pid : Pid}
    (listed : world.mpServerFindProcess pid = some p) {events : List Event} {last : System}
    (ran : run world p pid events = .ok last) (possible : Possible world p pid events) :
    (∀ earlier reached, earlier <+: events → run world p pid earlier = .ok reached → NeverAborts reached) ↔
      ∀ earlier event reached, earlier ++ [event] <+: events → run world p pid earlier = .ok reached →
        Collected reached event :=
  @foldlM_always_iff _ _ _ System.perform Kept NeverAborts System.Enabled Collected (start world p pid)
    ⟨kept_start reachable listed, neverAborts_start⟩
    (fun _ _ _ kept never enabled performed => step_iff kept never enabled performed) events last ran possible

/-- A clone ends after the clone it has made itself has connected. -/
theorem run_neverAborts_iff_nested :
    let events : List Event := [.clone 0 101, .report 1, .accept 1 2, .clone 1 102, .report 2, .accept 2 3, .exit 1,
      .eof 1 ⟨2, 2, 1⟩]
    ∃ last, run (tracing false) 0 100 events = .ok last ∧
      ((∀ earlier reached, earlier <+: events → run (tracing false) 0 100 earlier = .ok reached → NeverAborts reached) ↔
        ∀ earlier event reached, earlier ++ [event] <+: events → run (tracing false) 0 100 earlier = .ok reached →
          Collected reached event) := by
  intro events
  have returns : (run (tracing false) 0 100 events).toOption.isSome = true := by decide +kernel
  obtain ⟨last, returned⟩ := Option.isSome_iff_exists.mp returns
  have ran := ok_of_toOption returned
  exact ⟨last, ran, run_neverAborts_iff (tracing_reachable false) rfl ran (by decide +kernel)⟩

/-- A clone ends before the clone it has made itself reports: the profiler is aborted. -/
theorem run_aborts : ∃ events last,
    run (tracing false) 0 100 events = .ok last ∧ Possible (tracing false) 0 100 events ∧
      last.Enabled (.accept 2 3) ∧ last.perform (.accept 2 3) = .error .gError := by
  refine ⟨[.clone 0 101, .report 1, .accept 1 2, .clone 1 102, .exit 1, .eof 1 ⟨2, 2, 1⟩, .report 2], ?_⟩
  have computed : ∃ last, run (tracing false) 0 100 [.clone 0 101, .report 1, .accept 1 2, .clone 1 102, .exit 1,
      .eof 1 ⟨2, 2, 1⟩, .report 2] = .ok last ∧ (last.Enabled (.accept 2 3) ∧
        ∃ thread ∈ last.threads[2]?, last.world.mpServerFindProcess (System.cloneInfo thread).pid = none) :=
    exists_ok_of_any (by decide +kernel)
  obtain ⟨last, ran, enabled, thread, found, absent⟩ := computed
  have foundThread : last.thread 2 = .ok thread := by
    rw [System.thread, Option.mem_def.mp found]
  refine ⟨last, ran, by decide +kernel, enabled, ?_⟩
  have aborted : last.world.controlFunc 3 (System.cloneInfo thread) = .error .gError := by
    show last.world.controlClone 3 (System.cloneInfo thread) = _
    rw [World.controlClone, absent]
  simp only [System.perform, foundThread, ok_bind, aborted]
  rfl

end Memprof.Cloning
