import Memprof.Verified.CloneGroups

/-! # Chains of clones

A clone is linked to a process that is there before it, and no link ever changes.  So the
links form no cycle, whatever pids are used again and whoever takes an entry of the table,
and each process has one root, which all the loops that climb the links find.
-/

namespace Memprof.CloneGroups

open Library Accounting Serving Registration

/-- What comes after `process->clone_of = parent_process` in the `case MI_CLONE`: the new process
is put into the table, and the loop goes from the parent to its root. -/
def controlCloneWalk (world : World) (info : MIInfoFork) : Except Fault ProcId := do
  match world.mpServerFindProcess info.pid with
  | none => .error .gError
  | some parent =>
    let (world, q) := world.processNew
    let world ← world.setStatus q .running
    let process ← world.process q
    let world := world.setProcess q { process with cloneOf := some parent, pid := info.newPid }
    let world ← world.mpServerAddProcess q
    world.rootOf parent

/-- The processes of `world` are there later, with the links they have. -/
def KeepsLinks (world later : World) : Prop :=
  ∀ (p : ProcId) (process : MPProcess), world.processes[p]? = some process →
    ∃ process', later.processes[p]? = some process' ∧ process'.cloneOf = process.cloneOf

/-! ## Roots -/

theorem endsAt_of_rootOf {world : World} {p r : ProcId} (rooted : world.rootOf p = .ok r) :
    EndsAt world.processes MPProcess.cloneOf p r := by
  unfold World.rootOf at rooted
  split at rooted
  next found =>
    cases rooted
    exact search_endsAt found
  next => cases rooted

theorem exists_root {world : World} (older : Older world.processes MPProcess.cloneOf) {p : ProcId} {process : MPProcess}
    (found : world.process p = .ok process) :
    ∃ r, world.rootOf p = .ok r ∧ EndsAt world.processes MPProcess.cloneOf p r := by
  obtain ⟨r, _, rooted, _⟩ := rootOf_ok older found
  exact ⟨r, rooted, endsAt_of_rootOf rooted⟩

/-- Processes that keep their links keep their roots. -/
theorem rootOf_kept {world later : World} (older : Older later.processes MPProcess.cloneOf)
    (keeps : KeepsLinks world later) {p r : ProcId} {process : MPProcess} (found : world.process p = .ok process)
    (rooted : world.rootOf p = .ok r) : later.rootOf p = .ok r := by
  obtain ⟨process', held, _⟩ := keeps p process (World.process_eq_ok.mp found)
  obtain ⟨r', rooted', ends'⟩ := exists_root older (World.process_eq_ok.mpr held)
  have ends := (endsAt_of_rootOf rooted).kept keeps
  rw [rooted', ends'.unique ends]

/-! ## Steps -/

theorem keepsLinks_append {world later : World} {process : MPProcess}
    (appended : later.processes = world.processes ++ [process]) : KeepsLinks world later := by
  intro p other held
  exact ⟨other, by rw [appended, List.getElem?_append_left (List.getElem?_eq_some_iff.mp held).1, held], rfl⟩

theorem step_keepsLinks {world later : World} (served : Served world) (taken : World.Step world later) :
    KeepsLinks world later := by
  obtain ⟨event, admissible, handled⟩ := World.step_iff.mp taken
  have change := handle_change served admissible handled
  intro p process held
  obtain ⟨e, held', same⟩ := change.kept (entry_of_process (World.process_eq_ok.mpr held))
  rw [registry, List.getElem?_map, Option.map_eq_some_iff] at held'
  obtain ⟨process', heldLater, rfl⟩ := held'
  exact ⟨process', heldLater, congrArg Entry.cloneOf same⟩

theorem steps_keepLinks {world later : World} (served : Served world)
    (steps : Relation.ReflTransGen World.Step world later) : KeepsLinks world later ∧ Served later := by
  induction steps with
  | refl => exact ⟨fun p process held => ⟨process, held, rfl⟩, served⟩
  | tail _ taken inductionHypothesis =>
    obtain ⟨keeps, servedMiddle⟩ := inductionHypothesis
    refine ⟨fun p process held => ?_, servedMiddle.step taken⟩
    obtain ⟨middle, heldMiddle, sameMiddle⟩ := keeps p process held
    obtain ⟨process', heldLater, same⟩ := step_keepsLinks servedMiddle taken p middle heldMiddle
    exact ⟨process', heldLater, same.trans sameMiddle⟩

/-! ## The loops -/

theorem prepareInput_root {world : World} (served : Served world) {watch : Watch} (member : watch ∈ world.watches)
    (info : MIInfo) (frames : List Addr) :
    ∃ prepared stack, world.prepareInput watch.process info frames = .ok (prepared, stack) ∧
      prepared.rootOf watch.process = world.rootOf watch.process := by
  obtain ⟨process, found, _, connected⟩ := served.watched watch member
  obtain ⟨prepared, stack, process', ran, replaces, same, _⟩ := prepareInput_ok served.sound found connected info frames
  exact ⟨prepared, stack, ran, rootOf_congr (links_set found replaces.processes (by rw [same])) _⟩

/-- The new process is a clone of the parent, not the other way round. -/
theorem controlCloneWalk_eq {world : World} (served : Served world) {info : MIInfoFork} {parent : ProcId}
    (listed : world.mpServerFindProcess info.pid = some parent) :
    controlCloneWalk world info = world.rootOf parent := by
  obtain ⟨_, process, found, _⟩ := served.listed _ parent listed
  obtain ⟨r, rooted, _⟩ := exists_root served.older found
  have made : world.processNew.1.processes = world.processes ++ [({} : MPProcess)] := rfl
  have running := set_of_append made { status := .running }
  have linked := set_of_append running { status := .running, cloneOf := some parent, pid := info.newPid }
  have inside := (List.getElem?_eq_some_iff.mp (World.process_eq_ok.mp found)).1
  have older : Older (world.processes ++ [({ status := .running, cloneOf := some parent, pid := info.newPid } : MPProcess)])
      MPProcess.cloneOf := served.older.append (by rintro _ ⟨⟩; exact inside)
  have position : world.processNew.2 = world.processes.length := rfl
  rw [controlCloneWalk, listed]
  simp only [position, setStatus_eq (process_of_append made), ok_bind, process_of_append running,
    mpServerAddProcess_eq (process_of_append linked), rooted]
  refine @rootOf_kept world _ ?_ (keepsLinks_append linked) _ _ _ found rooted
  rw [← linked] at older
  exact older

/-! ## Reachable states -/

/-- The links form no cycle, and end for each process at one root, which it keeps in every later
state; the loops in `input_func`, in `control_func` and in `add_clone` find it. -/
structure ChainsEnd (world : World) : Prop where
  acyclic : ∀ p, ¬ Relation.TransGen (LinksTo world.processes MPProcess.cloneOf) p p
  root : ∀ p process, world.process p = .ok process → ∃ r, EndsAt world.processes MPProcess.cloneOf p r ∧
    (∀ other, EndsAt world.processes MPProcess.cloneOf p other → other = r) ∧
    ∀ later, Relation.ReflTransGen World.Step world later →
      later.rootOf p = .ok r ∧ EndsAt later.processes MPProcess.cloneOf p r
  input : ∀ watch ∈ world.watches, ∀ info frames, ∃ prepared stack r,
    world.prepareInput watch.process info frames = .ok (prepared, stack) ∧
      prepared.rootOf watch.process = .ok r ∧ world.rootOf watch.process = .ok r
  control : ∀ info parent, world.mpServerFindProcess info.pid = some parent →
    ∃ r, controlCloneWalk world info = .ok r ∧ world.rootOf parent = .ok r
  clones : ∀ r, ∃ clones, world.mpServerGetProcessClones r = .ok clones ∧
    ∀ q, q ∈ clones ↔ world.rootOf q = .ok r ∧ ∃ pid, world.mpServerFindProcess pid = some q

theorem chains_end {world : World} (reachable : world.Reachable) : ChainsEnd world := by
  have served := reachable_served reachable
  refine ⟨acyclic_of_older served.older, ?_, ?_, ?_, ?_⟩
  · intro p process found
    obtain ⟨r, rooted, ends⟩ := exists_root served.older found
    refine ⟨r, ends, fun other ends' => ends'.unique ends, fun later steps => ?_⟩
    obtain ⟨keeps, servedLater⟩ := steps_keepLinks served steps
    exact ⟨rootOf_kept servedLater.older keeps found rooted, ends.kept keeps⟩
  · intro watch member info frames
    obtain ⟨process, found, _⟩ := served.watched watch member
    obtain ⟨r, rooted, _⟩ := exists_root served.older found
    obtain ⟨prepared, stack, ran, same⟩ := prepareInput_root served member info frames
    exact ⟨prepared, stack, r, ran, same.trans rooted, rooted⟩
  · intro info parent listed
    obtain ⟨_, process, found, _⟩ := served.listed _ parent listed
    obtain ⟨r, rooted, _⟩ := exists_root served.older found
    exact ⟨r, (controlCloneWalk_eq served listed).trans rooted, rooted⟩
  · intro r
    obtain ⟨clones, ran, _, members⟩ := getProcessClones_ok served r
    exact ⟨clones, ran, members⟩

/-- A thread that has the pid of its program takes its entry, and the next thread is a clone of
the thread. -/
theorem chains_end_displaced : ∃ world, run false false [.run 100, .connect 1 (newProcessInfo 100 0 .new),
    .connect 2 (newProcessInfo 100 100 .clone), .connect 3 (newProcessInfo 101 100 .clone)] = .ok world ∧
      world.rootOf 2 = .ok 0 ∧ ChainsEnd world := by
  obtain ⟨world, ran, rooted⟩ : ∃ world, run false false [.run 100, .connect 1 (newProcessInfo 100 0 .new),
      .connect 2 (newProcessInfo 100 100 .clone), .connect 3 (newProcessInfo 101 100 .clone)] = .ok world ∧
        world.rootOf 2 = .ok 0 := exists_ok_of_any (by decide +kernel)
  exact ⟨world, ran, rooted, chains_end (reachable_iff.mpr ⟨false, false, _, ran, by decide +kernel⟩)⟩

end Memprof.CloneGroups
