import Memprof.Intercept
import Memprof.Verified.Serving

/-! # A traced program executes another image

The old channel of the process ends and a `MI_NEW` for the same pid arrives; the main
loop may see either first.  The image is taken over exactly when the connection is seen
first, or the end of the old channel not at all, and the process which its messages are
applied to starts from nothing: for a process that is not a clone the reset sees to that.
-/

namespace Memprof.Exec

open Library Blocks Accounting Serving

/-- What the main loop sees first. -/
inductive Order where
  | eofFirst | newFirst
deriving DecidableEq

/-- `input_func` sees the end of the old channel, if it still listens to it. -/
def closeOld (world : World) (old : Channel) : Except Fault World :=
  match world.watches.find? (·.channel = old) with
  | some watch => world.inputEof watch
  | none => .ok world

/-- The image of `pid` is replaced: `memprof_init` connects again, as `new`. -/
def execHandOver (world : World) (old new : Channel) (pid : Pid) : Order → Except Fault (World × Bool)
  | .eofFirst => do
    let world ← closeOld world old
    world.controlFunc new (newProcessInfo pid 0 .new)
  | .newFirst => do
    let (world, response) ← world.controlFunc new (newProcessInfo pid 0 .new)
    let world ← closeOld world old
    .ok (world, response)

/-- Messages on the channel are applied from seqno `0` on to an empty table. -/
def StartsAnew (world : World) (p : ProcId) : Prop :=
  ∃ process : MPProcess, world.process p = .ok process ∧ process.seqno = 0 ∧ process.table = ∅ ∧
    process.commandQueue = []

def HandedOver (later : World) (response : Bool) (new : Channel) : Prop :=
  response = true ∧ ∃ watch ∈ later.watches, watch.channel = new ∧
    ∃ root, later.rootOf watch.process = .ok root ∧ StartsAnew later root

/-- The old channel is listened to. -/
def Watched (world : World) (old : Channel) : Prop := ∃ watch ∈ world.watches, watch.channel = old

/-- The messages of `p` are applied to `p`, or to a process that has seen none. -/
def RootReady (world : World) (p : ProcId) : Prop :=
  ∃ root, world.rootOf p = .ok root ∧ (root = p ∨ StartsAnew world root)

theorem closeOld_unwatched {world : World} {old : Channel} (unwatched : ¬ Watched world old) :
    closeOld world old = .ok world := by
  have none : world.watches.find? (·.channel = old) = none := by
    rw [List.find?_eq_none]
    intro watch member same
    exact unwatched ⟨watch, member, of_decide_eq_true same⟩
  rw [closeOld, none]

section HandOver

variable {world : World} {p : ProcId} {process : MPProcess} {old new : Channel}

/-- The source of the old channel belongs to the process. -/
theorem watch_process (served : Served world) (found : world.process p = .ok process)
    (connected : process.inputChannel = some old) {watch : Watch} (member : watch ∈ world.watches)
    (channel : watch.channel = old) : watch.process = p := by
  obtain ⟨owner, held, _, ownerChannel⟩ := served.watched watch member
  exact served.channels _ _ owner process old held found (channel ▸ ownerChannel) connected

/-- After the reset nothing listens to the old channel. -/
theorem reset_unwatched (served : Served world) (found : world.process p = .ok process)
    (connected : process.inputChannel = some old) (fresh : world.Fresh new) {later : World} {tag : ℕ}
    (watches : later.watches = ⟨tag, new, p⟩ :: stopped world process) : ¬ Watched later old := by
  rintro ⟨watch, member, channel⟩
  rw [watches] at member
  rcases List.mem_cons.mp member with rfl | kept
  · have same : new = old := channel
    exact fresh p process found (same ▸ connected)
  · obtain ⟨member', other⟩ := served.stopped found kept
    exact other (watch_process served found connected member' channel)

/-- The connection is taken over by a process that is reset. -/
theorem reset_handedOver_iff (served : Served world) (found : world.process p = .ok process)
    (fresh : world.Fresh new) {later : World} {tag : ℕ}
    (processes : later.processes = world.processes.set p (attached { reinitialized process with status := .running } new tag))
    (watches : later.watches = ⟨tag, new, p⟩ :: stopped world process) :
    HandedOver later true new ↔ RootReady world p := by
  have here : later.process p = .ok (attached { reinitialized process with status := .running } new tag) :=
    World.process_of_set found processes
  have elsewhere : ∀ q, q ≠ p → later.process q = world.process q := fun _ => World.process_of_set_ne processes
  have roots : later.rootOf p = world.rootOf p := rootOf_congr (links_set found processes rfl) p
  constructor
  · rintro ⟨_, watch, member, channel, root, rooted, starts⟩
    have own : watch.process = p := by
      rw [watches] at member
      rcases List.mem_cons.mp member with rfl | kept
      · rfl
      · obtain ⟨owner, held, _, ownerChannel⟩ := served.watched watch (served.stopped found kept).1
        exact (fresh _ owner held (channel ▸ ownerChannel)).elim
    rw [own, roots] at rooted
    refine ⟨root, rooted, ?_⟩
    by_cases same : root = p
    · exact .inl same
    · right
      rwa [StartsAnew, elsewhere root same] at starts
  · rintro ⟨root, rooted, ready⟩
    refine ⟨rfl, ⟨tag, new, p⟩, by rw [watches]; exact List.mem_cons_self, rfl, root, by rw [roots, rooted], ?_⟩
    by_cases same : root = p
    · rw [same]
      exact ⟨_, here, rfl, rfl, rfl⟩
    · rw [StartsAnew, elsewhere root same]
      exact ready.resolve_left same

/-- When the old channel has ended first, the process is not found and the image is
turned away. -/
theorem eof_turned_away (served : Served world) (found : world.process p = .ok process)
    (listed : world.mpServerFindProcess process.pid = some p) (connected : process.inputChannel = some old)
    (watched : Watched world old) :
    ∃ later, execHandOver world old new process.pid .eofFirst = .ok (later, false) := by
  obtain ⟨watch, first⟩ : ∃ watch, world.watches.find? (·.channel = old) = some watch := by
    obtain ⟨watch, member, channel⟩ := watched
    exact Option.isSome_iff_exists.mp (List.find?_isSome.mpr ⟨watch, member, by simpa using channel⟩)
  have member := List.mem_of_find?_eq_some first
  have channel : watch.channel = old := by simpa using List.find?_some first
  have own := watch_process served found connected member channel
  rw [← own] at found listed
  obtain ⟨closed, ran, servedClosed, _, table, _⟩ := inputEof_ok served member found
  have absent : closed.mpServerFindProcess process.pid = none := by
    unfold World.mpServerFindProcess at listed ⊢
    rw [table, unlisted]
    cases entries : world.pidTable with
    | none => rfl
    | some entries' =>
      rw [entries] at listed
      simp only at listed
      simp only [Option.map_some, listed, if_true, AList.lookup_erase]
  have noParent : closed.mpServerFindProcess 0 = none := by
    cases parent : closed.mpServerFindProcess 0 with
    | none => rfl
    | some q => exact absurd rfl (servedClosed.listed 0 q parent).1
  refine ⟨closed, ?_⟩
  rw [execHandOver, closeOld, first]
  simp only
  rw [ran, ok_bind, World.controlFunc, newProcessInfo]
  simp only [World.controlNew, absent, noParent]

/-- In every reachable state both orders of a traced process's exec end without a fault;
the new image is taken over if and only if the end of the old channel is not seen first,
and the process that its messages go to starts from nothing. -/
theorem exec_handedOver_iff (reachable : world.Reachable) (listed : world.mpServerFindProcess process.pid = some p)
    (found : world.process p = .ok process) (follow : process.followExec = false)
    (connected : process.inputChannel = some old) (fresh : world.Fresh new) (order : Order) :
    ∃ later response, execHandOver world old new process.pid order = .ok (later, response) ∧
      (HandedOver later response new ↔ (order = .newFirst ∨ ¬ Watched world old) ∧ RootReady world p) := by
  have served := reachable_served reachable
  have named : world.mpServerFindProcess (newProcessInfo process.pid 0 .new).newPid = some p := listed
  obtain ⟨reset, tag, ran, _, processes, watches, _⟩ := controlNew_reset served found follow fresh named
  have accepted : world.controlFunc new (newProcessInfo process.pid 0 .new) = .ok (reset, true) := ran
  have taken := reset_handedOver_iff served found fresh processes watches
  cases order with
  | newFirst =>
    refine ⟨reset, true, ?_, by simpa using taken⟩
    rw [execHandOver, accepted, ok_bind]
    simp only
    rw [closeOld_unwatched (reset_unwatched served found connected fresh watches), ok_bind]
  | eofFirst =>
    by_cases watched : Watched world old
    · obtain ⟨later, turnedAway⟩ := eof_turned_away served found listed connected watched
      refine ⟨later, false, turnedAway, ?_⟩
      constructor
      · intro handed; exact absurd handed.1 nofun
      · rintro ⟨ordered | unwatched, _⟩
        · cases ordered
        · exact (unwatched watched).elim
    · refine ⟨reset, true, ?_, by simpa [watched] using taken⟩
      rw [execHandOver, closeOld_unwatched watched, ok_bind, accepted]

end HandOver

/-! ## A program that was started and has connected -/

theorem exec_handedOver_iff_tracing :
    ∃ later response, execHandOver (tracing false) 1 2 (traced false).pid .newFirst = .ok (later, response) ∧
      (HandedOver later response 2 ↔ (Order.newFirst = .newFirst ∨ ¬ Watched (tracing false) 1) ∧ RootReady (tracing false) 0) :=
  exec_handedOver_iff (tracing_reachable false) rfl rfl rfl rfl (World.fresh_of_single rfl (by decide)) .newFirst

/-- The image is turned away when the end of the old channel is seen first. -/
theorem exec_turned_away :
    ¬ ∀ (world : World) (p : ProcId) (process : MPProcess) (old new : Channel) (order : Order), world.Reachable →
      world.mpServerFindProcess process.pid = some p → world.process p = .ok process → process.followExec = false →
      process.inputChannel = some old → world.Fresh new →
      ∃ later response, execHandOver world old new process.pid order = .ok (later, response) ∧
        HandedOver later response new := by
  intro claim
  have fresh : (tracing false).Fresh 2 := World.fresh_of_single rfl (by decide)
  obtain ⟨later, response, ran, handed⟩ :=
    claim (tracing false) 0 (traced false) 1 2 .eofFirst (tracing_reachable false) rfl rfl rfl rfl fresh
  have watched : Watched (tracing false) 1 := ⟨⟨1, 1, 0⟩, List.mem_singleton.mpr rfl, rfl⟩
  have found : (tracing false).process 0 = .ok (traced false) := rfl
  obtain ⟨_, turnedAway⟩ : ∃ later, execHandOver (tracing false) 1 2 (traced false).pid .eofFirst =
      .ok (later, false) :=
    eof_turned_away (reachable_served (tracing_reachable false)) found rfl rfl watched
  rw [turnedAway] at ran
  cases ran
  exact absurd handed.1 nofun

end Memprof.Exec
