import Memprof.Verified.Exec
import Memprof.Verified.Registration

/-! # Connections that name a clone

`input_func` applies the commands of a clone to the root of its chain, `control_func`
takes whatever the `pid_table` holds.  A clone never gets the flags of its root, so that a
fork named after it is turned away, and an exec resets the clone while the commands go on
to reach the root.
-/

namespace Memprof.CloneControl

open Library Blocks Accounting Serving Registration Exec

/-- Only processes that the user interface has seen follow their forks and images. -/
def Unfollowed (registry : Registry) : Prop :=
  ∀ e ∈ registry.entries, e.cloneOf.isSome = true → e.followFork = false ∧ e.followExec = false

theorem Unfollowed.change {before after : Registry} {overwrites : Prop} {ending : Option ProcId}
    (unfollowed : Unfollowed before) (change : Change overwrites ending before after) : Unfollowed after := by
  have kept : ∀ {p : ProcId} {e : Entry} {present : Bool}, before.entries[p]? = some e →
      ∀ other ∈ before.entries.set p { e with present := present }, other.cloneOf.isSome = true →
        other.followFork = false ∧ other.followExec = false := by
    intro p e present found other member isClone
    cases List.mem_or_eq_of_mem_set member with
    | inl old => exact unfollowed other old isClone
    | inr same =>
      subst same
      exact unfollowed e (List.mem_of_getElem? found) isClone
  cases change with
  | none _ => exact unfollowed
  | ended found _ _ => exact kept found
  | renewed found _ _ => exact kept found
  | added _ clone _ =>
    intro other member isClone
    cases List.mem_append.mp member with
    | inl old => exact unfollowed other old isClone
    | inr new =>
      rw [List.mem_singleton.mp new] at isClone ⊢
      obtain ⟨parent, linked⟩ := Option.isSome_iff_exists.mp isClone
      exact (clone parent linked).2

theorem reachable_unfollowed {world : World} (reachable : world.Reachable) : Unfollowed (registry world) := by
  obtain ⟨followFork, followExec, steps⟩ := reachable
  induction steps with
  | refl => exact fun e member => by cases member
  | tail before step inductionHypothesis =>
    obtain ⟨event, admissible, handled⟩ := World.step_iff.mp step
    have served := reachable_served ⟨followFork, followExec, before⟩
    exact inductionHypothesis.change (handle_change served admissible handled)

theorem clone_unfollowed {world : World} (reachable : world.Reachable) {p : ProcId} {process : MPProcess}
    (found : world.process p = .ok process) (isClone : process.cloneOf.isSome = true) :
    process.followFork = false ∧ process.followExec = false :=
  reachable_unfollowed reachable (entry process) (List.mem_of_getElem? (entry_of_process found)) isClone

/-! ## What a connection should find -/

/-- A fork is accepted if the root follows its forks, and the child starts where the root is. -/
def ForksAsRoot (world : World) (root : MPProcess) (channel : Channel) (info : MIInfoFork) : Prop :=
  ∃ later response, world.controlFunc channel info = .ok (later, response) ∧
    (response = true ↔ root.followFork = true) ∧
    (response = true → ∃ q child, later.mpServerFindProcess info.newPid = some q ∧ later.process q = .ok child ∧
      contents later.blocks child.table = contents world.blocks root.table ∧ child.bytesUsed = root.bytesUsed ∧
      child.nAllocations = root.nAllocations ∧ child.seqno = root.seqno)

structure Blank (process : MPProcess) : Prop where
  table : process.table = ∅
  bytesUsed : process.bytesUsed = 0
  nAllocations : process.nAllocations = 0
  seqno : process.seqno = 0
  commandQueue : process.commandQueue = []

/-- The process that will apply the commands arriving on the channel starts from nothing. -/
def RestartsRoot (world : World) (channel : Channel) (info : MIInfoFork) : Prop :=
  ∃ later, world.controlFunc channel info = .ok (later, true) ∧ ∃ watch ∈ later.watches, watch.channel = channel ∧
    ∃ r root, later.rootOf watch.process = .ok r ∧ later.process r = .ok root ∧ Blank root

section Clone

variable {world : World} {c r : ProcId} {clone root : MPProcess} {pid : Pid} {channel : Channel} {info : MIInfoFork}

/-- A fork named after a clone is turned away. -/
theorem forksAsRoot_iff (reachable : world.Reachable) (listed : world.mpServerFindProcess info.pid = some c)
    (found : world.process c = .ok clone) (isClone : clone.cloneOf.isSome = true) (forked : info.operation = .fork) :
    ForksAsRoot world root channel info ↔ root.followFork = false := by
  have refused : world.controlFunc channel info = .ok (world, false) := by
    unfold World.controlFunc
    rw [forked]
    simp only
    rw [listed]
    simp only
    rw [found, ok_bind, if_neg (by simp [(clone_unfollowed reachable found isClone).1])]
  unfold ForksAsRoot
  rw [refused]
  constructor
  · rintro ⟨later, response, ran, accepted, _⟩
    cases ran
    simpa using accepted
  · intro follow
    exact ⟨world, false, rfl, by simp [follow], nofun⟩

theorem blank_iff {later : World} (sound : Sound later) (found : later.process r = .ok root) :
    Blank root ↔ StartsAnew later r := by
  constructor
  · exact fun blank => ⟨root, found, blank.seqno, blank.table, blank.commandQueue⟩
  · rintro ⟨root', found', seqno, table, queue⟩
    rw [found] at found'
    cases found'
    have accounts := sound.accounts root (World.mem_of_process found)
    refine ⟨table, ?_, ?_, seqno, queue⟩
    · rw [accounts.bytes, MPProcess.held, table]
      rfl
    · rw [accounts.number, table]
      rfl

/-- An exec named after a clone resets the clone only. -/
theorem restartsRoot_iff (reachable : world.Reachable) (listed : world.mpServerFindProcess info.newPid = some c)
    (found : world.process c = .ok clone) (isClone : clone.cloneOf.isSome = true) (rooted : world.rootOf c = .ok r)
    (foundRoot : world.process r = .ok root) (fresh : world.Fresh channel) (executed : info.operation = .new) :
    RestartsRoot world channel info ↔ Blank root := by
  have served := reachable_served reachable
  obtain ⟨later, tag, ran, servedLater, processes, watches, _⟩ :=
    controlNew_reset served found (clone_unfollowed reachable found isClone).2 fresh listed
  have accepted : world.controlFunc channel info = .ok (later, true) := by
    unfold World.controlFunc
    rw [executed]
    exact ran
  have handed := reset_handedOver_iff served found fresh processes watches
  -- The root is another process than the clone.
  have apart : r ≠ c := by
    rintro rfl
    obtain ⟨root', rootProcess, rooted', foundRoot', isRoot, _⟩ := rootOf_ok served.older found
    rw [rooted] at rooted'
    cases rooted'
    rw [found] at foundRoot'
    cases foundRoot'
    rw [isRoot] at isClone
    cases isClone
  calc RestartsRoot world channel info ↔ HandedOver later true channel := by
        unfold RestartsRoot HandedOver
        rw [accepted]
        constructor
        · rintro ⟨_, same, watch, member, ofChannel, q, other, ran, held, blank⟩
          cases same
          exact ⟨rfl, watch, member, ofChannel, q, ran, (blank_iff servedLater.sound held).mp blank⟩
        · rintro ⟨_, watch, member, ofChannel, q, ran, starts⟩
          obtain ⟨other, held, _⟩ := id starts
          exact ⟨later, rfl, watch, member, ofChannel, q, other, ran, held,
            (blank_iff servedLater.sound held).mpr starts⟩
    _ ↔ RootReady world c := handed
    _ ↔ StartsAnew world r := by
        unfold RootReady
        simp only [rooted, Except.ok.injEq, exists_eq_left', apart, false_or]
    _ ↔ Blank root := (blank_iff served.sound foundRoot).symm

/-- In every reachable state and for every clone that a pid resolves to: a fork named after
it meets what its root asks for exactly if the root does not follow forks, and an exec
restarts the process that the commands reach exactly if that is blank already. -/
theorem clone_transparent_iff (reachable : world.Reachable) (listed : world.mpServerFindProcess pid = some c)
    (found : world.process c = .ok clone) (isClone : clone.cloneOf.isSome = true) (rooted : world.rootOf c = .ok r)
    (foundRoot : world.process r = .ok root) (fresh : world.Fresh channel) :
    (∀ info : MIInfoFork, info.operation = .fork → info.pid = pid → info.newPid ≠ 0 →
      (ForksAsRoot world root channel info ↔ root.followFork = false)) ∧
    ∀ info : MIInfoFork, info.operation = .new → info.newPid = pid →
      (RestartsRoot world channel info ↔ Blank root) := by
  constructor
  · rintro info forked rfl _
    exact forksAsRoot_iff reachable listed found isClone forked
  · rintro info executed rfl
    exact restartsRoot_iff reachable listed found isClone rooted foundRoot fresh executed

end Clone

/-! ## A program with a thread -/

/-- The program follows its forks, its first report came before the thread's. -/
def threaded : List World.Event :=
  [.run 100, .connect 1 (newProcessInfo 100 0 .new), .message ⟨1, 1, 0⟩ { operation := .malloc, newPtr := 16, size := 8 } [4],
    .connect 2 (newProcessInfo 101 100 .clone)]

theorem threaded_reachable : ∃ world : World, run true false threaded = .ok world ∧ world.Reachable ∧ world.Fresh 3 ∧
    world.mpServerFindProcess 101 = some 1 ∧ world.rootOf 1 = .ok 0 ∧
    ∃ clone root, world.process 1 = .ok clone ∧ clone.cloneOf.isSome = true ∧ world.process 0 = .ok root ∧
      root.followFork = true ∧ root.seqno = 1 := by
  have computed : ∃ world, run true false threaded = .ok world ∧ (world.Fresh 3 ∧
      world.mpServerFindProcess 101 = some 1 ∧ world.rootOf 1 = .ok 0 ∧
      (∃ clone ∈ world.processes[1]?, clone.cloneOf.isSome = true) ∧
      ∃ root ∈ world.processes[0]?, root.followFork = true ∧ root.seqno = 1) :=
    exists_ok_of_any (by decide +kernel)
  obtain ⟨world, ran, fresh, listed, rooted, ⟨clone, found, isClone⟩, root, foundRoot, follow, seqno⟩ := computed
  exact ⟨world, ran, reachable_iff.mpr ⟨true, false, threaded, ran, by decide +kernel⟩, fresh, listed, rooted, clone, root,
    World.process_eq_ok.mpr found, isClone, World.process_eq_ok.mpr foundRoot, follow, seqno⟩

theorem clone_transparent_iff_threaded : ∃ (world : World) (root : MPProcess), run true false threaded = .ok world ∧
    world.process 0 = .ok root ∧
    (∀ info : MIInfoFork, info.operation = .fork → info.pid = 101 → info.newPid ≠ 0 →
      (ForksAsRoot world root 3 info ↔ root.followFork = false)) ∧
    ∀ info : MIInfoFork, info.operation = .new → info.newPid = 101 → (RestartsRoot world 3 info ↔ Blank root) := by
  obtain ⟨world, ran, reachable, fresh, listed, rooted, clone, root, found, isClone, foundRoot, _⟩ := threaded_reachable
  exact ⟨world, root, ran, foundRoot, clone_transparent_iff reachable listed found isClone rooted foundRoot fresh⟩

/-- The thread's fork is turned away, and its exec leaves the root where it was. -/
theorem clone_not_transparent :
    ¬ ∀ (world : World) (c r : ProcId) (clone root : MPProcess) (pid : Pid) (channel : Channel), world.Reachable →
      world.mpServerFindProcess pid = some c → world.process c = .ok clone → clone.cloneOf.isSome = true →
      world.rootOf c = .ok r → world.process r = .ok root → world.Fresh channel →
      ForksAsRoot world root channel (newProcessInfo 102 pid .fork) ∨
        RestartsRoot world channel (newProcessInfo pid 0 .new) := by
  intro claim
  obtain ⟨world, _, reachable, fresh, listed, rooted, clone, root, found, isClone, foundRoot, follow, seqno⟩ :=
    threaded_reachable
  cases claim world 1 0 clone root 101 3 reachable listed found isClone rooted foundRoot fresh with
  | inl forks =>
    have turnedAway := (@forksAsRoot_iff world 1 clone root 3 (newProcessInfo 102 101 .fork) reachable listed found
      isClone rfl).mp forks
    rw [follow] at turnedAway
    cases turnedAway
  | inr restarts =>
    have blank := (@restartsRoot_iff world 1 0 clone root 3 (newProcessInfo 101 0 .new) reachable listed found isClone
      rooted foundRoot fresh rfl).mp restarts
    have zero := blank.seqno
    rw [seqno] at zero
    cases zero

end Memprof.CloneControl
