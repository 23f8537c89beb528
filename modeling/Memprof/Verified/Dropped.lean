import Memprof.Verified.Reports

/-! # Reports that are dropped

Only `generate_leak_cb` lets the blocks of an old report go.  Where a window is reset or
freed the list goes and the blocks keep a reference that nothing will ever release, so that
the counts are right as long as no window is reset or freed with a report that lists a block.
-/

namespace Memprof.Dropped

open Library Reports

/-- What the user does with a window and what its process comes to. -/
inductive Operation where
  | report (operation : Reports.Operation)
  | initProcess (w : ℕ) (p : ProcId)
  | processExecReset (p : ProcId)
  | statusChangedCb (w : ℕ)
  | processWindowFree (w : ℕ)

def perform (session : Session) : Operation → Except Fault Session
  | .report operation => Reports.perform session operation
  | .initProcess w p => session.initProcess w p
  | .processExecReset p => session.processExecReset p
  | .statusChangedCb w => session.statusChangedCb w
  | .processWindowFree w => session.processWindowFree w

def run (operations : List Operation) : Except Fault Session := operations.foldlM perform {}

/-- A window lists a block. -/
def Lists (session : Session) (w : ℕ) : Prop := ∃ pwin ∈ session.windows[w]?, pwin.leaks ≠ []

/-- A window that lists a block is reset or freed. -/
def Discards (session : Session) : Operation → Prop
  | .report (.processWindowReset w) => Lists session w
  | .report (.process _) | .report (.processCreated _) | .report (.generateLeakCb _ _ _) | .initProcess _ _ => False
  | .processExecReset p => ∃ w ∈ session.windowsOf p, Lists session w
  | .statusChangedCb w | .processWindowFree w => Lists session w

instance (session : Session) (w : ℕ) : Decidable (Lists session w) := by
  unfold Lists
  infer_instance

instance (session : Session) (operation : Operation) : Decidable (Discards session operation) := by
  unfold Discards
  split <;> infer_instance

/-- Each block is there exactly as long as a table or a report holds it, and is counted for
each of them. -/
def Exact (session : Session) : Prop :=
  ∀ b block, session.world.blocks.get b = some block → block.flags.isRoot = false →
    0 < holders session b ∧ block.refcount = holders session b

/-! ## What the operations keep -/

variable {session later : Session} {roots : List BlockId}

theorem leaks_eq_nil {w : ℕ} (nothing : ¬ Lists session w) {pwin : ProcessWindow}
    (found : session.windows[w]? = some pwin) : pwin.leaks = [] := by
  by_contra lists
  exact nothing ⟨pwin, found, lists⟩

theorem window_eq_ok {w : ℕ} {pwin : ProcessWindow} (read : session.window w = .ok pwin) :
    session.windows[w]? = some pwin := by
  unfold Session.window at read
  split at read
  next found =>
    cases read
    exact found
  next => cases read

/-- Nothing but the process of a window is changed. -/
theorem pinned_setProcess {lost : List BlockId} (pinned : Pinned session roots lost) {w : ℕ} {pwin : ProcessWindow}
    (found : session.windows[w]? = some pwin) (process : Option ProcId) :
    Pinned (session.setWindow w { pwin with process := process }) roots lost := by
  have kept := @Pinned.setWindow session roots lost pinned w pwin { pwin with process := process } found session.world {} 0 _
    (Changes.refl _) [] [] (by simp) (.inl rfl) rfl (pinned.distinct pwin (List.mem_of_getElem? found)) (by simp)
  rwa [List.append_nil, List.append_nil] at kept

theorem pinned_reset (pinned : Pinned session roots []) {w : ℕ} (nothing : ¬ Lists session w)
    (ran : session.processWindowReset w = .ok later) :
    Pinned later roots [] ∧ ∀ w', ¬ Lists session w' → ¬ Lists later w' := by
  obtain ⟨discarded, same, kept⟩ := (pinned.processWindowReset w).of_ok ran
  rw [Session.processWindowReset] at ran
  obtain ⟨pwin, read, ran⟩ := ok_of_bind ran
  have found := window_eq_ok read
  cases ran
  rw [same pwin found, leaks_eq_nil nothing found] at kept
  refine ⟨kept, fun w' unlisted lists => ?_⟩
  obtain ⟨other, held, nonempty⟩ := lists
  rw [Option.mem_def, Session.setWindow, List.getElem?_set] at held
  split at held
  next =>
    split at held
    next =>
      cases held
      exact nonempty rfl
    next => cases held
  next => exact unlisted ⟨other, held, nonempty⟩

theorem pinned_resets {windows : List ℕ} (pinned : Pinned session roots []) (nothing : ∀ w ∈ windows, ¬ Lists session w)
    (ran : windows.foldlM Session.processWindowReset session = .ok later) : Pinned later roots [] := by
  induction windows generalizing session with
  | nil =>
    cases ran
    exact pinned
  | cons w windows inductionHypothesis =>
    rw [List.foldlM_cons] at ran
    obtain ⟨next, first, rest⟩ := ok_of_bind ran
    obtain ⟨kept, still⟩ := pinned_reset pinned (nothing w (by simp)) first
    exact inductionHypothesis kept (fun w' member => still w' (nothing w' (by simp [member]))) rest

theorem pinned_free (pinned : Pinned session roots []) {w : ℕ} (nothing : ¬ Lists session w)
    (ran : session.processWindowFree w = .ok later) : Pinned later roots [] := by
  obtain ⟨pwin, read, ran⟩ := ok_of_bind ran
  have found := window_eq_ok read
  cases ran
  have same : ∀ b, inReports (session.windows.eraseIdx w) b = inReports session.windows b := by
    intro b
    obtain ⟨inside, here⟩ := List.getElem?_eq_some_iff.mp found
    have split := List.take_append_drop w session.windows
    rw [List.drop_eq_getElem_cons inside, here] at split
    rw [inReports, inReports, List.eraseIdx_eq_take_drop_succ]
    conv => rhs; rw [← split]
    simp [leaks_eq_nil nothing found]
  refine ⟨pinned.positive, fun b => ?_, pinned.stashes, pinned.keyed, pinned.nonNull, fun other member => ?_, pinned.rooted⟩
  · rw [pinned.counted b, same b]
  · exact pinned.distinct other (List.mem_of_mem_eraseIdx member)

/-- One operation that drops no report with a block. -/
theorem pinned_perform (pinned : Pinned session roots []) {operation : Operation} (keeps : ¬ Discards session operation)
    (ran : perform session operation = .ok later) : ∃ newRoots, Pinned later (roots ++ newRoots) [] := by
  cases operation with
  | report operation =>
    obtain ⟨newRoots, newLost, kept, nothing⟩ := (pinned.operation operation).of_ok ran
    have kept_ : discards session operation = false := by
      cases operation with
      | processWindowReset w =>
        cases found : session.windows[w]? with
        | none => simp [discards, found]
        | some pwin =>
          have empty : pwin.leaks = [] := leaks_eq_nil keeps found
          simp [discards, found, empty]
      | process _ | processCreated _ | generateLeakCb _ _ _ => rfl
    rw [nothing kept_] at kept
    exact ⟨newRoots, kept⟩
  | initProcess w p =>
    obtain ⟨pwin, read, ran⟩ := ok_of_bind ran
    cases ran
    exact ⟨[], by rw [List.append_nil]; exact pinned_setProcess pinned (window_eq_ok read) _⟩
  | processExecReset p =>
    obtain ⟨world, reset, ran⟩ := ok_of_bind ran
    have gone : Pinned { session with world := world } roots [] :=
      (pinned.processOperation (.processExecReset p)).of_ok reset
    refine ⟨[], ?_⟩
    rw [List.append_nil]
    exact pinned_resets gone (fun w member lists => keeps ⟨w, member, lists⟩) ran
  | statusChangedCb w =>
    refine ⟨[], ?_⟩
    rw [List.append_nil]
    by_cases others : 1 < session.windows.length
    · exact pinned_free pinned keeps ((if_pos others).symm.trans ran)
    · obtain ⟨pwin, read, reset⟩ := ok_of_bind ((if_neg others).symm.trans ran)
      have found := window_eq_ok read
      refine (pinned_reset (pinned_setProcess pinned found none) (fun lists => ?_) reset).1
      obtain ⟨other, held, nonempty⟩ := lists
      rw [Option.mem_def, Session.setWindow, List.getElem?_set_self (List.getElem?_eq_some_iff.mp found).1] at held
      cases held
      have empty : pwin.leaks = [] := leaks_eq_nil keeps found
      exact nonempty empty
  | processWindowFree w => exact ⟨[], by rw [List.append_nil]; exact pinned_free pinned keeps ran⟩

theorem exact_of_pinned (pinned : Pinned session roots []) : Exact session := by
  intro b block live plain
  have refs := Store.refs_of_get live
  have positive := pinned.positive b block live
  have counted := pinned.counted b
  have noRoot : roots.count b = 0 := pinned.count_roots live plain
  rw [refs, ← pinned.holders_eq, noRoot, refs_block, List.count_nil] at counted
  rw [refs_block] at positive
  constructor <;> omega

/-! ## Runs -/

/-- In a run in which no window that lists a block is reset or freed, every dropped report
gives its blocks back. -/
theorem run_gives_back {operations : List Operation}
    (keeps : ∀ earlier operation reached, earlier ++ [operation] <+: operations → run earlier = .ok reached →
      ¬ Discards reached operation) :
    ∀ earlier reached, earlier <+: operations → run earlier = .ok reached → Exact reached := by
  intro earlier reached before ran
  have invariant := @foldlM_invariant _ _ _ perform (fun session => ∃ roots, Pinned session roots [])
    (fun session operation => ¬ Discards session operation) {} ⟨[], pinned_start⟩
    (fun session operation later pinned kept performed => by
      obtain ⟨roots, pinned⟩ := pinned
      obtain ⟨newRoots, pinnedLater⟩ := pinned_perform pinned kept performed
      exact ⟨_, pinnedLater⟩) operations keeps
  obtain ⟨roots, pinned⟩ := invariant earlier reached before ran
  exact exact_of_pinned pinned

/-- A report is made, replaced by another one, and the process execs when the second one is
empty. -/
def replacing : List Operation :=
  leaking.map .report ++ [.report (.generateLeakCb 0 9 (some { peekData := fun _ => none })),
    .report (.process (.processClearInput 0)), .report (.generateLeakCb 0 9 none), .processExecReset 0]

/-- The window of a process that lists a leaked block is reset when the process execs. -/
def dropping : List Operation := leaking.map .report ++ [.processExecReset 0]

theorem run_gives_back_replaced : ∃ session, run replacing = .ok session ∧ holders session 0 = 1 ∧ Exact session := by
  have returns : (run replacing).toOption.any (fun session => decide (holders session 0 = 1)) = true := by decide +kernel
  obtain ⟨session, ran, one⟩ := exists_ok_of_any returns
  exact ⟨session, ran, one, run_gives_back (forall_steps_iff.mp (by decide +kernel)) replacing session (List.prefix_refl _) ran⟩

/-- The block is counted twice, for the table of the copy and for a report that is gone. -/
theorem run_gives_back_dropped : ∃ session, run dropping = .ok session ∧ ¬ Exact session := by
  have returns : (run dropping).toOption.any (fun session => decide (∃ block ∈ session.world.blocks.get 0,
      block.flags.isRoot = false ∧ block.refcount = 2 ∧ holders session 0 = 1)) = true := by decide +kernel
  obtain ⟨session, ran, block, live, plain, two, one⟩ := exists_ok_of_any returns
  refine ⟨session, ran, fun exact_ => ?_⟩
  have counted := (exact_ 0 block live plain).2
  rw [two, one] at counted
  exact absurd counted (by decide)

end Memprof.Dropped
