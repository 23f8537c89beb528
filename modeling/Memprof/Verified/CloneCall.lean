import Mathlib.Logic.Function.Iterate
import Memprof.CloneCall

/-! # The caller of a clone goes on

The caller looks at a variable on its own stack.  A child that shares its memory sets it
before it runs anything of the program; one with a copy of the memory sets the copy, and
where there is no child nothing sets it.
-/

namespace Memprof.CloneCall

/-- Whenever the underlying `clone` has returned and the child, if there is one, has run
`clone_thunk`, the loop ends, and what is returned is what the underlying `clone` returned. -/
def Resumes (call : Call) : Prop :=
  ∀ state, Reachable call state → Returned state → (∀ child ∈ state.child, child.RanThunk) →
    ∃ n, (poll^[n] state).caller = .returned call.result

/-! ## What holds in every order of steps -/

/-- Where the caller can be, and what the child has done when the two share their memory. -/
structure Consistent (call : Call) (state : State) : Prop where
  waiting : ∀ pid, state.caller = .waiting pid → call.tracing = true ∧ pid = call.result ∧
    (call.outcome ≠ none → state.child ≠ none)
  returned : ∀ pid, state.caller = .returned pid → pid = call.result
  made : state.caller = .cloning → state.child ≠ none
  copied : call.shares → ∀ child ∈ state.child, child.copy = none
  started : call.tracing = true → call.shares → ∀ child ∈ state.child, child.RanThunk → state.data.started = true

variable {call : Call} {state later : State}

theorem consistent_start : Consistent call (start call) := by
  constructor <;> simp [start]

/-- The caller goes on from the underlying `clone`. -/
theorem Consistent.back (consistent : Consistent call state) (present : call.outcome ≠ none → state.child ≠ none) :
    Consistent call { state with caller := call.back } := by
  refine ⟨fun pid waits => ?_, fun pid returned => ?_, fun cloning => ?_, consistent.copied, consistent.started⟩
  · dsimp only [Call.back] at waits
    split at waits
    next tracing =>
      cases waits
      exact ⟨tracing, rfl, present⟩
    next => cases waits
  · dsimp only [Call.back] at returned
    split at returned
    next => cases returned
    next =>
      cases returned
      rfl
  · dsimp only [Call.back] at cloning
    split at cloning <;> cases cloning

/-- The child takes a step, in which it may set `started`. -/
theorem Consistent.child (consistent : Consistent call state) {child child' : Child} {data : CloneData}
    (here : state.child = some child) (copy : child.copy = none → child'.copy = none)
    (started : call.tracing = true → call.shares → child'.RanThunk → data.started = true) :
    Consistent call { state with data := data, child := some child' } where
  waiting pid waits := by
    obtain ⟨tracing, same, _⟩ := consistent.waiting pid waits
    exact ⟨tracing, same, fun _ => Option.some_ne_none _⟩
  returned := consistent.returned
  made _ := Option.some_ne_none _
  copied shares other member := by
    cases member
    exact copy (consistent.copied shares child here)
  started tracing shares other member ran := by
    cases member
    exact started tracing shares ran

theorem Consistent.poll (consistent : Consistent call state) : Consistent call (poll state) := by
  unfold CloneCall.poll
  split
  next pid waits =>
    split
    next =>
      refine ⟨nofun, fun other returned => ?_, nofun, consistent.copied,
        consistent.started⟩
      cases returned
      exact (consistent.waiting pid waits).2.1
    next => exact consistent
  all_goals exact consistent

theorem Consistent.step (consistent : Consistent call state) (stepped : Step call state later) :
    Consistent call later := by
  cases stepped with
  | made calling succeeds =>
    refine ⟨nofun, nofun, fun _ => Option.some_ne_none _, ?_, ?_⟩
    · intro shares child member
      cases member
      exact if_pos shares
    · intro tracing _ child member ran
      cases member
      exact absurd (if_pos tracing) ran.1
  | failed calling fails => exact consistent.back fun succeeds => absurd fails succeeds
  | back cloning _ => exact consistent.back fun _ => consistent.made cloning
  | poll => exact consistent.poll
  | allocate here control => exact consistent.child here id fun _ _ ran => absurd rfl ran.2
  | shared here control common => exact consistent.child here id fun _ _ _ => rfl
  | copied here control own =>
    refine consistent.child here (fun none => absurd (own.symm.trans none) (Option.some_ne_none _)) fun _ shares _ => ?_
    exact absurd (own.symm.trans (consistent.copied shares _ here)) (Option.some_ne_none _)
  | ended here control =>
    refine consistent.child here id fun tracing shares _ => consistent.started tracing shares _ here ?_
    simp [Child.RanThunk, control]

theorem consistent_of_reachable (reachable : Reachable call state) : Consistent call state := by
  induction reachable with
  | start => exact consistent_start
  | step _ stepped inductionHypothesis => exact inductionHypothesis.step stepped

/-! ## Waiting for ever -/

/-- Nothing sets `started` while the caller waits. -/
theorem poll_unstarted (unstarted : state.data.started = false) (n : ℕ) : poll^[n] state = state := by
  refine Function.iterate_fixed ?_ n
  unfold poll
  split
  next => rw [if_neg (by simp [unstarted])]
  all_goals rfl

/-- A failed `clone`. -/
theorem reachable_failed (fails : call.outcome = none) : Reachable call { start call with caller := call.back } :=
  .step .start (.failed rfl fails)

/-- A child with its own memory, which runs all that it has to run before the caller goes on. -/
theorem reachable_copied (tracing : call.tracing = true) (succeeds : call.outcome ≠ none) (apart : ¬ call.shares) :
    ∃ child, child.RanThunk ∧ Reachable call { start call with caller := call.back, child := some child } := by
  have made := Reachable.step .start (@Step.made call (start call) rfl succeeds)
  have thunk : (call.newChild (start call).data).control = .thunk := if_pos tracing
  have copy : (call.newChild (start call).data).copy = some (start call).data := if_neg apart
  have allocated := made.step (.allocate rfl thunk)
  have copied := allocated.step (.copied rfl rfl copy)
  have ended := copied.step (.ended rfl rfl)
  have back := ended.step (.back rfl fun _ child member => by cases member; rfl)
  exact ⟨_, by simp [Child.RanThunk], back⟩

/-- The caller of `__clone` always goes on exactly if it is not traced, or the underlying
`clone` succeeds and the child shares the memory of the caller. -/
theorem resumes_iff (call : Call) :
    Resumes call ↔ call.tracing = false ∨ call.outcome ≠ none ∧ call.shares := by
  constructor
  · intro resumes
    by_contra neither
    rw [not_or, Bool.not_eq_false] at neither
    obtain ⟨tracing, unshared⟩ := neither
    have waits : call.back = .waiting call.result := if_pos tracing
    -- In a state where nothing has set `started` no number of looks ends the loop.
    have stuck : ∀ child, (∀ other ∈ child, Child.RanThunk other) →
        Reachable call { start call with caller := call.back, child := child } → False := by
      intro child ran reachable
      obtain ⟨n, ended⟩ := resumes _ reachable ⟨_, .inl waits⟩ ran
      rw [poll_unstarted (by rfl) n] at ended
      cases waits.symm.trans ended
    by_cases fails : call.outcome = none
    · exact stuck none (fun _ member => by cases member) (reachable_failed fails)
    · obtain ⟨child, ran, reachable⟩ := reachable_copied tracing fails fun shares => unshared ⟨fails, shares⟩
      exact stuck _ (fun other member => by cases member; exact ran) reachable
  · intro condition state reachable returned ran
    have consistent := consistent_of_reachable reachable
    obtain ⟨pid, waits | back⟩ := returned
    · obtain ⟨tracing, rfl, present⟩ := consistent.waiting pid waits
      have ⟨succeeds, shares⟩ := condition.resolve_left (by simp [tracing])
      obtain ⟨child, here⟩ := Option.ne_none_iff_exists'.mp (present succeeds)
      have started := consistent.started tracing shares child here (ran child here)
      refine ⟨1, ?_⟩
      rw [Function.iterate_one, poll, waits]
      dsimp only
      rw [if_pos started]
    · exact ⟨0, back.trans (congrArg Caller.returned (consistent.returned pid back))⟩

/-- A `clone` with a stack of `NULL`, which the kernel refuses. -/
theorem resumes_refused :
    ¬ Resumes { tracing := true, fn := 4096, arg := 0, flags := cloneVm, pid := 9, outcome := none } := by
  intro resumes
  obtain ⟨n, ended⟩ := resumes _ (reachable_failed rfl) ⟨-1, .inl rfl⟩ fun _ member => by cases member
  rw [poll_unstarted rfl] at ended
  cases ended

end Memprof.CloneCall
