import Mathlib.Data.List.Forall2
import Mathlib.Data.List.Induction

/-! # Outcomes of fallible programs

`Ensures allowed outcome post` says that the program either returns a value with
`post` or ends in a fault that `allowed` admits; with `allowed` empty it says that the
program returns.  The rules are those of a Hoare logic for `Except`.
-/

namespace Memprof.Library

variable {ε α β : Type}

def Ensures (allowed : ε → Prop) (outcome : Except ε α) (post : α → Prop) : Prop :=
  match outcome with
  | .ok result => post result
  | .error fault => allowed fault

theorem ensures_ok {allowed : ε → Prop} {post : α → Prop} {result : α} (holds : post result) :
    Ensures allowed (.ok result) post := holds

theorem ensures_error {allowed : ε → Prop} {post : α → Prop} {fault : ε} (admitted : allowed fault) :
    Ensures allowed (.error fault) post := admitted

theorem ok_bind (result : α) (next : α → Except ε β) : (Except.ok result >>= next) = next result := rfl

theorem ok_of_bind {outcome : Except ε α} {next : α → Except ε β} {result : β}
    (returned : outcome >>= next = .ok result) : ∃ middle, outcome = .ok middle ∧ next middle = .ok result := by
  cases outcome with
  | ok middle => exact ⟨middle, rfl, returned⟩
  | error fault => cases returned

theorem ok_of_map {outcome : Except ε α} {f : α → β} {result : β} (returned : outcome.map f = .ok result) :
    ∃ value, outcome = .ok value ∧ f value = result := by
  cases outcome with
  | ok value => exact ⟨value, rfl, Except.ok.inj returned⟩
  | error fault => cases returned

theorem ok_of_toOption {outcome : Except ε α} {result : α} (returned : outcome.toOption = some result) :
    outcome = .ok result := by
  cases outcome with
  | ok _ => exact congrArg Except.ok (Option.some.inj returned)
  | error fault => cases returned

theorem exists_ok_of_any {outcome : Except ε α} {property : α → Prop} [DecidablePred property]
    (returned : outcome.toOption.any (fun result => decide (property result)) = true) :
    ∃ result, outcome = .ok result ∧ property result := by
  cases outcome with
  | ok result => exact ⟨result, rfl, of_decide_eq_true returned⟩
  | error fault => cases returned

theorem mapM_ok {f : α → Except ε β} {g : α → β} {items : List α} (each : ∀ item ∈ items, f item = .ok (g item)) :
    items.mapM f = .ok (items.map g) := by
  induction items with
  | nil => rfl
  | cons item items inductionHypothesis =>
    rw [List.mapM_cons, each item (by simp), ok_bind, inductionHypothesis fun other member => each other (by simp [member]),
      ok_bind]
    rfl

/-- Each result knows its item. -/
theorem map_of_mapM {f : α → Except ε β} {key : β → α} {items : List α} {results : List β}
    (keyed : ∀ item result, f item = .ok result → key result = item) (ran : items.mapM f = .ok results) :
    results.map key = items := by
  induction items generalizing results with
  | nil =>
    cases ran
    rfl
  | cons item items inductionHypothesis =>
    rw [List.mapM_cons] at ran
    obtain ⟨first, ranFirst, ran⟩ := ok_of_bind ran
    obtain ⟨others, ranOthers, ran⟩ := ok_of_bind ran
    cases ran
    rw [List.map_cons, keyed item first ranFirst, inductionHypothesis ranOthers]

theorem exists_mapM_ok {f : α → Except ε β} {items : List α} (each : ∀ item ∈ items, ∃ result, f item = .ok result) :
    ∃ results, items.mapM f = .ok results ∧ ∀ result, result ∈ results ↔ ∃ item ∈ items, f item = .ok result := by
  induction items with
  | nil => exact ⟨[], rfl, by simp⟩
  | cons item items inductionHypothesis =>
    obtain ⟨first, ran⟩ := each item (by simp)
    obtain ⟨others, ranOthers, members⟩ := inductionHypothesis fun other member => each other (by simp [member])
    refine ⟨first :: others, by rw [List.mapM_cons, ran, ok_bind, ranOthers, ok_bind]; rfl, fun result => ?_⟩
    rw [List.mem_cons, members]
    simp only [List.mem_cons, exists_eq_or_imp, ran, Except.ok.injEq, @eq_comm _ first]

theorem ok_of_mapM {f : α → Except ε β} {items : List α} {results : List β} (returned : items.mapM f = .ok results) :
    ∀ item ∈ items, ∃ result, f item = .ok result := by
  induction items generalizing results with
  | nil => simp
  | cons item items inductionHypothesis =>
    rw [List.mapM_cons] at returned
    obtain ⟨first, ran, rest⟩ := ok_of_bind returned
    obtain ⟨others, ranOthers, _⟩ := ok_of_bind rest
    exact List.forall_mem_cons.mpr ⟨⟨first, ran⟩, inductionHypothesis ranOthers⟩

/-- Nothing comes of the items after one that fails. -/
theorem mapM_error {f : α → Except ε β} {item : α} {items : List α} {fault : ε} (failed : f item = .error fault) :
    (item :: items).mapM f = .error fault := by
  rw [List.mapM_cons, failed]
  rfl

theorem Ensures.bind {allowed : ε → Prop} {outcome : Except ε α} {next : α → Except ε β} {middle : α → Prop}
    {post : β → Prop} (first : Ensures allowed outcome middle)
    (second : ∀ result, middle result → Ensures allowed (next result) post) :
    Ensures allowed (outcome >>= next) post := by
  cases outcome with
  | ok result => exact second result first
  | error fault => exact first

theorem Ensures.map {allowed : ε → Prop} {outcome : Except ε α} {f : α → β} {post : β → Prop}
    (ensured : Ensures allowed outcome fun result => post (f result)) : Ensures allowed (outcome.map f) post := by
  cases outcome <;> exact ensured

theorem Ensures.of_map {allowed : ε → Prop} {outcome : Except ε α} {f : α → β} {post : β → Prop}
    (ensured : Ensures allowed (outcome.map f) post) : Ensures allowed outcome fun result => post (f result) := by
  cases outcome <;> exact ensured

theorem Ensures.imp {allowed : ε → Prop} {outcome : Except ε α} {post post' : α → Prop}
    (ensured : Ensures allowed outcome post) (weaker : ∀ result, post result → post' result) :
    Ensures allowed outcome post' := by
  cases outcome with
  | ok result => exact weaker result ensured
  | error fault => exact ensured

theorem Ensures.of_ok {allowed : ε → Prop} {outcome : Except ε α} {post : α → Prop}
    (ensured : Ensures allowed outcome post) {result : α} (returned : outcome = .ok result) : post result := by
  subst returned
  exact ensured

/-- Without an admitted fault the program returns. -/
theorem Ensures.exists_ok {outcome : Except ε α} {post : α → Prop}
    (ensured : Ensures (fun _ => False) outcome post) : ∃ result, outcome = .ok result ∧ post result := by
  cases outcome with
  | ok result => exact ⟨result, rfl, ensured⟩
  | error fault => exact ensured.elim

theorem ensures_of_exists {allowed : ε → Prop} {outcome : Except ε α} {post : α → Prop}
    (returned : ∃ result, outcome = .ok result ∧ post result) : Ensures allowed outcome post := by
  obtain ⟨result, rfl, holds⟩ := returned
  exact holds

/-- The rule of a loop over a list: one round keeps the invariant. -/
theorem ensures_foldlM {allowed : ε → Prop} {step : β → α → Except ε β} {items : List α} {invariant : β → Prop}
    (round : ∀ state item, item ∈ items → invariant state → Ensures allowed (step state item) invariant)
    {start : β} (initially : invariant start) : Ensures allowed (items.foldlM step start) invariant := by
  induction items generalizing start with
  | nil => exact initially
  | cons item items inductionHypothesis =>
    rw [List.foldlM_cons]
    exact (round start item (by simp) initially).bind fun later held =>
      inductionHypothesis (fun state other member => round state other (by simp [member])) held

theorem foldlM_concat (step : β → α → Except ε β) (items : List α) (item : α) (start : β) :
    (items ++ [item]).foldlM step start = items.foldlM step start >>= fun state => step state item := by
  rw [List.foldlM_append]
  cases items.foldlM step start with
  | error fault => rfl
  | ok state => simp only [ok_bind, List.foldlM_cons, List.foldlM_nil]; exact bind_pure _

/-- The steps of a run, by their position. -/
theorem forall_steps_iff {step : β → α → Except ε β} {start : β} {items : List α} {property : β → α → Prop} :
    (∀ i ∈ List.range items.length, ∀ reached ∈ ((items.take i).foldlM step start).toOption, ∀ item ∈ items[i]?,
      property reached item) ↔
    ∀ earlier item reached, earlier ++ [item] <+: items → earlier.foldlM step start = .ok reached →
      property reached item := by
  constructor
  · intro all earlier item reached before ran
    have short := before.length_le
    simp only [List.length_append, List.length_singleton] at short
    have taken : items.take earlier.length = earlier :=
      (List.prefix_iff_eq_take.mp ((List.prefix_append earlier [item]).trans before)).symm
    refine all earlier.length (List.mem_range.mpr (by omega)) reached (by rw [taken, ran]; rfl) item ?_
    obtain ⟨rest, rfl⟩ := before
    simp
  · intro all i _ reached ran item listed
    obtain ⟨inside, rfl⟩ := List.getElem?_eq_some_iff.mp listed
    refine all (items.take i) items[i] reached ?_ (ok_of_toOption ran)
    rw [List.take_append_getElem inside]
    exact List.take_prefix _ _

/-- What each possible step keeps holds in every state of a run whose steps are possible. -/
theorem foldlM_invariant {step : β → α → Except ε β} {invariant : β → Prop} {possible : β → α → Prop} {start : β}
    (initially : invariant start)
    (round : ∀ state item later, invariant state → possible state item → step state item = .ok later → invariant later)
    {items : List α} (taken : ∀ earlier item reached, earlier ++ [item] <+: items →
      earlier.foldlM step start = .ok reached → possible reached item) :
    ∀ earlier reached, earlier <+: items → earlier.foldlM step start = .ok reached → invariant reached := by
  intro earlier
  induction earlier using List.reverseRecOn with
  | nil =>
    intro reached _ ranEarlier
    cases ranEarlier
    exact initially
  | append_singleton earlier item inductionHypothesis =>
    intro reached before ranEarlier
    rw [foldlM_concat] at ranEarlier
    obtain ⟨middle, ranMiddle, stepped⟩ := ok_of_bind ranEarlier
    have held := inductionHypothesis middle ((List.prefix_append earlier [item]).trans before) ranMiddle
    exact round middle item reached held (taken earlier item middle before ranMiddle) stepped

/-- A property that each step keeps exactly when it is admitted holds all along a run
exactly when all its steps are admitted; the steps of the run may be known to be possible,
and the first one that is not admitted must be taken. -/
theorem foldlM_holds_iff {step : β → α → Except ε β} {invariant holds : β → Prop} {possible admitted : β → α → Prop}
    {start : β} (initially : invariant start ∧ holds start)
    (round : ∀ state item later, invariant state → holds state → possible state item → step state item = .ok later →
      invariant later ∧ (holds later ↔ admitted state item))
    {items : List α}
    (taken : ∀ earlier item reached, earlier ++ [item] <+: items → earlier.foldlM step start = .ok reached →
      possible reached item)
    (goesOn : ∀ earlier item reached, earlier ++ [item] <+: items → earlier.foldlM step start = .ok reached →
      invariant reached → ¬ admitted reached item → ∃ later, step reached item = .ok later) :
    (∀ earlier reached, earlier <+: items → earlier.foldlM step start = .ok reached → holds reached) ↔
      ∀ earlier item reached, earlier ++ [item] <+: items → earlier.foldlM step start = .ok reached →
        admitted reached item := by
  constructor
  · intro always
    have invariants := @foldlM_invariant _ _ _ step invariant (fun state item => holds state ∧ possible state item) start
      initially.1 (fun state item later kept both stepped => (round state item later kept both.1 both.2 stepped).1) items
      fun earlier item reached before ranEarlier =>
        ⟨always earlier reached ((List.prefix_append earlier [item]).trans before) ranEarlier,
          taken earlier item reached before ranEarlier⟩
    intro earlier item reached before ranEarlier
    have shorter := (List.prefix_append earlier [item]).trans before
    have kept := invariants earlier reached shorter ranEarlier
    by_contra refused
    obtain ⟨later, stepped⟩ := goesOn earlier item reached before ranEarlier kept refused
    have held : holds later := always _ later before (by rw [foldlM_concat, ranEarlier, ok_bind, stepped])
    exact refused ((round reached item later kept (always earlier reached shorter ranEarlier)
      (taken earlier item reached before ranEarlier) stepped).2.mp held)
  · intro all earlier reached before ranEarlier
    have both := @foldlM_invariant _ _ _ step (fun state => invariant state ∧ holds state)
      (fun state item => admitted state item ∧ possible state item) start initially
      (fun state item later kept steps stepped =>
        have next := round state item later kept.1 kept.2 steps.2 stepped
        ⟨next.1, next.2.mpr steps.1⟩) items
      fun earlier item reached before ranEarlier =>
        ⟨all earlier item reached before ranEarlier, taken earlier item reached before ranEarlier⟩
    exact (both earlier reached before ranEarlier).2

/-- In a run that comes to its end every step is taken. -/
theorem foldlM_always_iff {step : β → α → Except ε β} {invariant holds : β → Prop} {possible admitted : β → α → Prop}
    {start : β} (initially : invariant start ∧ holds start)
    (round : ∀ state item later, invariant state → holds state → possible state item → step state item = .ok later →
      invariant later ∧ (holds later ↔ admitted state item))
    {items : List α} {last : β} (ran : items.foldlM step start = .ok last)
    (taken : ∀ earlier item reached, earlier ++ [item] <+: items → earlier.foldlM step start = .ok reached →
      possible reached item) :
    (∀ earlier reached, earlier <+: items → earlier.foldlM step start = .ok reached → holds reached) ↔
      ∀ earlier item reached, earlier ++ [item] <+: items → earlier.foldlM step start = .ok reached →
        admitted reached item := by
  refine foldlM_holds_iff initially round taken fun earlier item reached before ranEarlier _ _ => ?_
  obtain ⟨rest, rfl⟩ := before
  rw [List.foldlM_append] at ran
  obtain ⟨later, ranLater, _⟩ := ok_of_bind ran
  rw [foldlM_concat, ranEarlier, ok_bind] at ranLater
  exact ⟨later, ranLater⟩

/-- Two programs fault alike or return related values. -/
inductive Agree {α' : Type} (related : α → α' → Prop) : Except ε α → Except ε α' → Prop
  | ok {result : α} {result' : α'} (holds : related result result') : Agree related (.ok result) (.ok result')
  | error (fault : ε) : Agree related (.error fault) (.error fault)

theorem Agree.bind {α' β' : Type} {related : α → α' → Prop} {related' : β → β' → Prop} {outcome : Except ε α}
    {outcome' : Except ε α'} {next : α → Except ε β} {next' : α' → Except ε β'} (first : Agree related outcome outcome')
    (second : ∀ result result', related result result' → Agree related' (next result) (next' result')) :
    Agree related' (outcome >>= next) (outcome' >>= next') := by
  cases first with
  | ok holds => exact second _ _ holds
  | error fault => exact .error fault

theorem Agree.map {α' β' : Type} {related : α → α' → Prop} {related' : β → β' → Prop} {outcome : Except ε α}
    {outcome' : Except ε α'} {f : α → β} {f' : α' → β'} (agree : Agree related outcome outcome')
    (kept : ∀ result result', related result result' → related' (f result) (f' result')) :
    Agree related' (outcome.map f) (outcome'.map f') := by
  cases agree with
  | ok holds => exact .ok (kept _ _ holds)
  | error fault => exact .error fault

theorem Agree.exists_of_ok {α' : Type} {related : α → α' → Prop} {result : α} {outcome' : Except ε α'}
    (agree : Agree related (.ok result) outcome') : ∃ result', outcome' = .ok result' ∧ related result result' := by
  cases agree with
  | ok holds => exact ⟨_, rfl, holds⟩

/-- Whatever the first program returns, the second one returns. -/
def Covers (outcome outcome' : Except ε α) : Prop := ∀ result, outcome = .ok result → outcome' = .ok result

theorem Covers.refl (outcome : Except ε α) : Covers outcome outcome := fun _ returned => returned

theorem Covers.bind {outcome outcome' : Except ε α} {next next' : α → Except ε β} (first : Covers outcome outcome')
    (second : ∀ result, Covers (next result) (next' result)) : Covers (outcome >>= next) (outcome' >>= next') := by
  intro result returned
  obtain ⟨middle, ran, returned⟩ := ok_of_bind returned
  rw [first middle ran, ok_bind]
  exact second middle result returned

theorem Covers.foldlM {step step' : β → α → Except ε β}
    (each : ∀ state item, Covers (step state item) (step' state item)) (items : List α) (start : β) :
    Covers (items.foldlM step start) (items.foldlM step' start) := by
  induction items generalizing start with
  | nil => exact .refl _
  | cons item items inductionHypothesis =>
    rw [List.foldlM_cons, List.foldlM_cons]
    exact (each start item).bind inductionHypothesis

/-- A step that follows another one makes a run that follows the other's run. -/
theorem foldlM_follows {β' ε' : Type} {step : β → α → Except ε β} {step' : β' → α → Except ε' β'}
    (related : β → β' → Prop) (follows : ∀ state state' item later, related state state' →
      step state item = .ok later → ∃ later', step' state' item = .ok later' ∧ related later later')
    {items : List α} {start later : β} {start' : β'} (initially : related start start')
    (ran : items.foldlM step start = .ok later) :
    ∃ later', items.foldlM step' start' = .ok later' ∧ related later later' := by
  induction items generalizing start start' with
  | nil => cases ran; exact ⟨start', rfl, initially⟩
  | cons item items inductionHypothesis =>
    rw [List.foldlM_cons] at ran
    obtain ⟨middle, first, rest⟩ := ok_of_bind ran
    obtain ⟨middle', first', held⟩ := follows start start' item middle initially first
    obtain ⟨later', rest', result⟩ := inductionHypothesis held rest
    exact ⟨later', by rw [List.foldlM_cons, first']; exact rest', result⟩

/-- The items one after the other, each with its result, from the state that the one
before has left. -/
inductive Threaded {κ : Type} (step : κ → α → β → κ → Prop) : κ → List α → List β → κ → Prop
  | nil {state : κ} : Threaded step state [] [] state
  | cons {state next later : κ} {item : α} {result : β} {items : List α} {results : List β}
      (first : step state item result next) (rest : Threaded step next items results later) :
      Threaded step state (item :: items) (result :: results) later

theorem exists_threaded {κ : Type} {step : κ → α → β → κ → Prop} {invariant : κ → Prop} {related : α → β → Prop}
    {items : List α} {results : List β} (all : List.Forall₂ related items results)
    (each : ∀ state item result, related item result → invariant state →
      ∃ next, step state item result next ∧ invariant next) {start : κ} (initially : invariant start) :
    ∃ later, Threaded step start items results later ∧ invariant later := by
  induction all generalizing start with
  | nil => exact ⟨start, .nil, initially⟩
  | cons first _ inductionHypothesis =>
    obtain ⟨next, stepped, held⟩ := each _ _ _ first initially
    obtain ⟨later, rest, ended⟩ := inductionHypothesis held
    exact ⟨later, .cons stepped rest, ended⟩

/-- Where every step is a function `next` of its item, all of them are what `run` comes to. -/
theorem threaded_iff_run {κ ι γ : Type} {step : κ → α → β → κ → Prop} (next : κ → ι → γ × κ) {embed : β → γ}
    {run : κ → List ι → List γ × κ} (runNil : ∀ state, run state [] = ([], state))
    (runCons : ∀ state item items, run state (item :: items) =
      ((next state item).1 :: (run (next state item).2 items).1, (run (next state item).2 items).2))
    {related : α → ι → Prop} (each : ∀ state item input result later, related item input →
      (step state item result later ↔ next state input = (embed result, later)))
    {items : List α} {inputs : List ι} (all : List.Forall₂ related items inputs) {start last : κ} {results : List β} :
    Threaded step start items results last ↔ run start inputs = (results.map embed, last) := by
  induction all generalizing start results with
  | nil =>
    rw [runNil]
    constructor
    · rintro ⟨⟩
      rfl
    · intro same
      obtain ⟨none, rfl⟩ := Prod.mk.inj same
      rw [List.map_eq_nil_iff.mp none.symm]
      exact .nil
  | cons first _ inductionHypothesis =>
    rw [runCons]
    constructor
    · rintro (_ | ⟨stepped, rest⟩)
      rw [(each _ _ _ _ _ first).mp stepped, inductionHypothesis.mp rest]
      rfl
    · intro same
      obtain ⟨found, ended⟩ := Prod.mk.inj same
      cases results with
      | nil => cases found
      | cons result results =>
        obtain ⟨here, rest⟩ := List.cons.inj found
        exact .cons ((each _ _ _ _ _ first).mpr (Prod.ext here rfl)) (inductionHypothesis.mpr (Prod.ext rest ended))

end Memprof.Library
