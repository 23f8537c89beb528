import Memprof.Speed
import Memprof.Verified.Environment

/-! # The settings of a time profile

The interval and the type come through the environment of whatever is executed, printed and read
back, and the timer that is started keeps to them.  Each signal of an `itimer` stands for one
interval.
-/

namespace Memprof.Speed

open Library Environment

/-! ## The environment -/

/-- A name with its `=`, and no other. -/
def IsName (name : EnvString) : Prop := ∃ stem : EnvString, '=' ∉ stem ∧ name = stem ++ ['=']

theorem isName_envName (string : EnvString) : IsName (envName string) := by
  refine ⟨string.takeWhile (· ≠ '='), fun member => ?_, rfl⟩
  have := List.mem_takeWhile_imp member
  simp at this

/-- A string has no more than one name. -/
theorem envName_of_prefixed {name string : EnvString} (isName : IsName name) (prefixed : name <+: string) :
    envName string = name := by
  obtain ⟨stem, plain, rfl⟩ := isName
  obtain ⟨rest, rfl⟩ := prefixed
  have all : ∀ char ∈ stem, decide (char ≠ '=') = true := by
    intro char member
    simpa using fun same : char = '=' => plain (same ▸ member)
  rw [envName, List.append_assoc, List.takeWhile_append_of_pos all]
  simp

theorem isName_memprofInterval : IsName memprofInterval := ⟨"_MEMPROF_INTERVAL".toList, by decide, by decide⟩

theorem isName_memprofSpeedType : IsName memprofSpeedType := ⟨"_MEMPROF_SPEED_TYPE".toList, by decide, by decide⟩

theorem isName_memprofSocket : IsName memprofSocket := ⟨"_MEMPROF_SOCKET".toList, by decide, by decide⟩

theorem getenv_cons (name string : EnvString) (environ : List EnvString) :
    getenv name (string :: environ) =
      if name <+: string then some (string.drop name.length) else getenv name environ := by
  unfold getenv
  by_cases named : name <+: string
  · simp [named]
  · simp [named]

theorem getenv_putenv {name : EnvString} (isName : IsName name) (value : EnvString) (environ : List EnvString) :
    getenv name (putenv (name ++ value) environ) = some value := by
  have own : envName (name ++ value) = name := envName_of_prefixed isName (List.prefix_append _ _)
  induction environ with
  | nil => rw [putenv, getenv_cons, if_pos (List.prefix_append _ _), List.drop_left]
  | cons other environ inductionHypothesis =>
    rw [putenv, own]
    split
    next same => rw [getenv_cons, if_pos (List.prefix_append _ _), List.drop_left]
    next apart => rw [getenv_cons, if_neg apart, inductionHypothesis]

theorem getenv_putenv_other {name string : EnvString} (isName : IsName name) (apart : envName string ≠ name)
    (environ : List EnvString) : getenv name (putenv string environ) = getenv name environ := by
  have outside : ¬ name <+: string := fun prefixed => apart (envName_of_prefixed isName prefixed)
  induction environ with
  | nil => rw [putenv, getenv_cons, if_neg outside]
  | cons other environ inductionHypothesis =>
    rw [putenv]
    split
    next same =>
      have others : ¬ name <+: other := fun prefixed =>
        apart ((envName_of_prefixed (isName_envName string) same).symm.trans (envName_of_prefixed isName prefixed))
      rw [getenv_cons, if_neg outside, getenv_cons, if_neg others]
    next => rw [getenv_cons, getenv_cons, inductionHypothesis]

/-- Only the name of the socket is cut off. -/
theorem getenv_execEnvp {name : EnvString} (isName : IsName name) (apart : memprofSocket ≠ name) (image : Image)
    (envp : List EnvString) : getenv name (execEnvp image envp) = getenv name envp := by
  unfold execEnvp
  split
  · induction envp with
    | nil => rfl
    | cons string envp inductionHypothesis =>
      rw [List.map_cons, getenv_cons, getenv_cons, inductionHypothesis]
      by_cases socket : memprofSocket <+: string
      · have cut : string.take 16 = memprofSocket := (List.prefix_iff_eq_take.mp socket).symm
        have own := envName_of_prefixed isName_memprofSocket socket
        have whole : ¬ name <+: string := fun prefixed => apart (own.symm.trans (envName_of_prefixed isName prefixed))
        have part : ¬ name <+: memprofSocket := fun prefixed => whole (prefixed.trans socket)
        rw [if_pos socket, cut, if_neg part, if_neg whole]
      · rw [if_neg socket]
  · rfl

/-- A variable that `stop_tracing` and the programs leave alone is handed down. -/
theorem Inherits.getenv {first environ : List EnvString} (inherits : Inherits first environ) {name : EnvString}
    (setting : name = memprofInterval ∨ name = memprofSpeedType) :
    Environment.getenv name environ = Environment.getenv name first := by
  have isName : IsName name := by
    rcases setting with rfl | rfl
    · exact isName_memprofInterval
    · exact isName_memprofSpeedType
  have apart : memprofSocket ≠ name := by rcases setting with rfl | rfl <;> decide
  induction inherits with
  | start => rfl
  | stopTracing _ inductionHypothesis =>
    have other : envName memprofSocket ≠ name := by
      rw [envName_of_prefixed isName_memprofSocket (List.prefix_refl _)]
      exact apart
    rw [← inductionHypothesis]
    exact getenv_putenv_other isName other _
  | putenv string _ _ own inductionHypothesis =>
    rw [getenv_putenv_other isName ?_, inductionHypothesis]
    rcases setting with rfl | rfl
    · exact own.1
    · exact own.2
  | execve _ inductionHypothesis => rw [getenv_execEnvp isName apart, inductionHypothesis]

section Instrument

variable {server : MPServer} (timed : server.profileType ≠ .memory) (libLocation : EnvString)
  (environ : List EnvString)
include timed

theorem getenv_speedType : getenv memprofSpeedType (instrumentEnviron server libLocation environ) =
    some (if server.profileType = .cycles then "cycles" else "time").toList := by
  unfold instrumentEnviron
  rw [if_pos timed]
  exact getenv_putenv isName_memprofSpeedType _ _

theorem getenv_interval : getenv memprofInterval (instrumentEnviron server libLocation environ) =
    some (Decimal.print server.interval) := by
  have other : ∀ value, envName (memprofSpeedType ++ value) ≠ memprofInterval := fun value => by
    rw [envName_of_prefixed isName_memprofSpeedType (List.prefix_append _ _)]
    decide
  unfold instrumentEnviron
  rw [if_pos timed]
  exact (getenv_putenv_other isName_memprofInterval (other _) _).trans (getenv_putenv isName_memprofInterval _ _)

end Instrument

/-! ## The settings -/

theorem readInterval_of_getenv {environ : List EnvString} {interval : ℤ}
    (set : getenv memprofInterval environ = some (Decimal.print interval))
    (int : -2 ^ 31 ≤ interval ∧ interval < 2 ^ 31) :
    readInterval environ = if 0 < interval then interval else 10000 := by
  have long : -2 ^ 63 ≤ interval ∧ interval < 2 ^ 63 := by omega
  unfold readInterval
  simp only [set, Option.getD_some, Decimal.strtol_print long, Decimal.toInt_eq int, Decimal.print_ne_nil, ne_eq,
    not_true_eq_false, false_or]
  split
  next small => rw [if_neg (by omega)]
  next large => rw [if_pos (by omega)]

theorem readInterval_pos (environ : List EnvString) : 0 < readInterval environ := by
  unfold readInterval
  dsimp only
  split
  next => decide
  next valid =>
    rw [not_or, not_or] at valid
    omega

/-! ## Timers -/

/-- The least power of two, up to 8192, whose period is no longer than the interval.  The period
counts in whole microseconds, rounded down: 7812 takes 128 Hz, half a microsecond too slow. -/
def IsRate (profileInterval : ℤ) (irqRate : ℕ) : Prop :=
  ∃ k ≤ 13, irqRate = 2 ^ k ∧ ((1000000 / 2 ^ k : ℕ) ≤ profileInterval ∨ k = 13) ∧
    ∀ j < k, profileInterval < (1000000 / 2 ^ j : ℕ)

theorem irqRateLoop_ok {profileInterval : ℤ} {k fuel : ℕ} (few : k ≤ 13) (enough : 13 - k < fuel)
    (passed : ∀ j < k, profileInterval < (1000000 / 2 ^ j : ℕ)) :
    ∃ rate, irqRateLoop profileInterval fuel (2 ^ k) = .ok rate ∧ IsRate profileInterval rate := by
  induction fuel generalizing k with
  | zero => omega
  | succ fuel inductionHypothesis =>
    rw [irqRateLoop]
    split
    next goesOn =>
      have below : k < 13 := (Nat.pow_lt_pow_iff_right (by decide)).mp (show 2 ^ k < 2 ^ 13 from goesOn.2)
      rw [← Nat.pow_succ]
      refine inductionHypothesis below (by omega) fun j before => ?_
      rcases Nat.lt_succ_iff_lt_or_eq.mp before with before | rfl
      · exact passed j before
      · exact goesOn.1
    next stops =>
      refine ⟨2 ^ k, rfl, k, few, rfl, ?_, passed⟩
      rw [not_and_or, not_lt, not_lt] at stops
      refine stops.imp_right fun (full : 2 ^ 13 ≤ 2 ^ k) => ?_
      have := (Nat.pow_le_pow_iff_right (by decide)).mp full
      omega

theorem irqRate_ok (profileInterval : ℤ) : ∃ rate, irqRate profileInterval = .ok rate ∧ IsRate profileInterval rate :=
  @irqRateLoop_ok profileInterval 0 14 (by decide) (by decide) (by simp)

/-- Seconds and microseconds are the interval. -/
theorem setitimer_itValue {profileInterval : ℤ} (positive : 0 < profileInterval) :
    setitimer (itValue profileInterval) = some profileInterval.toNat := by
  have sec : profileInterval.tdiv 1000000 = profileInterval / 1000000 :=
    Int.tdiv_eq_ediv_of_nonneg positive.le
  have usec : profileInterval.tmod 1000000 = profileInterval % 1000000 := Int.tmod_eq_emod_of_nonneg positive.le
  rw [setitimer, itValue, if_pos (by dsimp only; omega)]
  dsimp only
  congr 2
  omega

section Start

variable {layout : Layout} {τ : Type}

theorem resetItimerTimer_ok {program : Program layout τ} (positive : 0 < program.profileInterval) :
    resetItimerTimer program = ({ program with timer := some program.profileInterval.toNat }, true) := by
  rw [resetItimerTimer, setitimer_itValue positive]

theorem resetItimerTimer_set {program : Program layout τ} (positive : 0 < program.profileInterval) :
    (resetItimerTimer program).1.profileType = program.profileType ∧
      (resetItimerTimer program).1.profileInterval = program.profileInterval ∧
      (resetItimerTimer program).1.timer = some program.profileInterval.toNat := by
  rw [resetItimerTimer_ok positive]
  exact ⟨rfl, rfl, rfl⟩

/-- Nothing has been sampled. -/
structure Fresh (program : Program layout τ) : Prop where
  seqno : program.seqno = 0
  calls : ∀ thread, program.calls thread = []
  exit : ∀ thread, program.exit thread = none

/-- What `mi_start` leaves for a type of profile. -/
structure Starts (timers : Timers) (profileType : MPProfileType) (profileInterval : ℤ) (program : Program layout τ) :
    Prop where
  fresh : Fresh program
  interval : program.profileInterval = profileInterval
  kind : program.profileType = if profileType = .time then (if timers.rtc then .rtc else .itimer)
    else if timers.perfctr then .perfctr else .itimer
  rate : program.profileType = .rtc → ∃ rate, program.irqRate = some rate ∧ IsRate profileInterval rate
  timer : program.profileType = .itimer → program.timer = some profileInterval.toNat

theorem startItimerTimer_ok {profileInterval : ℤ} (positive : 0 < profileInterval) :
    startItimerTimer ({ profileInterval := profileInterval, profileType := .itimer } : Program layout τ) =
      some { profileInterval := profileInterval, profileType := .itimer, timer := some profileInterval.toNat } := by
  rw [startItimerTimer, resetItimerTimer_ok positive]

theorem miStart_time (timers : Timers) {environ : List EnvString}
    (set : (getenv memprofSpeedType environ).getD "cycles".toList = "time".toList) :
    ∃ program : Program layout τ, miStart timers environ = .ok (some program) ∧
      Starts timers .time (readInterval environ) program := by
  obtain ⟨rate, ran, isRate⟩ := irqRate_ok (readInterval environ)
  unfold miStart
  dsimp only
  rw [if_pos set]
  unfold startRtcTimer
  by_cases rtc : timers.rtc = true
  · rw [if_pos rtc, ran]
    exact ⟨_, rfl, ⟨rfl, fun _ => rfl, fun _ => rfl⟩, rfl, by simp [rtc], fun _ => ⟨rate, rfl, isRate⟩, by simp⟩
  · rw [if_neg rtc, startItimerTimer_ok (readInterval_pos environ)]
    exact ⟨_, rfl, ⟨rfl, fun _ => rfl, fun _ => rfl⟩, rfl, by simp [rtc], by simp, fun _ => rfl⟩

theorem miStart_cycles (timers : Timers) {environ : List EnvString}
    (set : (getenv memprofSpeedType environ).getD "cycles".toList = "cycles".toList) :
    ∃ program : Program layout τ, miStart timers environ = .ok (some program) ∧
      Starts timers .cycles (readInterval environ) program := by
  unfold miStart
  dsimp only
  rw [set, if_neg (by decide), if_pos rfl]
  by_cases perfctr : timers.perfctr = true
  · rw [if_pos perfctr]
    exact ⟨_, rfl, ⟨rfl, fun _ => rfl, fun _ => rfl⟩, rfl, by simp [perfctr], by simp, by simp⟩
  · rw [if_neg perfctr, startItimerTimer_ok (readInterval_pos environ)]
    exact ⟨_, rfl, ⟨rfl, fun _ => rfl, fun _ => rfl⟩, rfl, by simp [perfctr], by simp, fun _ => rfl⟩

/-- The library starts a timer, and no more. -/
theorem fresh_miStart {timers : Timers} {environ : List EnvString} {program : Program layout τ}
    (started : miStart timers environ = .ok (some program)) : Fresh program := by
  by_cases time : (getenv memprofSpeedType environ).getD "cycles".toList = "time".toList
  · obtain ⟨_, ran, starts⟩ := @miStart_time layout τ timers environ time
    rw [started] at ran
    cases ran
    exact starts.fresh
  · by_cases cycles : (getenv memprofSpeedType environ).getD "cycles".toList = "cycles".toList
    · obtain ⟨_, ran, starts⟩ := @miStart_cycles layout τ timers environ cycles
      rw [started] at ran
      cases ran
      exact starts.fresh
    · unfold miStart at started
      dsimp only at started
      rw [if_neg time, if_neg cycles] at started
      cases started

/-- The settings of the server are the ones that the library reads. -/
theorem starts_of_inherits {server : MPServer} (timed : server.profileType ≠ .memory)
    (int : -2 ^ 31 ≤ server.interval ∧ server.interval < 2 ^ 31) {libLocation : EnvString}
    {environ environ' : List EnvString} (inherits : Inherits (instrumentEnviron server libLocation environ) environ')
    (timers : Timers) :
    ∃ program : Program layout τ, miStart timers environ' = .ok (some program) ∧
      Starts timers server.profileType (if 0 < server.interval then server.interval else 10000) program := by
  have interval := (inherits.getenv (.inl rfl)).trans (getenv_interval timed libLocation environ)
  have kind := (inherits.getenv (.inr rfl)).trans (getenv_speedType timed libLocation environ)
  rw [← readInterval_of_getenv interval int]
  cases named : server.profileType with
  | memory => exact absurd named timed
  | cycles =>
    rw [named] at kind
    exact miStart_cycles timers (by rw [kind]; rfl)
  | time =>
    rw [named] at kind
    exact miStart_time timers (by rw [kind]; rfl)

end Start

/-! ## The clock -/

section Clock

variable {layout : Layout} {τ : Type} [DecidableEq τ]

/-- The signals of a run, in the order in which they come. -/
def signals (events : List (Event τ)) : List Signal := events.filterMap Event.sampled

omit [DecidableEq τ] in
theorem signals_cons (event : Event τ) (events : List (Event τ)) :
    signals (event :: events) = signals [event] ++ signals events := by
  rw [signals, signals, signals, ← List.filterMap_append]
  rfl

/-- The time for which the program runs. -/
def elapsed (events : List (Event τ)) : ℕ := (events.map Event.usecs).sum

/-- The program does not run while a signal is pending. -/
def Prompt (fuel : ℕ) (program : Program layout τ) : List (Event τ) → Prop
  | [] => True
  | event :: events => (∀ left ∈ program.timer, event.usecs ≤ left) ∧
      ∀ later ∈ program.step fuel event, Prompt fuel later events

/-- After `count` signals and some time: all intervals but the current one have passed, and no
more time than these if the signals were prompt. -/
structure Paced (interval count spent : ℕ) (prompt : Prop) (program : Program layout τ) : Prop where
  kind : program.profileType = .itimer
  set : 0 < program.profileInterval ∧ program.profileInterval.toNat = interval
  timer : ∃ left ≤ interval, program.timer = some left ∧ (count + 1) * interval ≤ spent + left ∧
    (prompt → spent + left = (count + 1) * interval)

theorem sigprofHandler_timer {fuel : ℕ} {program later : Program layout τ} {thread : τ} {signal : Signal}
    (kind : program.profileType = .itimer) (positive : 0 < program.profileInterval)
    (handled : sigprofHandler fuel program thread signal = some later) :
    later.profileType = .itimer ∧ later.profileInterval = program.profileInterval ∧
      later.timer = some program.profileInterval.toNat := by
  obtain ⟨⟨depth, frames⟩, _, handled⟩ := Option.bind_eq_some_iff.mp handled
  have handled := Option.some.inj handled
  rw [if_pos kind] at handled
  subst handled
  have same : ∀ seqno calls,
      0 < ({ program with seqno := seqno, calls := calls } : Program layout τ).profileInterval := fun _ _ => positive
  obtain ⟨kindLater, interval, timer⟩ := resetItimerTimer_set (same _ _)
  exact ⟨kindLater.trans kind, interval, timer⟩

theorem Paced.step {interval count spent : ℕ} {prompt : Prop} {fuel : ℕ} {program later : Program layout τ}
    (paced : Paced interval count spent prompt program) {event : Event τ}
    (taken : program.step fuel event = some later) :
    Paced interval (count + (signals [event]).length) (spent + event.usecs)
      (prompt ∧ ∀ left ∈ program.timer, event.usecs ≤ left) later := by
  obtain ⟨left, within, timer, passed, exactly⟩ := paced.timer
  cases event with
  | runs usecs =>
    cases taken
    refine ⟨paced.kind, paced.set, left - usecs, by omega, by simp [timer], ?_, fun both => ?_⟩
    · show (count + 0 + 1) * interval ≤ spent + usecs + (left - usecs)
      rw [Nat.add_zero]
      omega
    · have before := exactly both.1
      have fits : usecs ≤ left := both.2 left timer
      show spent + usecs + (left - usecs) = (count + 0 + 1) * interval
      rw [Nat.add_zero]
      omega
  | signal thread signal =>
    simp only [Program.step] at taken
    split at taken
    next due =>
      have expired := due paced.kind
      rw [timer] at expired
      cases expired
      obtain ⟨kind, same, again⟩ := sigprofHandler_timer paced.kind paced.set.1 taken
      rw [paced.set.2] at again
      have next : (count + 1 + 1) * interval = (count + 1) * interval + interval := Nat.succ_mul _ _
      refine ⟨kind, by rw [same]; exact paced.set, interval, le_rfl, again, ?_, fun both => ?_⟩
      · show (count + 1 + 1) * interval ≤ spent + 0 + interval
        omega
      · have before := exactly both.1
        show spent + 0 + interval = (count + 1 + 1) * interval
        omega
    next => cases taken
  | exit thread pid =>
    simp only [Program.step] at taken
    split at taken
    next =>
      cases taken
      exact ⟨paced.kind, paced.set, left, within, timer, passed, fun both => exactly both.1⟩
    next => cases taken

theorem Paced.run {interval count spent : ℕ} {prompt : Prop} {fuel : ℕ} {program later : Program layout τ}
    (paced : Paced interval count spent prompt program) {events : List (Event τ)}
    (ran : program.run fuel events = some later) :
    Paced interval (count + (signals events).length) (spent + elapsed events) (prompt ∧ Prompt fuel program events)
      later := by
  induction events generalizing program count spent prompt with
  | nil =>
    cases ran
    exact ⟨paced.kind, paced.set, by simpa [signals, elapsed, Prompt] using paced.timer⟩
  | cons event events inductionHypothesis =>
    obtain ⟨next, taken, ran⟩ := Option.bind_eq_some_iff.mp ran
    have pacedLater := inductionHypothesis (paced.step taken) ran
    obtain ⟨left, within, timer, passed, exactly⟩ := pacedLater.timer
    have counted : (signals (event :: events)).length = (signals [event]).length + (signals events).length := by
      rw [signals_cons, List.length_append]
    have lasted : elapsed (event :: events) = event.usecs + elapsed events := List.sum_cons
    rw [counted, lasted, ← Nat.add_assoc, ← Nat.add_assoc]
    exact ⟨pacedLater.kind, pacedLater.set, left, within, timer, passed, fun both =>
      exactly ⟨⟨both.1, both.2.1⟩, both.2.2 next taken⟩⟩

end Clock

/-- An image that does not trace any more, of a profile of the time every one and a half seconds. -/
def executing : Image := stopTracing
  { loaded := true
    envp := instrumentEnviron
      { profileType := .time, interval := 1500000, socketPath := "/tmp/memprof.x".toList } "/lib".toList [] }

end Memprof.Speed
