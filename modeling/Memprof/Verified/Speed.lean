import Memprof.Verified.Concurrent
import Memprof.Verified.Settings
import Memprof.Verified.WholeBacktraces

/-! # The profile of a sampled program

From the signals to the profile.  A sample is filed under its number plus one, which no other
message of the process has, so that each sample is a block; the walks that are too long take no
number.
-/

namespace Memprof.Speed

open Library StackFrame Environment Concurrent Blocks Accounting Serving Memprof.Sequential Threads Nested CallTree
  FlatProfile Pipeline RoundTrip Delivery

/-! ## The walk over the frames -/

theorem signalLoop_mono {memory : FrameMemory} {stackBound frame : Addr} {fuel depth : ℕ} {buffer : Buffer}
    {result : ℕ × Buffer} (returned : signalLoop memory stackBound fuel frame depth buffer = .ok result) (more : ℕ) :
    signalLoop memory stackBound (fuel + more) frame depth buffer = .ok result := by
  induction fuel generalizing frame depth buffer with
  | zero => cases returned
  | succ fuel inductionHypothesis =>
    rw [Nat.succ_add]
    rw [signalLoop] at returned ⊢
    split at returned
    next above =>
      obtain ⟨grown, grew, returned⟩ := ok_of_bind returned
      obtain ⟨stored, wrote, returned⟩ := ok_of_bind returned
      rw [if_pos above, grew, ok_bind, wrote, ok_bind]
      exact inductionHypothesis returned
    next below =>
      rw [if_neg below]
      exact returned

/-- What the walk finds, if it ends. -/
def Signal.Walks (signal : Signal) (frames : List Addr) : Prop :=
  ∃ visited, Visited signal.memory signal.esp signal.ebp visited ∧
    frames = signal.eip :: visited.map fun frame => (signal.memory frame).returnAddress

theorem walks_of_backtrace {signal : Signal} {fuel depth : ℕ} {frames : List Addr}
    (returned : callWithSignalBacktrace fuel signal.memory signal.eip signal.ebp signal.esp = .ok (depth, frames)) :
    signal.Walks frames ∧ depth = frames.length := by
  obtain ⟨buffer, first, holds⟩ := holds_first signal.eip
  rw [callWithSignalBacktrace, first, ok_bind] at returned
  obtain ⟨⟨reached, later⟩, looped, returned⟩ := ok_of_bind returned
  obtain ⟨passed, read, returned⟩ := ok_of_bind returned
  cases returned
  obtain ⟨visited, chain, short⟩ := visited_of_signalLoop holds (by simp) looped
  -- With more fuel the loop ends in the same way.
  obtain ⟨whole, again, held⟩ := @signalLoop_visited _ _ _ _ _ _ chain holds short (fuel + (visited.length + 1))
    (by omega)
  have same := signalLoop_mono looped (visited.length + 1)
  rw [List.length_singleton] at again
  rw [again] at same
  cases same
  have words := holds_passed held
  rw [List.singleton_append, List.length_cons, List.length_map, Nat.add_comm] at words
  rw [words] at read
  cases read
  exact ⟨⟨visited, chain, rfl⟩, by rw [List.length_cons, List.length_map, Nat.add_comm]⟩

theorem Signal.Walks.unique {signal : Signal} {frames others : List Addr} (walk : signal.Walks frames)
    (other : signal.Walks others) : others = frames := by
  obtain ⟨visited, chain, rfl⟩ := walk
  obtain ⟨visited', chain', rfl⟩ := other
  rw [chain.unique chain']

/-! ## Samples that are elided -/

section Writing

variable {layout : Layout}

/-- The calls of `mi_write_stack` that write something. -/
def written (calls : List (StackCall layout)) : List (StackCall layout) := calls.filter (·.frames.length ≤ 20000)

theorem few_written (calls : List (StackCall layout)) : ∀ call ∈ written calls, call.frames.length ≤ 20000 :=
  fun _ member => of_decide_eq_true (List.mem_filter.mp member).2

theorem numberReport_isSome (info : MIInfo) (length : ℕ) (pid : Pid) (seqno : UInt32) :
    (numberReport info length pid seqno).isSome = decide (length ≤ 20000) := by
  rw [numberReport]
  split
  next bogus => simp [show ¬ length ≤ 20000 by omega]
  next few => simp [show length ≤ 20000 by omega]

theorem miWriteStacks_written (outlet : Outlet) (calls : List (StackCall layout)) :
    miWriteStacks layout outlet calls = miWriteStacks layout outlet (written calls) := by
  induction calls generalizing outlet with
  | nil => rfl
  | cons call calls inductionHypothesis =>
    by_cases few : call.frames.length ≤ 20000
    · rw [written, List.filter_cons_of_pos (by simpa using few), miWriteStacks, miWriteStacks]
      split
      · exact inductionHypothesis _
      · rfl
    · have none : miWriteStack layout outlet call = (outlet, true) := by
        rw [miWriteStack, numberReport, if_pos (by omega)]
      rw [written, List.filter_cons_of_neg (by simpa using few), miWriteStacks, none]
      exact inductionHypothesis outlet

theorem writeChannel_written (calls : List (StackCall layout)) (exit : Option (Pid × UInt32))
    (results : List SendResult) :
    writeChannel layout calls exit results = writeChannel layout (written calls) exit results := by
  unfold writeChannel
  rw [miWriteStacks_written]

theorem written_concat (calls : List (StackCall layout)) (call : StackCall layout) :
    written (calls ++ [call]) = written calls ++ if call.frames.length ≤ 20000 then [call] else [] := by
  rw [written, List.filter_append]
  by_cases few : call.frames.length ≤ 20000
  · simp [written, few]
  · simp [written, few]

/-! ## What the table says of the samples -/

/-- What the message of a sample tells, and no other. -/
def file (known : Known) (message : Message layout) : Known :=
  if message.info.operation = .time then
    known.report
      { message.info with
        oldPtr := 0
        newPtr := (message.info.seqno + 1).toUInt64
        size := 1 } message.frames
  else known

/-- The address under which a sample is filed. -/
def key (message : Message layout) : Addr := (message.info.seqno + 1).toUInt64

theorem tells_file {stashes : Store StackStash} {message : Message layout}
    (taken : message.info.operation = .time ∨ message.info.operation = .exit) (contents : Contents) (known : Known)
    (stack : StackPtr) (tells : Tells stashes contents known) (traced : StackTrace stashes stack message.frames) :
    Tells stashes (contents.apply (message.info.seqno + 1) message.info stack) (file known message) := by
  cases taken with
  | inl sample =>
    rw [Contents.apply, sample, file, if_pos sample]
    exact tells.report
      { message.info with
        oldPtr := 0
        newPtr := (message.info.seqno + 1).toUInt64
        size := 1 } traced
  | inr exit =>
    rw [Contents.apply, exit, file, if_neg (by rw [exit]; decide)]
    exact tells

theorem file_fresh {known : Known} {message : Message layout} (sample : message.info.operation = .time)
    (nonNull : key message ≠ 0) (fresh : known (key message) = none) :
    file known message = Function.update known (key message) (some (1, message.frames)) := by
  have insert : (known.remove 0).insert (key message) 1 message.frames = _ := if_pos ⟨nonNull, fresh⟩
  rw [file, if_pos sample]
  exact insert

theorem file_all {times : List (Message layout)} (samples : ∀ message ∈ times, message.info.operation = .time)
    (distinct : (times.map key).Nodup) (nonNull : ∀ message ∈ times, key message ≠ 0) {known : Known}
    (fresh : ∀ message ∈ times, known (key message) = none) :
    (∀ message ∈ times, times.foldl file known (key message) = some (1, message.frames)) ∧
      ∀ address, address ∉ times.map key → times.foldl file known address = known address := by
  induction times generalizing known with
  | nil => exact ⟨by simp, fun _ _ => rfl⟩
  | cons first times inductionHypothesis =>
    obtain ⟨absent, distinct⟩ := List.nodup_cons.mp distinct
    have apart : ∀ message ∈ times, key message ≠ key first := fun message member same =>
      absent (same ▸ List.mem_map_of_mem member)
    obtain ⟨filed, others⟩ := @inductionHypothesis (fun message member => samples message (by simp [member])) distinct
      (fun message member => nonNull message (by simp [member])) (file known first) fun message member => by
        rw [file_fresh (samples first (by simp)) (nonNull first (by simp)) (fresh first (by simp)),
          Function.update_of_ne (apart message member)]
        exact fresh message (by simp [member])
    rw [file_fresh (samples first (by simp)) (nonNull first (by simp)) (fresh first (by simp))] at filed others
    refine ⟨fun message member => ?_, fun address outside => ?_⟩
    · rw [List.foldl_cons, file_fresh (samples first (by simp)) (nonNull first (by simp)) (fresh first (by simp))]
      rcases List.mem_cons.mp member with rfl | member
      · rw [others _ absent, Function.update_self]
      · exact filed message member
    · rw [List.map_cons, List.mem_cons, not_or] at outside
      rw [List.foldl_cons, file_fresh (samples first (by simp)) (nonNull first (by simp)) (fresh first (by simp)),
        others address outside.2, Function.update_of_ne outside.1]

/-- The messages of samples. -/
def timed (all : List (Message layout)) : List (Message layout) := all.filter (·.info.operation = .time)

theorem foldl_file (all : List (Message layout)) (known : Known) :
    all.foldl file known = (timed all).foldl file known := by
  rw [timed, List.foldl_filter]
  congr 1
  funext known message
  by_cases sample : message.info.operation = .time
  · simp [sample]
  · simp [sample, file]

/-- The numbers are apart, so that the addresses are. -/
theorem keys_of_counted {all : List (Message layout)} (counted : Counted 0 all) (few : all.length < 2 ^ 32) :
    (all.map key).Nodup ∧ ∀ message ∈ all, key message ≠ 0 := by
  have range := counted.range (by simpa using few)
  have small : ∀ message ∈ all, (key message).toNat = message.info.seqno.toNat + 1 := by
    intro message member
    have listed : message.info.seqno.toNat ∈ List.range' 0 all.length := by
      rw [← range]
      exact List.mem_map_of_mem (f := fun message : Message layout => message.info.seqno.toNat) member
    rw [List.mem_range'_1] at listed
    rw [key, UInt32.toNat_toUInt64, UInt32.toNat_add]
    simp only [UInt32.reduceToNat]
    omega
  refine ⟨List.Nodup.of_map (fun address => address.toNat - 1) ?_, fun message member null => ?_⟩
  · have same : (all.map key).map (fun address => address.toNat - 1) = List.range' 0 all.length := by
      rw [← range, List.map_map]
      refine List.map_congr_left fun message member => ?_
      show (key message).toNat - 1 = _
      rw [small message member, Nat.add_sub_cancel]
    rw [same]
    exact List.nodup_range'
  · have zero := small message member
    rw [null] at zero
    cases zero

/-- The blocks of a table that says what the messages tell are the samples. -/
theorem samples_perm {all : List (Message layout)} (counted : Counted 0 all) (few : all.length < 2 ^ 32)
    {addresses : List Addr} (distinct : addresses.Nodup)
    (listed : ∀ address, address ∈ addresses ↔ all.foldl file (fun _ => none) address ≠ none) :
    (addresses.map (Known.sample (all.foldl file fun _ => none))).Perm
      ((timed all).map fun message => (message.frames, 1)) := by
  obtain ⟨distinctKeys, nonNull⟩ := keys_of_counted counted few
  have sub : (timed all).Sublist all := List.filter_sublist
  obtain ⟨filed, others⟩ := @file_all _ (timed all)
    (fun message member => of_decide_eq_true (List.mem_filter.mp member).2) (distinctKeys.sublist (sub.map key))
    (fun message member => nonNull message (sub.subset member)) (fun _ => none) fun _ _ => rfl
  rw [← foldl_file] at filed others
  have keys : addresses.Perm ((timed all).map key) := by
    rw [List.perm_ext_iff_of_nodup distinct (distinctKeys.sublist (sub.map key))]
    intro address
    rw [listed]
    constructor
    · intro known
      by_contra outside
      exact known (others address outside)
    · intro member
      obtain ⟨message, isSample, rfl⟩ := List.mem_map.mp member
      rw [filed message isSample]
      exact Option.some_ne_none _
  refine (keys.map _).trans (List.Perm.of_eq ?_)
  rw [List.map_map]
  refine List.map_congr_left fun message member => ?_
  rw [Function.comp_apply, Known.sample, filed message member]
  rfl

end Writing

/-! ## The program -/

section Program

variable {layout : Layout} {τ : Type} [DecidableEq τ]

/-- The walks that are not bogus. -/
def samples (walks : List (List Addr)) : List (List Addr) := walks.filter (·.length ≤ 20000)

/-- A message more on one channel. -/
theorem streams_concat {threads : List τ} {calls calls' : τ → List (StackCall layout)}
    {exit exit' : τ → Option (Pid × UInt32)} {sent : List (τ × Message layout)}
    (streams : Streams threads calls exit sent) {thread : τ} (known : thread ∈ threads) {message : Message layout}
    (others : ∀ other, other ≠ thread → calls' other = calls other ∧ exit' other = exit other)
    (more : (messages (calls' thread) (exit' thread)).Perm (messages (calls thread) (exit thread) ++ [message]))
    (few : ∀ call ∈ calls' thread, call.frames.length ≤ 20000) (fits : message.Fits) :
    Streams threads calls' exit' (sent ++ [(thread, message)]) where
  divided other := by
    rw [streams_append]
    by_cases own : other = thread
    · subst own
      rw [if_pos rfl]
      exact more.trans ((streams.divided other).append_right _)
    · rw [if_neg (Ne.symm own), List.append_nil, (others other own).1, (others other own).2]
      exact streams.divided other
  few other := by
    by_cases own : other = thread
    · exact own ▸ few
    · rw [(others other own).1]
      exact streams.few other
  fits := by
    rw [List.map_append]
    intro held member
    rcases List.mem_append.mp member with old | new
    · exact streams.fits held old
    · rw [List.mem_singleton.mp new]
      exact fits
  senders entry member := by
    rcases List.mem_append.mp member with old | new
    · exact streams.senders entry old
    · rw [List.mem_singleton.mp new]
      exact known

/-- What has been sent, in the order of the counter, and the walks so far. -/
structure Consistent (threads : List τ) (program : Program layout τ) (sent : List (τ × Message layout))
    (walks : List (List Addr)) : Prop where
  streams : Streams threads (fun thread => written (program.calls thread)) program.exit sent
  counted : Counted 0 (sent.map Prod.snd)
  next : program.seqno = .ofNat sent.length
  taken : ∀ message ∈ sent.map Prod.snd, message.info.operation = .time ∨ message.info.operation = .exit
  filed : (timed (sent.map Prod.snd)).map Message.frames = samples walks

theorem Consistent.counted_append {threads : List τ} {program : Program layout τ} {sent : List (τ × Message layout)}
    {walks : List (List Addr)} (consistent : Consistent threads program sent walks) (thread : τ)
    {message : Message layout} (numbered : message.info.seqno = program.seqno) :
    Counted 0 ((sent ++ [(thread, message)]).map Prod.snd) ∧
      program.seqno + 1 = .ofNat (sent ++ [(thread, message)]).length := by
  refine ⟨?_, ?_⟩
  · rw [List.map_append]
    exact counted_concat consistent.counted (by rw [numbered, consistent.next, List.length_map])
  · rw [List.length_append, List.length_singleton, UInt32.ofNat_add, consistent.next]
    rfl

omit [DecidableEq τ] in
theorem taken_append {sent : List (τ × Message layout)} {thread : τ} {message : Message layout}
    (taken : ∀ message ∈ sent.map Prod.snd, message.info.operation = .time ∨ message.info.operation = .exit)
    (last : message.info.operation = .time ∨ message.info.operation = .exit) :
    ∀ held ∈ (sent ++ [(thread, message)]).map Prod.snd,
      held.info.operation = .time ∨ held.info.operation = .exit := by
  rw [List.map_append]
  intro held member
  rcases List.mem_append.mp member with old | new
  · exact taken held old
  · rw [List.mem_singleton.mp new]
    exact last

/-- The timer has nothing to do with the messages. -/
theorem Consistent.timer {threads : List τ} {program : Program layout τ} {sent : List (τ × Message layout)}
    {walks : List (List Addr)} (consistent : Consistent threads program sent walks) (timer : Option ℕ) :
    Consistent threads { program with timer := timer } sent walks :=
  ⟨consistent.streams, consistent.counted, consistent.next, consistent.taken, consistent.filed⟩

theorem Consistent.reset {threads : List τ} {program : Program layout τ} {sent : List (τ × Message layout)}
    {walks : List (List Addr)} (consistent : Consistent threads program sent walks) :
    Consistent threads (if program.profileType = .itimer then (resetItimerTimer program).1 else program) sent
      walks := by
  unfold resetItimerTimer
  split
  · split
    · exact consistent.timer _
    · exact consistent
  · exact consistent

/-- All that a signal can do. -/
theorem sigprofHandler_cases {program later : Program layout τ} {fuel : ℕ} {thread : τ} {signal : Signal}
    (handled : sigprofHandler fuel program thread signal = some later) :
    ∃ frames, signal.Walks frames ∧ ∃ sampled : Program layout τ,
      sampled = { program with
        seqno := if frames.length ≤ 20000 then program.seqno + 1 else program.seqno
        calls := Function.update program.calls thread
          (program.calls thread ++ [signal.stackCall frames program.seqno]) } ∧
      later = if sampled.profileType = .itimer then (resetItimerTimer sampled).1 else sampled := by
  obtain ⟨⟨depth, frames⟩, walked, handled⟩ := Option.bind_eq_some_iff.mp handled
  have returned : callWithSignalBacktrace fuel signal.memory signal.eip signal.ebp signal.esp =
      .ok (depth, frames) := by
    cases result : callWithSignalBacktrace fuel signal.memory signal.eip signal.ebp signal.esp with
    | error fault =>
      rw [result] at walked
      cases walked
    | ok found =>
      rw [result] at walked
      cases walked
      rfl
  obtain ⟨walks, rfl⟩ := walks_of_backtrace returned
  refine ⟨frames, walks, _, rfl, ?_⟩
  have handled := (Option.some.inj handled).symm
  simp only [numberReport_isSome, decide_eq_true_eq] at handled
  exact handled

theorem Consistent.sample {threads : List τ} {program : Program layout τ} {sent : List (τ × Message layout)}
    {walks : List (List Addr)} (consistent : Consistent threads program sent walks) {thread : τ}
    (known : thread ∈ threads) (signal : Signal) {frames : List Addr} (few : frames.length ≤ 20000) :
    Consistent threads
      { program with
        seqno := program.seqno + 1
        calls := Function.update program.calls thread
          (program.calls thread ++ [signal.stackCall frames program.seqno]) }
      (sent ++ [(thread, callMessage (signal.stackCall frames program.seqno))]) (walks ++ [frames]) := by
  obtain ⟨counted, next⟩ := consistent.counted_append thread
    (rfl : (callMessage (signal.stackCall frames program.seqno : StackCall layout)).info.seqno = program.seqno)
  have fits : (callMessage (signal.stackCall frames program.seqno : StackCall layout)).Fits := by
    refine .inl ⟨.inr (.inr (.inr rfl)), ?_⟩
    show (UInt32.ofNat frames.length).toNat = frames.length
    rw [UInt32.toNat_ofNat']
    omega
  have own : written (program.calls thread ++ [signal.stackCall frames program.seqno]) =
      written (program.calls thread) ++ [signal.stackCall frames program.seqno] := by
    rw [written_concat]
    exact congrArg (written (program.calls thread) ++ ·) (if_pos few)
  refine ⟨?_, counted, next, taken_append consistent.taken (.inl rfl), ?_⟩
  · refine streams_concat consistent.streams known (fun other apart => ?_) ?_ (few_written _) fits
    · simp [apart]
    · simp only [Function.update_self, own, messages, List.map_append, List.map_singleton, List.append_assoc]
      exact List.Perm.append_left _ List.perm_append_comm
  · rw [List.map_append, timed, List.filter_append, List.map_append, ← timed, consistent.filed]
    simp [samples, few, callMessage, Signal.stackCall, sampleInfo]

/-- A walk that is too long takes no number. -/
theorem Consistent.elide {threads : List τ} {program : Program layout τ} {sent : List (τ × Message layout)}
    {walks : List (List Addr)} (consistent : Consistent threads program sent walks) (thread : τ) (signal : Signal)
    {frames : List Addr} (bogus : ¬ frames.length ≤ 20000) :
    Consistent threads
      { program with
        calls := Function.update program.calls thread
          (program.calls thread ++ [signal.stackCall frames program.seqno]) }
      sent (walks ++ [frames]) := by
  have same : (fun other => written (Function.update program.calls thread
      (program.calls thread ++ [signal.stackCall frames program.seqno]) other)) =
        fun other => written (program.calls other) := by
    funext other
    by_cases own : other = thread
    · rw [own, Function.update_self, written_concat]
      exact (congrArg (written (program.calls thread) ++ ·) (if_neg bogus)).trans (List.append_nil _)
    · rw [Function.update_of_ne own]
  refine ⟨?_, consistent.counted, consistent.next, consistent.taken, ?_⟩
  · rw [same]
    exact consistent.streams
  · rw [consistent.filed]
    simp [samples, bogus]

theorem Consistent.exit {threads : List τ} {program : Program layout τ} {sent : List (τ × Message layout)}
    {walks : List (List Addr)} (consistent : Consistent threads program sent walks) {thread : τ}
    (known : thread ∈ threads) (runs : program.exit thread = none) (pid : Pid) :
    Consistent threads
      { program with
        seqno := program.seqno + 1
        exit := Function.update program.exit thread (some (pid, program.seqno)) }
      (sent ++ [(thread, exitMessage (pid, program.seqno))]) walks := by
  obtain ⟨counted, next⟩ := consistent.counted_append thread
    (rfl : (exitMessage (pid, program.seqno) : Message layout).info.seqno = program.seqno)
  refine ⟨?_, counted, next, taken_append consistent.taken (.inr rfl), ?_⟩
  · refine streams_concat consistent.streams known (fun other apart => ?_) ?_ (few_written _) (.inr ⟨rfl, rfl⟩)
    · simp [apart]
    · simp [messages, runs]
  · rw [List.map_append, timed, List.filter_append, List.map_append, ← timed, consistent.filed]
    simp [exitMessage, exitInfo]

theorem Consistent.step {threads : List τ} {program later : Program layout τ} {sent : List (τ × Message layout)}
    {walks : List (List Addr)} (consistent : Consistent threads program sent walks) {fuel : ℕ} {event : Event τ}
    (known : ∀ thread ∈ event.thread, thread ∈ threads) (taken : program.step fuel event = some later) :
    ∃ sent' more, List.Forall₂ Signal.Walks (signals [event]) more ∧
      Consistent threads later sent' (walks ++ more) ∧ sent'.length ≤ sent.length + 1 := by
  cases event with
  | runs usecs =>
    cases taken
    exact ⟨sent, [], .nil, by rw [List.append_nil]; exact consistent.timer _, Nat.le_succ _⟩
  | signal thread signal =>
    simp only [Program.step] at taken
    split at taken
    next due =>
      obtain ⟨frames, found, sampled, rfl, rfl⟩ := sigprofHandler_cases taken
      have known : thread ∈ threads := known thread rfl
      by_cases few : frames.length ≤ 20000
      · refine ⟨sent ++ [(thread, callMessage (signal.stackCall frames program.seqno))], [frames], .cons found .nil,
          Consistent.reset ?_, by rw [List.length_append]; rfl⟩
        rw [if_pos few]
        exact consistent.sample known signal few
      · refine ⟨sent, [frames], .cons found .nil, Consistent.reset ?_, Nat.le_succ _⟩
        rw [if_neg few]
        exact consistent.elide thread signal few
    next => cases taken
  | exit thread pid =>
    simp only [Program.step] at taken
    split at taken
    next runs =>
      cases taken
      have ended := consistent.exit (known thread rfl) runs pid
      exact ⟨_, [], .nil, by rwa [List.append_nil], by rw [List.length_append]; rfl⟩
    next => cases taken

theorem Consistent.run {threads : List τ} {program later : Program layout τ} {sent : List (τ × Message layout)}
    {walks : List (List Addr)} (consistent : Consistent threads program sent walks) {fuel : ℕ}
    {events : List (Event τ)} (known : ∀ event ∈ events, ∀ thread ∈ event.thread, thread ∈ threads)
    (ran : program.run fuel events = some later) :
    ∃ sent' more, List.Forall₂ Signal.Walks (signals events) more ∧
      Consistent threads later sent' (walks ++ more) ∧ sent'.length ≤ sent.length + events.length := by
  induction events generalizing program sent walks with
  | nil =>
    cases ran
    exact ⟨sent, [], .nil, by rwa [List.append_nil], Nat.le_refl _⟩
  | cons event events inductionHypothesis =>
    obtain ⟨next, taken, ran⟩ := Option.bind_eq_some_iff.mp ran
    obtain ⟨sentNext, first, found, consistentNext, few⟩ := consistent.step (known event (by simp)) taken
    obtain ⟨sent', rest, foundRest, consistentLater, fewLater⟩ := inductionHypothesis consistentNext
      (fun other member => known other (by simp [member])) ran
    refine ⟨sent', first ++ rest, ?_, ?_, by rw [List.length_cons]; omega⟩
    · rw [signals_cons]
      exact List.rel_append found foundRest
    · rwa [← List.append_assoc]

theorem Fresh.consistent {program : Program layout τ} (fresh : Fresh program) (threads : List τ) :
    Consistent threads program [] [] where
  streams := by
    refine ⟨fun thread => ?_, fun thread => few_written _, by simp, by simp⟩
    rw [fresh.calls, fresh.exit]
    exact .refl _
  counted := rfl
  next := fresh.seqno
  taken := by simp
  filed := rfl

end Program

/-! ## From end to end -/

section Profile

variable {layout : Layout} {τ : Type} [DecidableEq τ]

/-- A frame of one of the walks. -/
def IsFrameOf (events : List (Event τ)) (address : Addr) : Prop :=
  ∃ signal ∈ signals events, ∃ frames, signal.Walks frames ∧ address ∈ frames

omit [DecidableEq τ] in
theorem isFrameOf_samples {events : List (Event τ)} {walks : List (List Addr)}
    (walked : List.Forall₂ Signal.Walks (signals events) walks) {address : Addr}
    (frame : IsFrame ((samples walks).map fun frames => (frames, 1)) address) : IsFrameOf events address := by
  obtain ⟨trace, member, occurs⟩ := frame
  obtain ⟨frames, sampled, rfl⟩ := List.mem_map.mp member
  obtain ⟨signal, isSignal, found⟩ : ∃ signal ∈ signals events, signal.Walks frames := by
    generalize signals events = all at walked
    have held : frames ∈ walks := (List.mem_filter.mp sampled).1
    clear sampled member occurs
    induction walked with
    | nil => cases held
    | cons first rest inductionHypothesis =>
      rcases List.mem_cons.mp held with rfl | held
      · exact ⟨_, by simp, first⟩
      · obtain ⟨signal, member, found⟩ := inductionHypothesis held
        exact ⟨signal, by simp [member], found⟩
  exact ⟨signal, isSignal, frames, found, occurs⟩

variable {σ μ : Type} [DecidableEq σ] {locate : μ → Addr → Option σ × μ}

end Profile

/-- A stack of one frame, and a signal in it. -/
def shallow (eip : Addr) : Signal where
  memory := fun _ => { next := 0, returnAddress := 32 }
  eip := eip
  ebp := 64
  esp := 48
  pid := 100

theorem walks_shallow (eip : Addr) : (shallow eip).Walks [eip, 32] :=
  ⟨[64], .step (show (48 : Addr) < 64 by decide) (.stop (show ¬ (48 : Addr) < 0 by decide)), rfl⟩

/-- The second signal is late, and comes to the other thread. -/
def interrupting : List (Event Bool) :=
  [.runs 10000, .signal true (shallow 16), .runs 12000, .signal false (shallow 20), .exit true 100]

end Memprof.Speed
