import Memprof.Verified.Serving
import Memprof.Wire

/-! # What is written on a channel is what `input_func` hands on

On the way out, short and interrupted sends put the bytes on the wire all the same.  On
the way in, one round cuts off one message; a call of `input_func` and the calls until the
end of the channel follow by induction over the messages.
-/

namespace Memprof.RoundTrip

open Library Blocks Accounting Serving

/-- A message on the wire. -/
structure Message (layout : Layout) where
  object : Object layout.sizeofInfo
  info : MIInfo
  frames : List Addr

variable {layout : Layout}

def Message.bytes (message : Message layout) : List UInt8 :=
  (layout.storeInfo message.object message.info).1 ++ layout.frames message.frames

/-- Reports say how many frames there are, and a last message has none. -/
def Message.Fits (message : Message layout) : Prop :=
  CarriesStack message.info.operation ∧ message.info.stackSize.toNat = message.frames.length ∨
    message.info.operation = .exit ∧ message.frames = []

/-- The message of a call of `mi_write_stack`. -/
def callMessage (call : StackCall layout) : Message layout where
  object := call.object
  info := { call.info with stackSize := UInt32.ofNat call.frames.length, pid := call.pid, seqno := call.seqno }
  frames := call.frames

def exitMessage (exit : Pid × UInt32) : Message layout where
  object := Object.zero _
  info := exitInfo exit.1 exit.2
  frames := []

def messages (calls : List (StackCall layout)) (exit : Option (Pid × UInt32)) : List (Message layout) :=
  calls.map callMessage ++ exit.toList.map exitMessage

/-! ## Writing -/

/-- `send` is interrupted or takes some of the bytes. -/
def Harmless (result : SendResult) : Prop := result ≠ .failed ∧ result ≠ .sent 0

instance (result : SendResult) : Decidable (Harmless result) := inferInstanceAs (Decidable (_ ∧ _))

theorem miWriteLoop_ok {results : List SendResult} (harmless : ∀ result ∈ results, Harmless result)
    (sent buf : List UInt8) :
    ∃ rest, miWriteLoop sent results buf = (⟨rest, sent ++ buf⟩, true) ∧ ∀ result ∈ rest, Harmless result := by
  induction results generalizing sent buf with
  | nil =>
    cases buf with
    | nil => exact ⟨[], by rw [miWriteLoop, List.append_nil], by simp⟩
    | cons => exact ⟨[], rfl, by simp⟩
  | cons result results inductionHypothesis =>
    have others : ∀ other ∈ results, Harmless other := fun other member => harmless other (by simp [member])
    cases buf with
    | nil => exact ⟨result :: results, by rw [miWriteLoop, List.append_nil], harmless⟩
    | cons byte buf =>
      obtain ⟨completes, positive⟩ := harmless result (by simp)
      cases result with
      | eintr => exact inductionHypothesis others sent (byte :: buf)
      | failed => exact absurd rfl completes
      | sent count =>
        have takes : ¬ min count (byte :: buf).length = 0 := by
          have : count ≠ 0 := fun zero => positive (by rw [zero])
          rw [List.length_cons]
          omega
        obtain ⟨rest, ran, harmlessRest⟩ := inductionHypothesis others
          (sent ++ (byte :: buf).take (min count (byte :: buf).length)) ((byte :: buf).drop (min count (byte :: buf).length))
        refine ⟨rest, ?_, harmlessRest⟩
        rw [List.append_assoc, List.take_append_drop] at ran
        rw [miWriteLoop, if_neg takes]
        · exact ran
        · exact List.cons_ne_nil _ _

/-- An outlet on which nothing goes wrong. -/
def Open (outlet : Outlet) : Prop := ∀ result ∈ outlet.results, Harmless result

theorem miWrite_ok {outlet : Outlet} (isOpen : Open outlet) (buf : List UInt8) :
    ∃ later, miWrite outlet buf = (later, true) ∧ Open later ∧ later.sent = outlet.sent ++ buf := by
  obtain ⟨rest, ran, harmless⟩ := miWriteLoop_ok isOpen outlet.sent buf
  exact ⟨_, ran, harmless, rfl⟩

theorem miWriteStack_ok {outlet : Outlet} (isOpen : Open outlet) (call : StackCall layout)
    (few : call.frames.length ≤ 20000) :
    ∃ later, miWriteStack layout outlet call = (later, true) ∧ Open later ∧
      later.sent = outlet.sent ++ (callMessage call).bytes := by
  obtain ⟨header, ranHeader, openHeader, sentHeader⟩ :=
    miWrite_ok isOpen (layout.storeInfo call.object (callMessage call).info).1
  obtain ⟨later, ran, openLater, sent⟩ := miWrite_ok openHeader (layout.frames call.frames)
  refine ⟨later, ?_, openLater, by rw [sent, sentHeader, List.append_assoc]; rfl⟩
  have numbered : numberReport call.info call.frames.length call.pid call.seqno = some (callMessage call).info := by
    have count : ((call.frames.length : ℤ) % 2 ^ 32).toNat = call.frames.length := by omega
    rw [numberReport, if_neg (by omega), callMessage, UInt32.ofInt, count]
  rw [miWriteStack, numbered]
  simp only [ranHeader, ran]

theorem miWriteStacks_ok {outlet : Outlet} (isOpen : Open outlet) (calls : List (StackCall layout))
    (few : ∀ call ∈ calls, call.frames.length ≤ 20000) :
    ∃ later, miWriteStacks layout outlet calls = (later, true) ∧ Open later ∧
      later.sent = outlet.sent ++ (calls.map callMessage).flatMap Message.bytes := by
  induction calls generalizing outlet with
  | nil => exact ⟨outlet, rfl, isOpen, by simp⟩
  | cons call calls inductionHypothesis =>
    obtain ⟨first, ranFirst, openFirst, sentFirst⟩ := miWriteStack_ok isOpen call (few call (by simp))
    obtain ⟨later, ran, openLater, sent⟩ := inductionHypothesis openFirst fun other member =>
      few other (by simp [member])
    refine ⟨later, ?_, openLater, ?_⟩
    · rw [miWriteStacks, ranFirst]
      exact ran
    · rw [sent, sentFirst, List.map_cons, List.flatMap_cons, List.append_assoc]

/-- The bytes on the wire. -/
theorem writeChannel_ok {calls : List (StackCall layout)} (few : ∀ call ∈ calls, call.frames.length ≤ 20000)
    (exit : Option (Pid × UInt32)) {results : List SendResult} (harmless : ∀ result ∈ results, Harmless result) :
    ∃ later, writeChannel layout calls exit results = (later, true) ∧
      later.sent = (messages calls exit).flatMap Message.bytes := by
  obtain ⟨outlet, ran, isOpen, sent⟩ := @miWriteStacks_ok layout { results := results } harmless calls few
  rw [List.nil_append] at sent
  cases exit with
  | none => exact ⟨outlet, by simp only [writeChannel, ran], by simp [sent, messages]⟩
  | some exit =>
    obtain ⟨later, ranExit, _, sentExit⟩ :=
      miWrite_ok isOpen (layout.storeInfo (Object.zero _) (exitInfo exit.1 exit.2)).1
    refine ⟨later, by simp only [writeChannel, ran]; exact ranExit, ?_⟩
    rw [sentExit, sent, messages, List.flatMap_append]
    simp [Message.bytes, exitMessage, Layout.frames]

theorem messages_fit {calls : List (StackCall layout)} (few : ∀ call ∈ calls, call.frames.length ≤ 20000)
    (carries : ∀ call ∈ calls, CarriesStack call.info.operation) (exit : Option (Pid × UInt32)) :
    ∀ message ∈ messages calls exit, message.Fits := by
  intro message member
  rcases List.mem_append.mp member with report | last
  · obtain ⟨call, made, rfl⟩ := List.mem_map.mp report
    refine .inl ⟨carries call made, ?_⟩
    have := few call made
    show (UInt32.ofNat call.frames.length).toNat = call.frames.length
    rw [UInt32.toNat_ofNat']
    omega
  · obtain ⟨exit, _, rfl⟩ := List.mem_map.mp last
    exact .inr ⟨rfl, rfl⟩

/-! ## Reading -/

/-- What the loop needs of the profiler: its source is there, and nothing waits that
`process_command` does not take. -/
structure Ready (watch : Watch) (world : World) : Prop where
  served : Served world
  watched : watch ∈ world.watches
  reports : ∀ p process, world.process p = .ok process → ∀ command ∈ process.commandQueue,
    IsReport command.info.operation

/-- `process_command` was called for the message, with the trace it came with. -/
def Carries (message : Message layout) (handed : Handed) : Prop :=
  handed.info = message.info ∧ StackTrace handed.world.stashes handed.stack message.frames

theorem loadFrames_frames (frames : List Addr) : layout.loadFrames frames.length (layout.frames frames) = frames := by
  induction frames with
  | nil => rfl
  | cons address frames inductionHypothesis =>
    have length := (layout.storePointer address).2
    rw [Layout.frames, List.flatMap_cons, List.length_cons, Layout.loadFrames, List.take_left' length,
      List.drop_left' length, Object.overlay_all, layout.loadPointer_storePointer]
    exact congrArg _ inductionHypothesis

theorem length_frames (frames : List Addr) : (layout.frames frames).length = layout.sizeofPointer * frames.length := by
  induction frames with
  | nil => rfl
  | cons address frames inductionHypothesis =>
    rw [Layout.frames, List.flatMap_cons, List.length_append, (layout.storePointer address).2, List.length_cons]
    rw [Layout.frames] at inductionHypothesis
    rw [inductionHypothesis, Nat.mul_succ, Nat.add_comm]

theorem readFrames_ok {message : Message layout} (fits : message.Fits) (rest : List UInt8) :
    readFrames layout message.info layout.sizeofInfo (layout.frames message.frames ++ rest) =
      .ok (message.frames, rest) := by
  unfold readFrames
  rcases fits with ⟨carries, counted⟩ | ⟨exit, nothing⟩
  · have length := @length_frames layout message.frames
    rw [if_pos carries, if_neg (Nat.not_lt.mpr layout.sizeofAlloc_le), gIoChannelReadChars, counted]
    simp only [List.take_left' length, List.drop_left' length, length, Nat.lt_irrefl, if_false, loadFrames_frames]
  · have plain : ¬ CarriesStack message.info.operation := by rw [exit]; decide
    rw [if_neg plain, nothing]
    rfl

/-- A message that carries no stack is handed on with none. -/
theorem prepareInput_traced {world later : World} (sound : Sound world) {input : ProcId} {process : MPProcess}
    (found : world.process input = .ok process) {info : MIInfo} {frames : List Addr} {stack : StackPtr}
    (ran : world.prepareInput input info frames = .ok (later, stack)) :
    StackTrace later.stashes stack (if CarriesStack info.operation then frames else []) := by
  by_cases carries : CarriesStack info.operation
  · obtain ⟨_, _, _, ranAdd, _, _, _, _, traced⟩ := addStack_ok sound found frames
    rw [prepareInput_of_carries carries, ranAdd] at ran
    cases ran
    rwa [if_pos carries]
  · rw [if_neg carries]
    unfold World.prepareInput at ran
    cases operation : info.operation <;> rw [operation] at ran carries
    case malloc | realloc | free | time => exact (carries (by decide)).elim
    case exec | new | fork | clone | other => cases ran; rfl
    case exit =>
      obtain ⟨_, _, ran⟩ := ok_of_bind ran
      obtain ⟨_, _, ran⟩ := ok_of_bind ran
      simp only at ran
      split at ran
      · obtain ⟨_, _, ran⟩ := ok_of_bind ran
        cases ran
        rfl
      · cases ran
        rfl

theorem prepareMessage_ok {world : World} {watch : Watch} (ready : Ready watch world) {message : Message layout}
    (fits : message.Fits) : ∃ later stack process process', world.process watch.process = .ok process ∧
      world.prepareInput watch.process message.info message.frames = .ok (later, stack) ∧
      Replaces world watch.process process' later ∧ Prepared process process' ∧ later.watches = world.watches ∧
      Sound later ∧ StackTrace later.stashes stack message.frames := by
  obtain ⟨process, found, _, open_⟩ := ready.served.watched watch ready.watched
  obtain ⟨later, stack, process', ran, replaces, prepared, watches, _, sound⟩ :=
    prepareInput_ok ready.served.sound found open_ message.info message.frames
  have traced := prepareInput_traced ready.served.sound found ran
  have all : (if CarriesStack message.info.operation then message.frames else []) = message.frames := by
    rcases fits with ⟨carries, _⟩ | ⟨exit, nothing⟩
    · rw [if_pos carries]
    · rw [nothing, ite_self]
  rw [all] at traced
  exact ⟨later, stack, process, process', found, ran, replaces, prepared, watches, sound, traced⟩

/-- Reports and last messages are what `process_command` takes. -/
theorem Message.Fits.isReport {message : Message layout} (fits : message.Fits) : IsReport message.info.operation := by
  cases fits with
  | inl report => exact isReport_of_carries report.1
  | inr last =>
    rw [last.1]
    trivial

/-- One process changes and its queue has nothing new but reports. -/
theorem reports_replace {world later : World} {p : ProcId} {process process' : MPProcess}
    (found : world.process p = .ok process) (replaces : Replaces world p process' later)
    (reports : ∀ q process, world.process q = .ok process → ∀ command ∈ process.commandQueue,
      IsReport command.info.operation)
    (queue : ∀ command ∈ process'.commandQueue, IsReport command.info.operation) (q : ProcId) (other : MPProcess)
    (held : later.process q = .ok other) : ∀ command ∈ other.commandQueue, IsReport command.info.operation := by
  by_cases same : q = p
  · rw [same, replaces.found found] at held
    cases held
    exact queue
  · rw [replaces.other same] at held
    exact reports q other held

/-- A round takes the bytes of one message. -/
theorem inputRound_ok {world : World} {watch : Watch} (ready : Ready watch world) {message : Message layout}
    (fits : message.Fits) :
    ∃ round : Round, (∀ rest, inputRound layout world watch.process (message.bytes ++ rest) =
        .ok (some { round with bytes := rest })) ∧
      Ready watch round.world ∧ Carries message round.handed := by
  obtain ⟨prepared, stack, process, process', found, ranPrepare, replaces, kept, watches, sound, traced⟩ :=
    prepareMessage_ok ready fits
  have foundPrepared := replaces.found found
  have servedPrepared : Served prepared := ready.served.replace found replaces watches (by rw [kept]) (by rw [kept])
    (by rw [kept]) (by rw [kept]) sound
  have queue : process'.commandQueue = process.commandQueue := by rw [kept]
  have reports := reports_replace found replaces ready.reports (by rw [queue]; exact ready.reports _ _ found)
  obtain ⟨root, rootProcess, ranRoot, foundRoot, _⟩ := rootOf_ok servedPrepared.older foundPrepared
  have taken : ∀ command ∈ (⟨message.info, stack⟩ : Command) :: rootProcess.commandQueue,
      IsReport command.info.operation := by
    intro command member
    rcases List.mem_cons.mp member with rfl | waiting
    · exact fits.isReport
    · exact reports root rootProcess foundRoot command waiting
  have commanded : Ensures (fun _ => False) (prepared.command root message.info stack) _ :=
    command_ensures sound foundRoot message.info stack fun command member => .inl (taken command member)
  obtain ⟨later, ranCommand, rootProcess', replacesRoot, watchesRoot, _, queueRoot, _⟩ := commanded.exists_ok
  have ranMessage : world.inputMessage watch.process message.info message.frames = .ok later := by
    unfold World.inputMessage
    simp only [ranPrepare, ok_bind, ranRoot, ranCommand]
  have servedLater := (inputMessage_ensures ready.served ready.watched message.info message.frames).of_ok ranMessage
  have readyLater : Ready watch later := by
    refine ⟨servedLater, by rw [watchesRoot, watches]; exact ready.watched, ?_⟩
    exact reports_replace foundRoot replacesRoot reports fun command member => taken command (queueRoot command member)
  unfold World.command at ranCommand
  rw [foundRoot, ok_bind] at ranCommand
  obtain ⟨⟨blocks, _, after⟩, ranProcess, returned⟩ := ok_of_bind ranCommand
  cases returned
  refine ⟨⟨_, [], ⟨prepared, message.info, stack⟩, after.operation⟩, fun rest => ?_, readyLater, rfl, traced⟩
  -- The header is what the first read asks for, the frames what the second one does.
  have length := (layout.storeInfo message.object message.info).2
  have positive : ¬ layout.sizeofInfo = 0 := Nat.ne_of_gt layout.sizeofInfo_pos
  rw [inputRound, gIoChannelReadChars, Message.bytes, List.append_assoc, List.take_left' length,
    List.drop_left' length]
  simp only [length, positive, if_false, Object.overlay_all, layout.loadInfo_storeInfo, readFrames_ok fits, ok_bind,
    ranPrepare, ranRoot, foundRoot, ranProcess]
  rfl

/-- At the end of the bytes there is no round. -/
theorem inputRound_nil (world : World) (input : ProcId) : inputRound layout world input [] = .ok none := by
  rw [inputRound, gIoChannelReadChars, List.take_nil]
  rfl

def Called.after (handed : List Handed) (called : Called) : Called := { called with handed := handed ++ called.handed }

/-- A call reads some of the messages, or it reads them all and goes on with what comes
after them, under the conditions `left`. -/
theorem inputFunc_reaches {watch : Watch} (conditions : List Bool) {world : World} (ready : Ready watch world)
    {waiting : List (Message layout)} (fit : ∀ message ∈ waiting, message.Fits) :
    (∃ (called : Called) (taken left : List (Message layout)), waiting = taken ++ left ∧ taken ≠ [] ∧
      called.stays = true ∧ Ready watch called.world ∧ List.Forall₂ Carries taken called.handed ∧
      ∀ rest, inputFunc layout watch conditions world (waiting.flatMap Message.bytes ++ rest) =
        .ok { called with bytes := left.flatMap Message.bytes ++ rest }) ∨
    ∃ left middle handed, Ready watch middle ∧ List.Forall₂ Carries waiting handed ∧
      ∀ rest, inputFunc layout watch conditions world (waiting.flatMap Message.bytes ++ rest) =
        (inputFunc layout watch left middle rest).map (Called.after handed) := by
  induction waiting generalizing conditions world with
  | nil =>
    refine .inr ⟨conditions, world, [], ready, .nil, fun rest => ?_⟩
    rw [List.flatMap_nil, List.nil_append]
    cases inputFunc layout watch conditions world rest <;> rfl
  | cons message waiting inductionHypothesis =>
    obtain ⟨round, ran, readyRound, carries⟩ := inputRound_ok ready (fit message (by simp))
    have others : ∀ other ∈ waiting, other.Fits := fun other member => fit other (by simp [member])
    cases conditions with
    | nil =>
      refine .inl ⟨⟨round.world, [], [round.handed], true⟩, [message], waiting, rfl, List.cons_ne_nil _ _, rfl,
        readyRound, .cons carries .nil, fun rest => ?_⟩
      unfold inputFunc
      simp only [List.flatMap_cons, List.append_assoc, ran, ok_bind]
    | cons condition conditions =>
      by_cases goesOn : round.operation ≠ .exit ∧ condition = true
      · cases inductionHypothesis conditions readyRound others with
        | inl stops =>
          obtain ⟨called, taken, left, divided, _, stays, readyLater, carried, ranRest⟩ := stops
          refine .inl ⟨{ called with handed := round.handed :: called.handed }, message :: taken, left,
            by rw [divided, List.cons_append], List.cons_ne_nil _ _, stays, readyLater, .cons carries carried,
            fun rest => ?_⟩
          rw [inputFunc]
          simp only [List.flatMap_cons, List.append_assoc, ran, ok_bind, if_pos goesOn, ranRest]
        | inr reaches =>
          obtain ⟨left, middle, handed, readyMiddle, carried, ranRest⟩ := reaches
          refine .inr ⟨left, middle, round.handed :: handed, readyMiddle, .cons carries carried, fun rest => ?_⟩
          rw [inputFunc]
          simp only [List.flatMap_cons, List.append_assoc, ran, ok_bind, if_pos goesOn, ranRest]
          cases inputFunc layout watch left middle rest <;> rfl
      · refine .inl ⟨⟨round.world, [], [round.handed], true⟩, [message], waiting, rfl, List.cons_ne_nil _ _, rfl,
          readyRound, .cons carries .nil, fun rest => ?_⟩
        rw [inputFunc]
        simp only [List.flatMap_cons, List.append_assoc, ran, ok_bind, if_neg goesOn]

abbrev Read := World × List UInt8 × List Handed

def Read.after (handed : List Handed) (read : Read) : Read := (read.1, read.2.1, handed ++ read.2.2)

/-- The rest of call `n`, whose conditions are `left` by now, and the calls after it. -/
def resumeCalls (layout : Layout) (watch : Watch) (conditions : ℕ → List Bool) (others : ℕ → World → World)
    (left : List Bool) (fuel n : ℕ) (world : World) (bytes : List UInt8) : Except Fault Read := do
  let called ← inputFunc layout watch left world bytes
  if called.stays then
    let read ← inputCalls layout watch conditions others fuel (n + 1) called.world called.bytes
    .ok (Read.after called.handed read)
  else .ok (called.world, called.bytes, called.handed)

theorem inputCalls_succ (watch : Watch) (conditions : ℕ → List Bool) (others : ℕ → World → World) (fuel n : ℕ)
    (world : World) (bytes : List UInt8) :
    inputCalls layout watch conditions others (fuel + 1) n world bytes =
      resumeCalls layout watch conditions others (conditions n) fuel n (others n world) bytes := rfl

/-- The calls read every message, once and in order, and go on with what comes after
them in a state that does not depend on it. -/
theorem inputCalls_reaches {watch : Watch} (conditions : ℕ → List Bool) {others : ℕ → World → World}
    (keeps : ∀ n world, Ready watch world → Ready watch (others n world)) {n : ℕ} {world : World}
    (ready : Ready watch world) {waiting : List (Message layout)} (fit : ∀ message ∈ waiting, message.Fits) :
    ∃ used left later middle handed, used ≤ waiting.length ∧ Ready watch middle ∧
      List.Forall₂ Carries waiting handed ∧
      ∀ fuel rest, inputCalls layout watch conditions others (used + fuel + 1) n world
          (waiting.flatMap Message.bytes ++ rest) =
        (resumeCalls layout watch conditions others left fuel later middle rest).map (Read.after handed) := by
  induction shorter : waiting.length using Nat.strong_induction_on generalizing n world waiting with
  | _ length inductionHypothesis =>
    subst shorter
    cases inputFunc_reaches (conditions n) (keeps n world ready) fit with
    | inl stops =>
      obtain ⟨called, taken, left, rfl, some_, stays, readyLater, carried, ran⟩ := stops
      have fewer : left.length < (taken ++ left).length := by
        have := List.length_pos_iff.mpr some_
        rw [List.length_append]
        omega
      obtain ⟨used, conditionsLeft, later, middle, handed, bounded, readyMiddle, carriedRest, ranRest⟩ :=
        @inductionHypothesis left.length fewer (n + 1) called.world readyLater left
          (fun message member => fit message (by simp [member])) rfl
      refine ⟨used + 1, conditionsLeft, later, middle, called.handed ++ handed, by omega, readyMiddle,
        List.rel_append carried carriedRest, fun fuel rest => ?_⟩
      have counted : used + 1 + fuel = used + fuel + 1 := by omega
      rw [counted, inputCalls_succ, resumeCalls, ran, ok_bind]
      simp only [stays, if_true, ranRest]
      cases resumeCalls layout watch conditions others conditionsLeft fuel later middle rest with
      | error _ => rfl
      | ok read => simp [Except.map, Bind.bind, Except.bind, Read.after]
    | inr reaches =>
      obtain ⟨left, middle, handed, readyMiddle, carried, ran⟩ := reaches
      refine ⟨0, left, n, middle, handed, Nat.zero_le _, readyMiddle, carried, fun fuel rest => ?_⟩
      rw [Nat.zero_add, inputCalls_succ, resumeCalls, resumeCalls, ran]
      cases inputFunc layout watch left middle rest with
      | error _ => rfl
      | ok called =>
        simp only [Except.map, Bind.bind, Except.bind, Called.after]
        split
        · cases inputCalls layout watch conditions others fuel (n + 1) called.world called.bytes with
          | error _ => rfl
          | ok read => simp [Read.after]
        · rfl

/-- At the end of the bytes the call ends and its source goes. -/
theorem resumeCalls_nil {watch : Watch} {world later : World} (ranEof : world.inputEof watch = .ok later)
    (conditions : ℕ → List Bool) (others : ℕ → World → World) (left : List Bool) (fuel n : ℕ) :
    resumeCalls layout watch conditions others left fuel n world [] = .ok (later, [], []) := by
  unfold resumeCalls inputFunc
  simp only [inputRound_nil, ok_bind, ranEof]
  rfl

/-- The calls until the end: every message, once and in order. -/
theorem inputCalls_ok {watch : Watch} (conditions : ℕ → List Bool) {others : ℕ → World → World}
    (keeps : ∀ n world, Ready watch world → Ready watch (others n world)) {fuel n : ℕ} {world : World}
    (ready : Ready watch world) {waiting : List (Message layout)} (fit : ∀ message ∈ waiting, message.Fits)
    (enough : waiting.length < fuel) :
    ∃ later handed, inputCalls layout watch conditions others fuel n world (waiting.flatMap Message.bytes) =
      .ok (later, [], handed) ∧ List.Forall₂ Carries waiting handed := by
  obtain ⟨used, left, call, middle, handed, bounded, readyMiddle, carried, ran⟩ :=
    @inputCalls_reaches layout watch conditions others keeps n world ready waiting fit
  obtain ⟨fuel, rfl⟩ : ∃ rest, fuel = used + rest + 1 := ⟨fuel - used - 1, by omega⟩
  obtain ⟨process, found, _, _⟩ := readyMiddle.served.watched watch readyMiddle.watched
  obtain ⟨later, ranEof, _⟩ := inputEof_ok readyMiddle.served readyMiddle.watched found
  have ranRest := ran fuel []
  rw [List.append_nil, resumeCalls_nil ranEof] at ranRest
  refine ⟨later, handed, ?_, carried⟩
  rw [ranRest]
  simp [Except.map, Read.after]

theorem tracing_ready : Ready ⟨1, 1, 0⟩ (tracing false) where
  served := reachable_served (tracing_reachable false)
  watched := List.mem_singleton.mpr rfl
  reports p process held command waiting := by
    obtain rfl : process = traced false := List.mem_singleton.mp (World.mem_of_process held)
    cases waiting

def allocation : StackCall lp64 where
  object := Object.zero _
  info := mallocInfo 4096 24
  frames := [16, 32]
  pid := 100
  seqno := 0

end Memprof.RoundTrip
