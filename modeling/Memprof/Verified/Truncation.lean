import Memprof.Verified.RoundTrip

/-! # A stream that ends inside a message

`input_func` hands on what it has read of a header, and reads frames into a buffer whose
rest it uses all the same.  A message that is cut off leaves no trace only if what was
read of it says that it has no stack and is not due: `truncated_dropped_iff`.
-/

namespace Memprof.Truncation

open Library Blocks Accounting Serving RoundTrip

variable {layout : Layout}

/-- `info` after a read that got no more than `fragment`. -/
def readInfo (layout : Layout) (fragment : List UInt8) : MIInfo :=
  layout.loadInfo ((blankInfo layout).overlay fragment)

/-- What a process records, with the blocks that its table leads to. -/
structure Recorded where
  blockTable : Option BlockTable
  blocks : List (Option (Addr × UInt32 × StackPtr))
  bytesUsed : UInt32
  nAllocations : UInt32
  seqno : UInt32

def tally (blocks : Store Block) (process : MPProcess) : Recorded where
  blockTable := process.blockTable
  blocks := process.held.map fun b => (blocks.get b).map fun block => (block.addr, block.size, block.stack)
  bytesUsed := process.bytesUsed
  nAllocations := process.nAllocations
  seqno := process.seqno

/-- What is recorded of the process that the messages read for `input` count for. -/
def recorded (world : World) (input : ProcId) : Except Fault Recorded := do
  let root ← world.rootOf input
  let process ← world.process root
  .ok (tally world.blocks process)

/-- The profiler does something else, which is not about this process. -/
structure Aside (watch : Watch) (other : World → World) : Prop where
  ready : ∀ world, Ready watch world → Ready watch (other world)
  served : ∀ world, Served world → watch ∈ world.watches → Served (other world) ∧ watch ∈ (other world).watches
  recorded : ∀ world, Served world → recorded (other world) watch.process = recorded world watch.process

/-- The stream of the messages `waiting` and `fragment` is read to its end: every message
is handed on with its trace, `fragment` with none, and what is recorded is what is
recorded in `complete`. -/
def Dropped (layout : Layout) (watch : Watch) (conditions : ℕ → List Bool) (others : ℕ → World → World) (fuel : ℕ)
    (world : World) (waiting : List (Message layout)) (fragment : List UInt8) (complete : World) : Prop :=
  ∃ later handed last, inputCalls layout watch conditions others fuel 0 world
      (waiting.flatMap Message.bytes ++ fragment) = .ok (later, [], handed ++ [last]) ∧
    List.Forall₂ Carries waiting handed ∧ last.stack = none ∧
    recorded later watch.process = recorded complete watch.process

/-- The cut is in the header, and what was read of it names no operation that has a stack
and not the `seqno` that is due.  Were the members of a `MIInfoAlloc` not all that a
`MIInfo` has, a report without frames could be cut behind them. -/
def Ignored (layout : Layout) (fragment : List UInt8) (seqno : UInt32) : Prop :=
  fragment.length < layout.sizeofInfo ∧
    (CarriesStack (readInfo layout fragment).operation →
      layout.sizeofAlloc ≤ fragment.length ∧ (readInfo layout fragment).stackSize = 0) ∧
    (readInfo layout fragment).seqno ≠ seqno

/-! ## What is recorded -/

/-- One process changes, and not in what it records. -/
theorem recorded_eq {world later : World} {p : ProcId} {process process' : MPProcess}
    (found : world.process p = .ok process) (processes : later.processes = world.processes.set p process')
    (cloneOf : process'.cloneOf = process.cloneOf) (blocks : later.blocks = world.blocks)
    (same : tally world.blocks process' = tally world.blocks process) (input : ProcId) :
    recorded later input = recorded world input := by
  unfold recorded
  rw [rootOf_congr (links_set found processes cloneOf), blocks]
  cases world.rootOf input with
  | error _ => rfl
  | ok root =>
    rw [ok_bind, ok_bind]
    by_cases here : root = p
    · rw [here, World.process_of_set found processes, found, ok_bind, ok_bind, same]
    · rw [World.process_of_set_ne processes here]

/-- One process changes, and not in what it waits for. -/
theorem root_eq {world later : World} {p : ProcId} {process process' : MPProcess}
    (found : world.process p = .ok process) (processes : later.processes = world.processes.set p process')
    (cloneOf : process'.cloneOf = process.cloneOf) (seqno : process'.seqno = process.seqno)
    (queue : process'.commandQueue = process.commandQueue) {input root : ProcId} {rootProcess : MPProcess}
    (ranRoot : world.rootOf input = .ok root) (foundRoot : world.process root = .ok rootProcess) :
    later.rootOf input = .ok root ∧ ∃ rootProcess' : MPProcess, later.process root = .ok rootProcess' ∧
      rootProcess'.seqno = rootProcess.seqno ∧ rootProcess'.commandQueue = rootProcess.commandQueue := by
  refine ⟨by rw [rootOf_congr (links_set found processes cloneOf), ranRoot], ?_⟩
  by_cases here : root = p
  · rw [here, found] at foundRoot
    cases foundRoot
    exact ⟨process', by rw [here, World.process_of_set found processes], seqno, queue⟩
  · exact ⟨rootProcess, by rw [World.process_of_set_ne processes here, foundRoot], rfl, rfl⟩

/-- The end of a channel leaves what was recorded. -/
theorem inputEof_recorded {world : World} (served : Served world) {watch : Watch} (watched : watch ∈ world.watches) :
    ∃ later, world.inputEof watch = .ok later ∧
      recorded later watch.process = recorded world watch.process := by
  obtain ⟨process, found, _, _⟩ := served.watched watch watched
  obtain ⟨later, ranEof, _, processes, _, _⟩ := inputEof_ok served watched found
  refine ⟨later, ranEof, recorded_eq found processes rfl ?_ rfl watch.process⟩
  unfold World.inputEof at ranEof
  rw [found, ok_bind] at ranEof
  obtain ⟨listed, removed, ranEof⟩ := ok_of_bind ranEof
  obtain ⟨closed, status, ranEof⟩ := ok_of_bind ranEof
  rw [mpServerRemoveProcess_eq (World.process_setProcess_self found _)] at removed
  unfold World.setStatus at status
  obtain ⟨_, _, status⟩ := ok_of_bind status
  -- None of the three steps touches a block.
  cases ranEof
  cases status
  cases removed
  rfl

/-! ## The round that reads what was cut off -/

/-- What a round has done that handed something on. -/
theorem inputRound_inv {world : World} {input : ProcId} {fragment : List UInt8} {round : Round}
    (short : fragment.length < layout.sizeofInfo)
    (ran : inputRound layout world input fragment = .ok (some round)) :
    ∃ frames root process blocks process' after,
      readFrames layout (readInfo layout fragment) fragment.length [] = .ok (frames, round.bytes) ∧
      world.prepareInput input (readInfo layout fragment) frames = .ok (round.handed.world, round.handed.stack) ∧
      round.handed.world.rootOf input = .ok root ∧ round.handed.world.process root = .ok process ∧
      processCommand round.handed.world.blocks process (readInfo layout fragment) round.handed.stack =
        .ok (blocks, process', after) ∧
      round.world = { round.handed.world with blocks := blocks }.setProcess root process' := by
  have whole := List.take_of_length_le short.le
  have nothing := List.drop_of_length_le short.le
  rw [inputRound, gIoChannelReadChars, whole, nothing] at ran
  simp only at ran
  split at ran
  · cases ran
  · obtain ⟨⟨frames, bytes⟩, ranFrames, ran⟩ := ok_of_bind ran
    obtain ⟨⟨prepared, stack⟩, ranPrepare, ran⟩ := ok_of_bind ran
    obtain ⟨root, ranRoot, ran⟩ := ok_of_bind ran
    obtain ⟨process, found, ran⟩ := ok_of_bind ran
    obtain ⟨⟨blocks, process', after⟩, ranCommand, ran⟩ := ok_of_bind ran
    cases ran
    exact ⟨frames, root, process, blocks, process', after, ranFrames, ranPrepare, ranRoot, found, ranCommand, rfl⟩

theorem length_loadFrames (count : ℕ) (bytes : List UInt8) : (layout.loadFrames count bytes).length = count := by
  induction count generalizing bytes with
  | zero => rfl
  | succ count inductionHypothesis => rw [Layout.loadFrames, List.length_cons, inductionHypothesis]

/-- No bytes are left for frames. -/
theorem readFrames_nil {info : MIInfo} {count : ℕ} {frames : List Addr} {rest : List UInt8}
    (ran : readFrames layout info count [] = .ok (frames, rest)) :
    rest = [] ∧
      (CarriesStack info.operation → layout.sizeofAlloc ≤ count ∧ frames.length = info.stackSize.toNat) := by
  unfold readFrames at ran
  split at ran
  next carries =>
    split at ran
    next => cases ran
    next enough =>
      simp only [gIoChannelReadChars, List.take_nil, List.drop_nil] at ran
      split at ran
      · cases ran
      · cases ran
        exact ⟨rfl, fun _ => ⟨Nat.not_lt.mp enough, length_loadFrames _ _⟩⟩
  next plain =>
    cases ran
    exact ⟨rfl, fun carries => (plain carries).elim⟩

theorem readFrames_ignored {info : MIInfo} {count : ℕ}
    (plain : CarriesStack info.operation → layout.sizeofAlloc ≤ count ∧ info.stackSize = 0) :
    readFrames layout info count [] = .ok ([], []) := by
  unfold readFrames
  split
  next carries =>
    obtain ⟨enough, none⟩ := plain carries
    rw [if_neg (Nat.not_lt.mpr enough), none]
    rfl
  next => rfl

/-- With all of the header there and not all of the frames, the rest of the buffer is used
as it is. -/
theorem inputRound_uninitialized {message : Message layout} (fits : message.Fits) {count : ℕ}
    (header : layout.sizeofInfo ≤ count) (short : count < message.bytes.length) (world : World) (input : ProcId) :
    inputRound layout world input (message.bytes.take count) = .error .uninitialized := by
  have stored := (layout.storeInfo message.object message.info).2
  have positive : ¬ layout.sizeofInfo = 0 := Nat.ne_of_gt layout.sizeofInfo_pos
  rw [Message.bytes, List.length_append, stored, length_frames] at short
  have divided : message.bytes.take count = (layout.storeInfo message.object message.info).1 ++
      (layout.frames message.frames).take (count - layout.sizeofInfo) := by
    rw [Message.bytes, List.take_append, stored, List.take_of_length_le (by rw [stored]; exact header)]
  have few : ((layout.frames message.frames).take (count - layout.sizeofInfo)).length <
      layout.sizeofPointer * message.frames.length := by
    rw [List.length_take, length_frames]
    omega
  have ranFrames : readFrames layout message.info layout.sizeofInfo
      ((layout.frames message.frames).take (count - layout.sizeofInfo)) = .error .uninitialized := by
    cases fits with
    | inl report =>
      obtain ⟨carries, counted⟩ := report
      rw [readFrames, if_pos carries, if_neg (Nat.not_lt.mpr layout.sizeofAlloc_le), gIoChannelReadChars, counted,
        List.take_of_length_le few.le]
      simp only [few, if_true]
    | inr last =>
      rw [last.2, List.length_nil] at few
      omega
  -- The header is what the first read gets, and it is the whole of `info`.
  rw [inputRound, gIoChannelReadChars, divided, List.take_left' stored, List.drop_left' stored]
  simp only [stored, positive, if_false, Object.overlay_all, layout.loadInfo_storeInfo, ranFrames]
  rfl

/-- Bytes are a round. -/
theorem inputRound_ne_none {bytes : List UInt8} (nonempty : bytes ≠ []) (world : World) (input : ProcId) :
    inputRound layout world input bytes ≠ .ok none := by
  have some_ : ¬ (bytes.take layout.sizeofInfo).length = 0 := by
    have := List.length_pos_iff.mpr nonempty
    have := layout.sizeofInfo_pos
    rw [List.length_take]
    omega
  intro ran
  rw [inputRound, gIoChannelReadChars] at ran
  simp only [if_neg some_] at ran
  obtain ⟨_, _, ran⟩ := ok_of_bind ran
  obtain ⟨_, _, ran⟩ := ok_of_bind ran
  obtain ⟨_, _, ran⟩ := ok_of_bind ran
  obtain ⟨_, _, ran⟩ := ok_of_bind ran
  obtain ⟨_, _, ran⟩ := ok_of_bind ran
  cases ran

section Round

variable {watch : Watch} {world : World} (served : Served world) (watched : watch ∈ world.watches)
include served watched

/-- Whatever the round hands on, the server goes on. -/
theorem inputRound_served {fragment : List UInt8} (short : fragment.length < layout.sizeofInfo) {round : Round}
    (ran : inputRound layout world watch.process fragment = .ok (some round)) :
    round.bytes = [] ∧ Served round.world ∧ watch ∈ round.world.watches := by
  obtain ⟨frames, root, rootProcess, blocks, process', after, ranFrames, ranPrepare, ranRoot, foundRoot, ranCommand,
    made⟩ := inputRound_inv short ran
  obtain ⟨process, found, _, open_⟩ := served.watched watch watched
  obtain ⟨prepared, stack, _, ran, _, _, watches, _, _⟩ :=
    prepareInput_ok served.sound found open_ (readInfo layout fragment) frames
  rw [ranPrepare] at ran
  cases ran
  have ranMessage : world.inputMessage watch.process (readInfo layout fragment) frames = .ok round.world := by
    unfold World.inputMessage World.command
    simp only [ranPrepare, ok_bind, ranRoot, foundRoot, ranCommand, made]
  refine ⟨(readFrames_nil ranFrames).1, (inputMessage_ensures served watched _ _).of_ok ranMessage, ?_⟩
  rw [made]
  show watch ∈ round.handed.world.watches
  rw [watches]
  exact watched

/-- What is ignored waits in the queue. -/
theorem inputRound_ignored {fragment : List UInt8} (nonempty : fragment ≠ []) {root : ProcId} {rootProcess : MPProcess}
    (ranRoot : world.rootOf watch.process = .ok root) (foundRoot : world.process root = .ok rootProcess)
    (ignored : Ignored layout fragment rootProcess.seqno) :
    ∃ round, inputRound layout world watch.process fragment = .ok (some round) ∧ round.handed.stack = none ∧
      recorded round.world watch.process = recorded world watch.process := by
  obtain ⟨short, plain, early⟩ := ignored
  obtain ⟨process, found, _, open_⟩ := served.watched watch watched
  obtain ⟨prepared, stack, process', ranPrepare, replaces, kept, _, blocks, _⟩ :=
    prepareInput_ok served.sound found open_ (readInfo layout fragment) []
  have traced := prepareInput_traced served.sound found ranPrepare
  rw [ite_self] at traced
  have noStack : stack = none := by
    cases stack with
    | none => rfl
    | some ref =>
      obtain ⟨_, _, trace⟩ := traced
      cases trace
  obtain ⟨ranRoot', rootProcess', foundRoot', seqno, _⟩ :=
    root_eq found replaces.processes (by rw [kept]) (by rw [kept]) (by rw [kept]) ranRoot foundRoot
  rw [← seqno] at early
  have whole := List.take_of_length_le short.le
  have nothing := List.drop_of_length_le short.le
  have some_ : ¬ fragment.length = 0 := mt List.length_eq_zero_iff.mp nonempty
  obtain ⟨queued, spelled⟩ : ∃ queued, queued = queueCommand rootProcess' (readInfo layout fragment) stack := ⟨_, rfl⟩
  refine ⟨⟨prepared.setProcess root queued, [], ⟨prepared, readInfo layout fragment, stack⟩,
    (readInfo layout fragment).operation⟩, ?_, noStack, ?_⟩
  · have ranFrames : readFrames layout (readInfo layout fragment) fragment.length [] = .ok ([], []) :=
      readFrames_ignored plain
    rw [inputRound, gIoChannelReadChars, whole, nothing]
    unfold readInfo at *
    simp only [some_, if_false, ranFrames, ok_bind, ranPrepare, ranRoot', foundRoot',
      Delivery.processCommand_of_early early, spelled]
  · -- The queue is no part of what is recorded, nor is what `prepareInput` changes.
    have processes : (prepared.setProcess root queued).processes = prepared.processes.set root queued := rfl
    have waits : recorded (prepared.setProcess root queued) watch.process = recorded prepared watch.process :=
      recorded_eq foundRoot' processes (by rw [spelled]; rfl) rfl (by rw [spelled]; rfl) watch.process
    have unchanged : tally world.blocks process' = tally world.blocks process := by
      rw [kept]
      rfl
    exact waits.trans (recorded_eq found replaces.processes (by rw [kept]) blocks unchanged watch.process)

/-- What is not ignored is due, or it has a stack. -/
theorem ignored_of_inputRound {fragment : List UInt8} (short : fragment.length < layout.sizeofInfo) {root : ProcId}
    {rootProcess : MPProcess} (ranRoot : world.rootOf watch.process = .ok root)
    (foundRoot : world.process root = .ok rootProcess) (few : rootProcess.commandQueue.length + 1 < 2 ^ 32)
    {round : Round} (ran : inputRound layout world watch.process fragment = .ok (some round))
    (noStack : round.handed.stack = none) (same : recorded round.world watch.process = recorded world watch.process) :
    Ignored layout fragment rootProcess.seqno := by
  obtain ⟨frames, root', rootProcess', blocks, after, _, ranFrames, ranPrepare, ranRoot', foundRoot', ranCommand,
    made⟩ := inputRound_inv short ran
  obtain ⟨process, found, _, open_⟩ := served.watched watch watched
  obtain ⟨prepared, stack, process', ranPrepare', replaces, kept, _, _, sound⟩ :=
    prepareInput_ok served.sound found open_ (readInfo layout fragment) frames
  rw [ranPrepare] at ranPrepare'
  cases ranPrepare'
  refine ⟨short, fun carries => ?_, fun due => ?_⟩
  · have traced := prepareInput_traced served.sound found ranPrepare
    rw [noStack, if_pos carries] at traced
    obtain ⟨enough, counted⟩ := (readFrames_nil ranFrames).2 carries
    rw [show frames = [] from traced, List.length_nil] at counted
    exact ⟨enough, UInt32.toNat_inj.mp counted.symm⟩
  · -- A command that is due moves the seqno on, and fewer than all numbers wait behind it.
    obtain ⟨ranRootNow, rootProcessNow, foundRootNow, seqno, queue⟩ :=
      root_eq found replaces.processes (by rw [kept]) (by rw [kept]) (by rw [kept]) ranRoot foundRoot
    rw [ranRootNow] at ranRoot'
    cases ranRoot'
    rw [foundRootNow] at foundRoot'
    cases foundRoot'
    obtain ⟨count, bounded, moved⟩ := Delivery.processCommand_seqno (due.trans seqno.symm) ranCommand
    have commanded : Ensures (fun _ => True) (processCommand round.handed.world.blocks rootProcess'
        (readInfo layout fragment) round.handed.stack) _ :=
      Delivery.processCommand_ensures (sound.coherent (World.mem_of_process foundRootNow)) _ _ fun _ _ => .inr trivial
    obtain ⟨_, sameElse, _⟩ := commanded.of_ok ranCommand
    replace sameElse : SameElse rootProcess' after := sameElse
    have ranRootLater : round.world.rootOf watch.process = .ok root := by
      rw [made, rootOf_congr (links_set foundRootNow rfl (by rw [sameElse])), ranRootNow]
    have foundLater : round.world.process root = .ok after := by
      rw [made]
      exact World.process_setProcess_self foundRootNow after
    simp only [recorded, ranRootLater, foundLater, ranRoot, foundRoot, ok_bind] at same
    have stays : after.seqno = rootProcess.seqno := congrArg Recorded.seqno (Except.ok.inj same)
    rw [stays, seqno] at moved
    have number := congrArg UInt32.toNat moved
    rw [UInt32.toNat_add, UInt32.toNat_ofNat'] at number
    rw [queue] at bounded
    have := rootProcess.seqno.toNat_lt
    omega

end Round

/-! ## The end of the stream -/

section End

variable {watch : Watch} (conditions : ℕ → List Bool) {others : ℕ → World → World} {world : World} {bytes : List UInt8}
  (left : List Bool) (fuel n : ℕ)

theorem resumeCalls_error {fault : Fault} (ran : inputRound layout world watch.process bytes = .error fault) :
    resumeCalls layout watch conditions others left fuel n world bytes = .error fault := by
  unfold resumeCalls inputFunc
  rw [ran]
  rfl

/-- After the round that reads the last bytes comes the end, in this call or in the next. -/
theorem resumeCalls_round (aside : ∀ n, Aside watch (others n)) {round : Round}
    (ran : inputRound layout world watch.process bytes = .ok (some round)) (nothing : round.bytes = [])
    (served : Served round.world) (watched : watch ∈ round.world.watches) :
    ∃ later, resumeCalls layout watch conditions others left (fuel + 1) n world bytes =
        .ok (later, [], [round.handed]) ∧
      recorded later watch.process = recorded round.world watch.process := by
  have next : ∃ later, (do
        let read ← inputCalls layout watch conditions others (fuel + 1) (n + 1) round.world round.bytes
        .ok (Read.after [round.handed] read)) = (.ok (later, [], [round.handed]) : Except Fault Read) ∧
      recorded later watch.process = recorded round.world watch.process := by
    -- What the profiler does before the next call leaves the source and what is recorded.
    obtain ⟨servedNow, watchedNow⟩ := (aside (n + 1)).served round.world served watched
    obtain ⟨later, ranEof, same⟩ := inputEof_recorded servedNow watchedNow
    refine ⟨later, ?_, same.trans ((aside (n + 1)).recorded round.world served)⟩
    rw [nothing, inputCalls_succ, resumeCalls_nil ranEof]
    rfl
  unfold resumeCalls
  rw [inputFunc, ran, ok_bind]
  cases left with
  | nil => exact next
  | cons condition left =>
    by_cases goesOn : round.operation ≠ .exit ∧ condition = true
    · obtain ⟨later, ranEof, same⟩ := inputEof_recorded served watched
      refine ⟨later, ?_, same⟩
      simp only [if_pos goesOn]
      rw [nothing, inputFunc, inputRound_nil, ok_bind]
      simp only [ranEof, ok_bind]
      rfl
    · simp only [if_neg goesOn]
      exact next

end End

/-- A message cut off behind `count` bytes: what was recorded stays as the messages
before it have left it if what was read is ignored, and, unless so many commands wait
that the `seqno` comes round, only then. -/
theorem truncated_dropped_iff {watch : Watch} (conditions : ℕ → List Bool) {others : ℕ → World → World}
    (aside : ∀ n, Aside watch (others n)) {world : World} (ready : Ready watch world)
    {waiting : List (Message layout)} (fit : ∀ message ∈ waiting, message.Fits) {message : Message layout}
    (fits : message.Fits) {count : ℕ} (some_ : 0 < count) (short : count < message.bytes.length) {fuel : ℕ}
    (enough : waiting.length + 2 ≤ fuel) :
    ∃ complete handed root process,
      inputCalls layout watch conditions others fuel 0 world (waiting.flatMap Message.bytes) =
        .ok (complete, [], handed) ∧
      complete.rootOf watch.process = .ok root ∧ complete.process root = .ok process ∧
      (Ignored layout (message.bytes.take count) process.seqno →
        Dropped layout watch conditions others fuel world waiting (message.bytes.take count) complete) ∧
      (process.commandQueue.length + 1 < 2 ^ 32 →
        Dropped layout watch conditions others fuel world waiting (message.bytes.take count) complete →
        Ignored layout (message.bytes.take count) process.seqno) := by
  obtain ⟨used, left, call, middle, handed, bounded, readyMiddle, carried, ran⟩ :=
    @inputCalls_reaches layout watch conditions others (fun n => (aside n).ready) 0 world ready waiting fit
  obtain ⟨fuel, rfl⟩ : ∃ rest, fuel = used + (rest + 1) + 1 := ⟨fuel - used - 2, by omega⟩
  obtain ⟨served, watched, _⟩ := readyMiddle
  obtain ⟨process, found, _, _⟩ := served.watched watch watched
  obtain ⟨root, rootProcess, ranRoot, foundRoot, _⟩ := rootOf_ok served.older found
  -- The run on the complete messages sees the end where the other one reads what was cut off.
  obtain ⟨complete, ranEof, same⟩ := inputEof_recorded served watched
  obtain ⟨_, ranEof', _, processes, _, _⟩ := inputEof_ok served watched found
  rw [ranEof] at ranEof'
  cases ranEof'
  obtain ⟨ranRootEnd, rootEnd, foundRootEnd, seqno, queue⟩ := root_eq found processes rfl rfl rfl ranRoot foundRoot
  have ranComplete := ran (fuel + 1) []
  rw [List.append_nil, resumeCalls_nil ranEof] at ranComplete
  have nonempty : message.bytes.take count ≠ [] := by
    rw [← List.length_pos_iff, List.length_take]
    omega
  refine ⟨complete, handed ++ [], root, rootEnd, ranComplete, ranRootEnd, foundRootEnd, ?_, ?_⟩
  · rw [seqno]
    intro ignored
    obtain ⟨round, ranRound, noStack, kept⟩ := inputRound_ignored served watched nonempty ranRoot foundRoot ignored
    obtain ⟨nothing, servedLater, watchedLater⟩ := inputRound_served served watched ignored.1 ranRound
    obtain ⟨later, ranRest, sameLater⟩ :=
      resumeCalls_round conditions left fuel call aside ranRound nothing servedLater watchedLater
    refine ⟨later, handed, round.handed, ?_, carried, noStack, by rw [sameLater, kept, same]⟩
    rw [ran, ranRest]
    rfl
  · rw [seqno, queue]
    intro few ⟨later, handed', last, ranAll, carried', noStack, sameEnd⟩
    rw [ran] at ranAll
    cases ranRound : inputRound layout middle watch.process (message.bytes.take count) with
    | error fault =>
      rw [resumeCalls_error conditions left _ call ranRound] at ranAll
      cases ranAll
    | ok answer =>
      -- Behind the header the round does not end.
      have header : count < layout.sizeofInfo := by
        by_contra beyond
        rw [inputRound_uninitialized fits (Nat.not_lt.mp beyond) short] at ranRound
        cases ranRound
      have cut : (message.bytes.take count).length < layout.sizeofInfo :=
        lt_of_le_of_lt (List.length_take_le _ _) header
      cases answer with
      | none => exact (inputRound_ne_none nonempty middle watch.process ranRound).elim
      | some round =>
        obtain ⟨nothing, servedLater, watchedLater⟩ := inputRound_served served watched cut ranRound
        obtain ⟨later', ranRest, sameLater⟩ :=
          resumeCalls_round conditions left fuel call aside ranRound nothing servedLater watchedLater
        rw [ranRest] at ranAll
        have all : Read.after handed (later', [], [round.handed]) = (later, [], handed' ++ [last]) :=
          Except.ok.inj ranAll
        have sameWorld : later' = later := congrArg Prod.fst all
        -- The round's message is the last one handed on.
        have lastHanded : handed ++ [round.handed] = handed' ++ [last] := congrArg (fun read => read.2.2) all
        have isLast : round.handed = last := by simpa using congrArg List.getLast? lastHanded
        rw [← sameWorld, sameLater, same] at sameEnd
        exact ignored_of_inputRound served watched cut ranRoot foundRoot few ranRound (isLast ▸ noStack) sameEnd

/-! ## On x86-64 -/

theorem readInfo_operation {fragment : List UInt8} (enough : 4 ≤ fragment.length) :
    (readInfo lp64 fragment).operation = .ofCode (.ofNat (Bytes.value (fragment.take 4))) := by
  have first : ((blankInfo lp64).overlay fragment).1.take 4 = fragment.take 4 := by
    show ((fragment ++ _).take 48).take 4 = _
    rw [List.take_take, Nat.min_eq_left (by omega), List.take_append_of_le_length enough]
  show MIOperation.ofCode (.ofNat (Bytes.value (((blankInfo lp64).overlay fragment).1.take 4))) = _
  rw [first]

/-- A report that is cut off is ignored if its operation has not been read, unless the
process waits for the first message of all. -/
theorem ignored_report_iff {message : Message lp64} (carries : CarriesStack message.info.operation) {count : ℕ}
    (some_ : 0 < count) (seqno : UInt32) :
    Ignored lp64 (message.bytes.take count) seqno ↔ count < 4 ∧ seqno ≠ 0 := by
  have stored : ∀ n ≤ 4, message.bytes.take n = (Bytes.littleEndian 4 message.info.operation.code.toNat).take n := by
    intro n few
    show (Bytes.littleEndian 4 message.info.operation.code.toNat ++ _ ++ _).take n = _
    rw [List.append_assoc, List.take_append_of_le_length (by rw [Bytes.length_littleEndian]; exact few)]
  by_cases operation : count < 4
  · have blank : ¬ CarriesStack (readInfo lp64 (message.bytes.take count)).operation ∧
        (readInfo lp64 (message.bytes.take count)).seqno = 0 := by
      rw [stored count operation.le]
      have counts : count = 1 ∨ count = 2 ∨ count = 3 := by omega
      rcases carries with is | is | is | is <;> rw [is] <;> rcases counts with rfl | rfl | rfl <;> decide
    have short : (message.bytes.take count).length < lp64.sizeofInfo :=
      lt_of_le_of_lt (List.length_take_le _ _) (operation.trans (by decide))
    simp only [Ignored, short, blank.1, blank.2, operation, false_implies, true_and, ne_comm]
  · refine ⟨fun ⟨short, plain, _⟩ => absurd short ?_, fun both => (operation both.1).elim⟩
    have long : 4 ≤ (message.bytes.take count).length := by
      have header : (lp64.storeInfo message.object message.info).1.length = 48 :=
        (lp64.storeInfo message.object message.info).2
      rw [Message.bytes, List.length_take, List.length_append, header]
      omega
    have read : (readInfo lp64 (message.bytes.take count)).operation = message.info.operation := by
      have whole := stored 4 (Nat.le_refl 4)
      have word : message.info.operation.code.toNat < 256 ^ 4 := message.info.operation.code.toNat_lt
      rw [readInfo_operation long, List.take_take, Nat.min_eq_left (by omega), whole,
        List.take_of_length_le (by rw [Bytes.length_littleEndian]), Bytes.value_littleEndian,
        Nat.mod_eq_of_lt word, UInt32.ofNat_toNat, MIOperation.ofCode_code]
    exact Nat.not_lt.mpr (plain (read ▸ carries)).1

/-! ## The second report is cut off, or the first one -/

theorem aside_id (watch : Watch) : Aside watch id where
  ready _ held := held
  served _ served watched := ⟨served, watched⟩
  recorded _ _ := rfl

theorem allocation_fits : (callMessage allocation).Fits := .inl ⟨by decide, by decide⟩

theorem truncated_dropped_iff_second :
    ∃ complete handed root process,
      inputCalls lp64 ⟨1, 1, 0⟩ (fun _ => [true]) (fun _ => id) 3 0 (tracing false)
          ([callMessage allocation].flatMap Message.bytes) = .ok (complete, [], handed) ∧
      complete.rootOf 0 = .ok root ∧ complete.process root = .ok process ∧
      (Ignored lp64 ((callMessage allocation).bytes.take 3) process.seqno →
        Dropped lp64 ⟨1, 1, 0⟩ (fun _ => [true]) (fun _ => id) 3 (tracing false) [callMessage allocation]
          ((callMessage allocation).bytes.take 3) complete) ∧
      (process.commandQueue.length + 1 < 2 ^ 32 →
        Dropped lp64 ⟨1, 1, 0⟩ (fun _ => [true]) (fun _ => id) 3 (tracing false) [callMessage allocation]
          ((callMessage allocation).bytes.take 3) complete →
        Ignored lp64 ((callMessage allocation).bytes.take 3) process.seqno) :=
  truncated_dropped_iff (fun _ => [true]) (fun _ => aside_id _) tracing_ready
    (fun message member => by rw [List.mem_singleton.mp member]; exact allocation_fits) allocation_fits
    (by decide) (by decide) (by decide)

/-- Of the first report `count` bytes are read, and nothing of them is recorded. -/
def FirstDropped (count : ℕ) : Prop :=
  ∃ complete, Dropped lp64 ⟨1, 1, 0⟩ (fun _ => [true]) (fun _ => id) 2 (tracing false) []
    ((callMessage allocation).bytes.take count) complete

theorem not_firstDropped {count : ℕ} (fault : (inputCalls lp64 ⟨1, 1, 0⟩ (fun _ => [true]) (fun _ => id) 2 0 (tracing false)
    ((callMessage allocation).bytes.take count)).isOk = false) : ¬ FirstDropped count := by
  rintro ⟨complete, _, _, _, ran, _⟩
  rw [List.flatMap_nil, List.nil_append] at ran
  rw [ran] at fault
  cases fault

/-- The operation has been read and its stack not, or a frame is missing. -/
theorem truncated_not_dropped : ¬ FirstDropped 5 ∧ ¬ FirstDropped 56 :=
  ⟨not_firstDropped (by decide +kernel), not_firstDropped (by decide +kernel)⟩

end Memprof.Truncation
