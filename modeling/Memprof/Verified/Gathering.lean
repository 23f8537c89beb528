import Memprof.Concurrent
import Memprof.Verified.Isolation
import Memprof.Verified.Pipeline

/-! # Messages of one process from several channels

The messages of a process and its clones come in on as many channels as there are, each in its
own order.  What has arrived so far, put through a resequencer, is what the table of the process says and
what its queue holds, whichever channels it came from.
-/

namespace Memprof.Concurrent

open Library Blocks Accounting Serving Isolation Memprof.Sequential Threads Pipeline RoundTrip Delivery

variable {layout : Layout}

/-! ## What a process says -/

/-- What the table of a process says, and the seqno of the next command. -/
abbrev Said := Contents × UInt32

def awaited (said : Said) : ℕ := said.2.toNat

/-- `applyCommand` as far as the table tells. -/
def say (said : Said) (command : Command) : Except Fault Said :=
  match command.info.operation with
  | .new | .fork | .clone | .exec => .error .assertion
  | .malloc | .realloc | .free | .time | .exit | .other _ _ =>
    .ok (said.1.apply (said.2 + 1) command.info command.stack, said.2 + 1)

theorem say_of_report {command : Command} (reported : IsReport command.info.operation) (said : Said) :
    say said command = .ok (said.1.apply (said.2 + 1) command.info command.stack, said.2 + 1) := by
  unfold say
  cases operation : command.info.operation with
  | new | fork | clone | exec =>
    rw [operation] at reported
    exact reported.elim
  | malloc | realloc | free | time | exit | other => rfl

def Says (state : Store Block × MPProcess) (said : Said) : Prop :=
  Coherent state.1 state.2.table ∧ contents state.1 state.2.table = said.1 ∧ state.2.seqno = said.2

theorem consume_said (state : Store Block × MPProcess) (said : Said) (command : Command) (agrees : Says state said) :
    Agree Says (consume state command) (say said command) := by
  obtain ⟨coherent, table, counted⟩ := agrees
  have reported : IsReport command.info.operation →
      Agree Says (consume state command) (say said command) := by
    intro isReport
    obtain ⟨blocks, process, info, applied, step, _, seqno, told⟩ :=
      applyCommand_spec coherent isReport command.stack
    rw [say_of_report isReport, consume, applied]
    refine .ok ⟨step.coherent, ?_, by rw [seqno, counted]⟩
    rw [told, table, seqno, counted]
  cases operation : command.info.operation with
  | new | fork | clone | exec =>
    have refused : say said command = .error .assertion := by rw [say, operation]
    rw [refused, consume, applyCommand, operation]
    exact .error _
  | malloc | realloc | free | time | exit | other => exact reported (by rw [operation]; trivial)

/-- One call of `process_command`, on any queue. -/
theorem call_said {blocks blocks' : Store Block} {process process' : MPProcess} {command : Command} {said : Said}
    (coherent : Coherent blocks process.table)
    (agrees : contents blocks process.table = said.1 ∧ process.seqno = said.2)
    (called : call (blocks, process) command = .ok (blocks', process')) :
    ∃ said' : Said, deliver awaited number say (said, process.commandQueue) command =
        .ok (said', process'.commandQueue) ∧
      contents blocks' process'.table = said'.1 ∧ process'.seqno = said'.2 := by
  have same : process = withQueue process.commandQueue process := rfl
  rw [same, call_eq_deliver] at called
  obtain ⟨pending, delivered, rejoined⟩ := ok_of_map called
  have agree : Agree (fun left right => Says left.1 right.1 ∧ left.2 = right.2)
      (deliver expected number consume ((blocks, withQueue [] process), process.commandQueue) command)
      (deliver awaited number say (said, process.commandQueue) command) :=
    deliver_agree (fun state said agrees => congrArg UInt32.toNat agrees.2.2) consume_said
      ⟨coherent, agrees⟩ process.commandQueue command
  rw [delivered] at agree
  obtain ⟨⟨said', queue⟩, told, saysLater, queues⟩ := agree.exists_of_ok
  cases rejoined
  refine ⟨said', ?_, saysLater.2⟩
  have left : pending.2 = queue := queues
  rw [told, ← left]
  rfl

/-! ## What has arrived -/

/-- A command has the stack of its message. -/
def Brings (stashes : Store StackStash) (command : Command) (message : Message layout) : Prop :=
  command.info = message.info ∧ StackTrace stashes command.stack message.frames

/-- `arrived` through the resequencer, from an empty table on. -/
def sequenced (arrived : List Command) : Except Fault (Said × List Command) :=
  arrived.foldlM (deliver awaited number say) (((fun _ => none : Contents), 0), [])

theorem sequenced_append (arrived : List Command) (command : Command) :
    sequenced (arrived ++ [command]) = sequenced arrived >>= fun pending =>
      deliver awaited number say pending command := by
  rw [sequenced, sequenced, List.foldlM_append]
  congr 1
  funext pending
  rw [List.foldlM_cons]
  cases deliver awaited number say pending command <;> rfl

/-- The process `root` has got the messages `told`, and nothing else. -/
structure Gathers (root : ProcId) (told : List (Message layout)) (world : World) : Prop where
  served : Served world
  reports : ∀ p process, world.process p = .ok process → ∀ command ∈ process.commandQueue,
    IsReport command.info.operation
  process : ∃ process arrived, world.process root = .ok process ∧ process.cloneOf = none ∧
    List.Forall₂ (Brings world.stashes) arrived told ∧
    sequenced arrived = .ok ((contents world.blocks process.table, process.seqno), process.commandQueue)

/-- The messages of a source are for `root`. -/
def Feeds (root : ProcId) (world : World) (watch : Watch) : Prop :=
  watch ∈ world.watches ∧ world.rootOf watch.process = .ok root

theorem Gathers.ready {root : ProcId} {told : List (Message layout)} {world : World}
    (gathers : Gathers root told world) {watch : Watch} (feeds : Feeds root world watch) : Ready watch world where
  served := gathers.served
  watched := feeds.1
  reports := gathers.reports

theorem Feeds.same_links {root : ProcId} {world later : World} {watch : Watch} (feeds : Feeds root world watch)
    (watched : watch ∈ later.watches)
    (links : later.processes.map MPProcess.cloneOf = world.processes.map MPProcess.cloneOf) :
    Feeds root later watch :=
  ⟨watched, by rw [rootOf_congr links]; exact feeds.2⟩

/-- What `prepare_input` leaves as it is of any process. -/
theorem Prepared.root {world ready : World} {input root : ProcId} {process process' rootProcess : MPProcess}
    (found : world.process input = .ok process) (replaces : Replaces world input process' ready)
    (prepared : Prepared process process') (foundRoot : world.process root = .ok rootProcess) :
    ∃ rootReady, ready.process root = .ok rootReady ∧ rootReady.cloneOf = rootProcess.cloneOf ∧
      rootReady.table = rootProcess.table ∧ rootReady.seqno = rootProcess.seqno ∧
      rootReady.commandQueue = rootProcess.commandQueue := by
  by_cases own : root = input
  · subst own
    rw [found] at foundRoot
    cases foundRoot
    exact ⟨process', replaces.found found, by rw [prepared], by rw [prepared]; rfl, by rw [prepared],
      by rw [prepared]⟩
  · exact ⟨rootProcess, by rw [replaces.other own]; exact foundRoot, rfl, rfl, rfl, rfl⟩

theorem Brings.mono {stashes later : Store StackStash}
    (kept : ∀ stack frames, StackTrace stashes stack frames → StackTrace later stack frames)
    {arrived : List Command} {told : List (Message layout)} (brings : List.Forall₂ (Brings stashes) arrived told) :
    List.Forall₂ (Brings later) arrived told :=
  brings.imp fun _ _ same => ⟨same.1, kept _ _ same.2⟩

/-- A message of the process `root` is prepared, and then it is a command for `root`. -/
theorem inputMessage_split {world later : World} {watch : Watch} (ready : Ready watch world) {root : ProcId}
    (rooted : world.rootOf watch.process = .ok root) {message : Message layout} (fits : message.Fits)
    (ran : world.inputMessage watch.process message.info message.frames = .ok later) :
    ∃ prepared stack process process', world.process watch.process = .ok process ∧
      world.prepareInput watch.process message.info message.frames = .ok (prepared, stack) ∧
      Replaces world watch.process process' prepared ∧ Prepared process process' ∧ prepared.watches = world.watches ∧
      prepared.blocks = world.blocks ∧ Sound prepared ∧ StackTrace prepared.stashes stack message.frames ∧
      prepared.processes.map MPProcess.cloneOf = world.processes.map MPProcess.cloneOf ∧
      prepared.command root message.info stack = .ok later := by
  obtain ⟨prepared, stack, process, process', found, ranPrepare, replaces, kept, watches, soundPrepared, traced⟩ :=
    prepareMessage_ok ready fits
  obtain ⟨_, held, _, connected⟩ := ready.served.watched watch ready.watched
  rw [found] at held
  cases held
  obtain ⟨_, _, _, ranPrepare', _, _, _, blocks, _⟩ :=
    prepareInput_ok ready.served.sound found connected message.info message.frames
  rw [ranPrepare] at ranPrepare'
  cases ranPrepare'
  have links := links_set found replaces.processes (by rw [kept])
  have ranRoot : prepared.rootOf watch.process = .ok root := by rw [rootOf_congr links]; exact rooted
  unfold World.inputMessage at ran
  rw [ranPrepare, ok_bind] at ran
  simp only [ranRoot, ok_bind] at ran
  exact ⟨prepared, stack, process, process', found, ranPrepare, replaces, kept, watches, blocks, soundPrepared,
    traced, links, ran⟩

/-- The message is told to its process, and to no other. -/
theorem inputMessage_gathers {root : ProcId} {told : List (Message layout)} {world later : World}
    (gathers : Gathers root told world) {watch : Watch} (feeds : Feeds root world watch) {message : Message layout}
    (fits : message.Fits) (ran : world.inputMessage watch.process message.info message.frames = .ok later)
    (ready : Ready watch later) :
    Gathers root (told ++ [message]) later ∧
      (∀ other (told' : List (Message layout)), other ≠ root → Gathers other told' world →
        Gathers other told' later) ∧
      ∀ other watch, Feeds other world watch → Feeds other later watch := by
  obtain ⟨rootProcess, arrived, foundRoot, alone, brings, sequence⟩ := gathers.process
  have sound := gathers.served.sound
  obtain ⟨prepared, stack, process, process', found, ranPrepare, replaces, kept, watches, blocks, soundPrepared,
    traced, links, ran⟩ := inputMessage_split (gathers.ready feeds) feeds.2 fits ran
  obtain ⟨rootReady, foundReady, cloneOf, table, seqno, queue⟩ := Prepared.root found replaces kept foundRoot
  have commanded : Ensures (fun fault => fault = .assertion) (prepared.command root message.info stack) _ :=
    command_ensures soundPrepared foundReady message.info stack fun _ _ => .inr rfl
  obtain ⟨rootLater, replacesRoot, watchesRoot, same, _, soundLater⟩ := commanded.of_ok ran
  have leaves := command_leaves soundPrepared ran
  obtain ⟨_, foundReady', ranCommand⟩ := ok_of_bind ran
  rw [foundReady] at foundReady'
  cases foundReady'
  obtain ⟨⟨blocksLater, rootLater', after⟩, ranProcess, returned⟩ := ok_of_bind ranCommand
  cases returned
  have foundLater := replacesRoot.found foundReady
  have stored := @World.process_setProcess_self { prepared with blocks := blocksLater } _ _ foundReady rootLater'
  rw [foundLater] at stored
  cases stored
  have called : call (prepared.blocks, rootReady) ⟨message.info, stack⟩ = .ok (blocksLater, rootLater) := by
    rw [call, ranProcess]
    rfl
  have before : contents prepared.blocks rootReady.table = contents world.blocks rootProcess.table := by
    rw [blocks, table]
  obtain ⟨said, delivered, contentsLater, seqnoLater⟩ := @call_said _ _ _ _ _
    (contents world.blocks rootProcess.table, rootProcess.seqno)
    (soundPrepared.coherent (World.mem_of_process foundReady)) ⟨before, seqno⟩ called
  refine ⟨⟨ready.served, ready.reports, rootLater, arrived ++ [⟨message.info, stack⟩], foundLater, ?_, ?_, ?_⟩,
    ?_, ?_⟩
  · rw [same]
    exact cloneOf.trans alone
  · have kept := Brings.mono (prepareInput_traces sound found ranPrepare) brings
    exact List.rel_append kept (.cons ⟨rfl, traced⟩ .nil)
  · have whole : said = (contents blocksLater rootLater.table, rootLater.seqno) := by rw [contentsLater, seqnoLater]
    rw [sequenced_append, sequence, ok_bind, ← queue, delivered, whole]
    rfl
  -- The command of one process leaves the table of every other one.
  · intro other told' apart gathersOther
    obtain ⟨otherProcess, arrivedOther, foundOther, aloneOther, bringsOther, sequenceOther⟩ := gathersOther.process
    obtain ⟨otherReady, foundOtherReady, cloneOfOther, tableOther, seqnoOther, queueOther⟩ :=
      Prepared.root found replaces kept foundOther
    have foundOtherLater := leaves.other other otherReady apart foundOtherReady
    obtain ⟨_, _, exchange⟩ := leaves.exchange
    have unchanged := contents_other soundPrepared soundLater exchange (World.mem_of_process foundOtherReady)
      (World.mem_of_process foundOtherLater)
    refine ⟨ready.served, ready.reports, otherReady, arrivedOther, foundOtherLater, cloneOfOther.trans aloneOther,
      Brings.mono (prepareInput_traces sound found ranPrepare) bringsOther, ?_⟩
    rw [sequenceOther, unchanged, blocks, tableOther, seqnoOther, queueOther]
  · intro other watch feedsOther
    have linksLater := links_set foundReady replacesRoot.processes (by rw [same])
    refine feedsOther.same_links ?_ (linksLater.trans links)
    rw [watchesRoot, watches]
    exact feedsOther.1

/-- The end of a channel takes its source away, and no other. -/
theorem inputEof_gathers {root : ProcId} {told : List (Message layout)} {world : World}
    (gathers : Gathers root told world) {watch : Watch} (feeds : Feeds root world watch) :
    ∃ later, world.inputEof watch = .ok later ∧
      (∀ other (told' : List (Message layout)), Gathers other told' world → Gathers other told' later) ∧
      ∀ other feeding, feeding.tag ≠ watch.tag → Feeds other world feeding → Feeds other later feeding := by
  obtain ⟨process, found, _⟩ := gathers.served.watched watch feeds.1
  obtain ⟨later, ran, served, processes, _, watches⟩ := inputEof_ok gathers.served feeds.1 found
  have same : later.blocks = world.blocks ∧ later.stashes = world.stashes := by
    rw [inputEof_eq found] at ran
    cases ran
    exact ⟨rfl, rfl⟩
  refine ⟨later, ran, fun other told' gathersOther => ⟨served, fun p another held => ?_, ?_⟩,
    fun other feeding apart feedsOther => ?_⟩
  · by_cases own : p = watch.process
    · rw [own, World.process_of_set found processes] at held
      cases held
      exact gathers.reports watch.process process found
    · rw [World.process_of_set_ne processes own] at held
      exact gathers.reports p another held
  · obtain ⟨otherProcess, arrived, foundOther, alone, brings, sequence⟩ := gathersOther.process
    rw [same.1, same.2]
    by_cases own : other = watch.process
    · rw [own, found] at foundOther
      cases foundOther
      exact ⟨ended process, arrived, by rw [own]; exact World.process_of_set found processes, alone, brings, sequence⟩
    · exact ⟨otherProcess, arrived, by rw [World.process_of_set_ne processes own]; exact foundOther, alone, brings,
        sequence⟩
  · refine feedsOther.same_links ?_ (links_set found processes rfl)
    rw [watches, List.mem_filter]
    exact ⟨feedsOther.1, by simpa using apart⟩

/-- What a call of `input_func` for `watch` leaves of the messages that wait there. -/
structure Takes (root : ProcId) (world : World) (watch : Watch) (told waiting : List (Message layout))
    (called : Called) (taken left : List (Message layout)) : Prop where
  divided : waiting = taken ++ left
  bytes : called.bytes = left.flatMap Message.bytes
  gathers : Gathers root (told ++ taken) called.world
  others : ∀ other (told' : List (Message layout)), other ≠ root → Gathers other told' world →
    Gathers other told' called.world
  feeds : ∀ other feeding, feeding.tag ≠ watch.tag ∨ called.stays = true → Feeds other world feeding →
    Feeds other called.world feeding
  some : called.stays = true → taken ≠ []
  none : called.stays = false → left = []

theorem inputFunc_takes {root : ProcId} {watch : Watch} (conditions : List Bool) {told : List (Message layout)}
    {world : World} (gathers : Gathers root told world) (feeds : Feeds root world watch)
    {waiting : List (Message layout)} (fits : ∀ message ∈ waiting, message.Fits) :
    ∃ called taken left, inputFunc layout watch conditions world (waiting.flatMap Message.bytes) = .ok called ∧
      Takes root world watch told waiting called taken left := by
  induction waiting generalizing conditions told world with
  | nil =>
    obtain ⟨later, ended, gathersLater, feedsLater⟩ := inputEof_gathers gathers feeds
    refine ⟨⟨later, [], [], false⟩, [], [], ?_, rfl, rfl, ?_, fun other told' _ => gathersLater other told',
      fun other feeding apart => ?_, by simp, fun _ => rfl⟩
    · unfold inputFunc
      simp only [List.flatMap_nil, inputRound_nil, ok_bind, ended]
    · rw [List.append_nil]
      exact gathersLater root told gathers
    · exact feedsLater other feeding (apart.resolve_right Bool.false_ne_true)
  | cons message waiting inductionHypothesis =>
    have fitsFirst := fits message (by simp)
    obtain ⟨round, ranAny, ready, _⟩ := inputRound_ok (gathers.ready feeds) fitsFirst
    have ranRound := ranAny (waiting.flatMap Message.bytes)
    obtain ⟨gathersRound, othersRound, feedsRound⟩ :=
      inputMessage_gathers gathers feeds fitsFirst (inputRound_message fitsFirst ranRound) ready
    have stops : Takes root world watch told (message :: waiting)
        ⟨round.world, waiting.flatMap Message.bytes, [round.handed], true⟩ [message] waiting :=
      ⟨rfl, rfl, gathersRound, othersRound, fun other feeding _ => feedsRound other feeding, by simp, by simp⟩
    unfold inputFunc
    rw [List.flatMap_cons, ranRound, ok_bind]
    cases conditions with
    | nil => exact ⟨_, _, _, rfl, stops⟩
    | cons condition conditions =>
      simp only
      split
      · obtain ⟨called, taken, left, ranAgain, takes⟩ := inductionHypothesis conditions gathersRound
          (feedsRound root watch feeds) (fun other member => fits other (by simp [member]))
        rw [ranAgain, ok_bind]
        refine ⟨_, message :: taken, left, rfl, by rw [takes.divided, List.cons_append], takes.bytes, ?_,
          fun other told' apart gathersOther =>
            takes.others other told' apart (othersRound other told' apart gathersOther),
          fun other feeding apart feedsOther => takes.feeds other feeding apart (feedsRound other feeding feedsOther),
          by simp, takes.none⟩
        have gathersLater := takes.gathers
        rwa [List.append_assoc] at gathersLater
      · exact ⟨_, _, _, rfl, stops⟩

/-! ## The channels -/

/-- The messages that wait on a channel. -/
def Holds (inlet : Inlet) (waiting : List (Message layout)) : Prop :=
  inlet.bytes = waiting.flatMap Message.bytes ∧ ∀ message ∈ waiting, message.Fits

/-- What waits on channels without bytes is nothing. -/
theorem nothing_waits {inlets : List Inlet} {waiting : List (List (Message layout))}
    (holds : List.Forall₂ Holds inlets waiting) (quiet : ∀ inlet ∈ inlets, inlet.bytes = []) :
    waiting.flatten = [] := by
  induction holds with
  | nil => rfl
  | @cons inlet messages inlets waiting first _ inductionHypothesis =>
    have none : messages = [] := by
      cases messages with
      | nil => rfl
      | cons message messages =>
        have bytes := first.1
        rw [quiet inlet (by simp), List.flatMap_cons, Message.bytes] at bytes
        have empty := congrArg List.length bytes
        simp only [List.length_nil, List.length_append, (layout.storeInfo message.object message.info).2] at empty
        have := layout.sizeofInfo_pos
        omega
    rw [List.flatten_cons, none, List.nil_append]
    exact inductionHypothesis fun other member => quiet other (by simp [member])

/-- Whatever else the profiler does leaves the process and its sources alone. -/
def Spares (layout : Layout) (root : ProcId) (change : World → World) : Prop :=
  ∀ (told : List (Message layout)) (world : World), Gathers root told world →
    Gathers root told (change world) ∧ ∀ watch, Feeds root world watch → Feeds root (change world) watch

theorem spares_id (root : ProcId) : Spares layout root id := fun _ _ gathers => ⟨gathers, fun _ feeds => feeds⟩

/-- What waits on a channel, and for which process. -/
abbrev Waits (layout : Layout) := ProcId × List (Message layout)

def Serves (roots : List ProcId) (world : World) (inlet : Inlet) (entry : Waits layout) : Prop :=
  entry.1 ∈ roots ∧ Feeds entry.1 world inlet.watch ∧ Holds inlet entry.2

/-- The messages for one process. -/
def meant (root : ProcId) (waiting : List (Waits layout)) : List (Message layout) :=
  (waiting.filter (·.1 = root)).flatMap Prod.snd

theorem meant_cut (root : ProcId) (before after : List (Waits layout)) (entry : Waits layout) :
    meant root (before ++ entry :: after) =
      meant root before ++ (if entry.1 = root then entry.2 else []) ++ meant root after := by
  simp only [meant, List.filter_append, List.filter_cons, List.flatMap_append, List.append_assoc]
  by_cases own : entry.1 = root
  · simp [own]
  · simp [own]

/-- Of `all` messages for each of `roots` some have been read, and the others wait on the channels. -/
structure ReadsAll (roots : List ProcId) (all told : ProcId → List (Message layout)) (waiting : List (Waits layout))
    (profiler : Profiler) : Prop where
  gathers : ∀ root ∈ roots, Gathers root (told root) profiler.world
  inlets : List.Forall₂ (Serves roots profiler.world) profiler.inlets waiting
  distinct : (profiler.inlets.map (·.watch.tag)).Nodup
  divided : ∀ root ∈ roots, (told root ++ meant root waiting).Perm (all root)

/-- What is left to do until the channels have ended. -/
def remaining (waiting : List (Waits layout)) : ℕ := (waiting.map fun entry => entry.2.length + 1).sum

theorem remaining_split (before after : List (Waits layout)) (here : Waits layout) :
    remaining (before ++ here :: after) = remaining before + (here.2.length + 1) + remaining after := by
  simp only [remaining, List.map_append, List.map_cons, List.sum_append, List.sum_cons]
  omega

/-- Two lists that go together, cut at one place. -/
theorem forall₂_cut {α β : Type} {related : α → β → Prop} {items : List α} {items' : List β}
    (holds : List.Forall₂ related items items') {i : ℕ} {item : α} (held : items[i]? = some item) :
    ∃ before before' item' after after', items = before ++ item :: after ∧ before.length = i ∧
      items' = before' ++ item' :: after' ∧ List.Forall₂ related before before' ∧ related item item' ∧
      List.Forall₂ related after after' := by
  induction holds generalizing i with
  | nil => cases held
  | cons first rest inductionHypothesis =>
    cases i with
    | zero =>
      cases held
      exact ⟨[], [], _, _, _, rfl, rfl, rfl, .nil, first, rest⟩
    | succ i =>
      obtain ⟨before, before', item', after, after', rfl, rfl, rfl, left, here, right⟩ := inductionHypothesis held
      exact ⟨_ :: before, _ :: before', item', after, after', rfl, rfl, rfl, .cons first left, here, right⟩

/-- A turn of a channel that has not ended reads some of it, and every other turn nothing. -/
theorem dispatch_readsAll {roots : List ProcId} {all told : ProcId → List (Message layout)}
    {waiting : List (Waits layout)} {profiler : Profiler} (reads : ReadsAll roots all told waiting profiler)
    {turn : Turn} (spares : ∀ root ∈ roots, Spares layout root turn.before) :
    ∃ later told' waiting', dispatch layout profiler turn = .ok later ∧ ReadsAll roots all told' waiting' later ∧
      (turn.inlet < profiler.inlets.length → remaining waiting' < remaining waiting) := by
  have gathers : ∀ root ∈ roots, Gathers root (told root) (turn.before profiler.world) := fun root member =>
    (spares root member _ _ (reads.gathers root member)).1
  have inlets : List.Forall₂ (Serves roots (turn.before profiler.world)) profiler.inlets waiting := by
    refine reads.inlets.imp fun inlet entry ⟨member, feeds, holds⟩ => ⟨member, ?_, holds⟩
    exact (spares entry.1 member _ _ (reads.gathers entry.1 member)).2 _ feeds
  unfold dispatch
  cases held : profiler.inlets[turn.inlet]? with
  | none =>
    refine ⟨_, told, waiting, rfl, ⟨gathers, inlets, reads.distinct, reads.divided⟩, fun inside => ?_⟩
    rw [List.getElem?_eq_none_iff] at held
    omega
  | some inlet =>
    obtain ⟨before, before', ⟨owner, here⟩, after, after', split, length, split', left, ⟨listed, feeds, bytes, fits⟩,
      right⟩ := forall₂_cut inlets held
    obtain ⟨called, taken, rest, ran, takes⟩ := inputFunc_takes turn.conditions (gathers owner listed) feeds fits
    have parts : here = taken ++ rest := takes.divided
    have distinct := reads.distinct
    rw [split, List.map_append, List.map_cons, List.nodup_middle, List.nodup_cons, ← List.map_append] at distinct
    have gathersLater : ∀ root ∈ roots,
        Gathers root (Function.update told owner (told owner ++ taken) root) called.world := by
      intro root member
      by_cases own : root = owner
      · rw [own, Function.update_self]
        exact takes.gathers
      · rw [Function.update_of_ne own]
        exact takes.others root _ own (gathers root member)
    have dividedLater : ∀ root ∈ roots, (Function.update told owner (told owner ++ taken) root ++
        meant root (before' ++ (owner, rest) :: after')).Perm (all root) := by
      intro root member
      refine List.Perm.trans ?_ (reads.divided root member)
      rw [split', meant_cut, meant_cut]
      by_cases own : root = owner
      · subst own
        rw [Function.update_self, if_pos rfl, if_pos rfl]
        show ((told root ++ taken) ++ (meant root before' ++ rest ++ meant root after')).Perm
          (told root ++ (meant root before' ++ here ++ meant root after'))
        rw [parts]
        simp only [List.append_assoc]
        exact (List.perm_append_comm_assoc _ _ _).append_left _
      · rw [Function.update_of_ne own, if_neg (Ne.symm own), if_neg (Ne.symm own)]
    -- The other channels are as they were.
    have others : ∀ {entries : List Inlet} {entries' : List (Waits layout)},
        List.Forall₂ (Serves roots (turn.before profiler.world)) entries entries' →
        (∀ other ∈ entries, other ∈ before ++ after) →
        List.Forall₂ (Serves roots called.world) entries entries' := by
      intro entries entries' served inside
      induction served with
      | nil => exact .nil
      | @cons other entry entries entries' first _ inductionHypothesis =>
        refine .cons ⟨first.1, takes.feeds entry.1 other.watch (.inl fun same => distinct.1 ?_) first.2.1, first.2.2⟩
          (inductionHypothesis fun another member => inside another (by simp [member]))
        rw [← same]
        exact List.mem_map_of_mem (inside other (by simp))
    have leftLater := others left fun other member => List.mem_append_left _ member
    have rightLater := others right fun other member => List.mem_append_right _ member
    simp only
    rw [bytes, ran, ok_bind, split', remaining_split]
    by_cases stays : called.stays = true
    · have changed : profiler.inlets.set turn.inlet { inlet with bytes := called.bytes } =
          before ++ { inlet with bytes := called.bytes } :: after := by
        rw [split, ← length]
        simp
      rw [if_pos stays, changed]
      refine ⟨_, _, before' ++ (owner, rest) :: after', rfl, ⟨gathersLater, ?_, ?_, dividedLater⟩, fun _ => ?_⟩
      · refine List.rel_append leftLater
          (.cons ⟨listed, takes.feeds owner _ (.inr stays) feeds, takes.bytes, ?_⟩ rightLater)
        intro message member
        refine fits message ?_
        show message ∈ here
        rw [parts]
        exact List.mem_append_right _ member
      · rw [List.map_append, List.map_cons, List.nodup_middle, List.nodup_cons, ← List.map_append]
        exact distinct
      · have := List.length_pos_iff.mpr (takes.some stays)
        rw [remaining_split]
        show _ + (rest.length + 1) + _ < _ + (here.length + 1) + _
        rw [parts, List.length_append]
        omega
    · have changed : profiler.inlets.eraseIdx turn.inlet = before ++ after := by
        rw [split, ← length, List.eraseIdx_append_of_length_le (Nat.le_refl _), Nat.sub_self]
        rfl
      have nothing := takes.none (Bool.eq_false_iff.mpr stays)
      rw [if_neg stays, changed]
      refine ⟨_, _, before' ++ after', rfl, ⟨gathersLater, List.rel_append leftLater rightLater, distinct.2, ?_⟩,
        fun _ => ?_⟩
      · intro root member
        have divided := dividedLater root member
        rw [meant_cut, nothing, ite_self, List.append_nil] at divided
        simpa only [meant, List.filter_append, List.flatMap_append] using divided
      · simp only [remaining, List.map_append, List.sum_append]
        omega

theorem dispatchAll_readsAll {roots : List ProcId} {all told : ProcId → List (Message layout)}
    {waiting : List (Waits layout)} {profiler : Profiler} (reads : ReadsAll roots all told waiting profiler)
    {turns : List Turn} (spares : ∀ turn ∈ turns, ∀ root ∈ roots, Spares layout root turn.before) :
    ∃ later told' waiting', dispatchAll layout profiler turns = .ok later ∧
      ReadsAll roots all told' waiting' later := by
  induction turns generalizing told waiting profiler with
  | nil => exact ⟨profiler, told, waiting, rfl, reads⟩
  | cons turn turns inductionHypothesis =>
    obtain ⟨next, _, _, ran, readsNext, _⟩ := dispatch_readsAll reads (spares turn (by simp))
    obtain ⟨later, told', waiting', ranLater, readsLater⟩ :=
      inductionHypothesis readsNext fun other member => spares other (by simp [member])
    refine ⟨later, told', waiting', ?_, readsLater⟩
    rw [dispatchAll, List.foldlM_cons, ran, ok_bind]
    exact ranLater

/-- Turns of the first channel only, each reading no more than it must. -/
def enough (count : ℕ) : List Turn := List.replicate count { inlet := 0, conditions := [] }

/-- From wherever they are, enough more turns bring all channels to their end. -/
theorem dispatchAll_endsAll {roots : List ProcId} {all told : ProcId → List (Message layout)}
    {waiting : List (Waits layout)} {profiler : Profiler} (reads : ReadsAll roots all told waiting profiler) :
    ∃ count later, dispatchAll layout profiler (enough count) = .ok later ∧ later.inlets = [] := by
  induction rest : remaining waiting using Nat.strong_induction_on generalizing told waiting profiler with
  | _ rest inductionHypothesis =>
    by_cases none : profiler.inlets = []
    · exact ⟨0, profiler, rfl, none⟩
    · obtain ⟨next, told', waiting', ran, readsNext, fewer⟩ :=
        @dispatch_readsAll layout _ _ _ _ _ reads { inlet := 0, conditions := [] } fun root _ => spares_id root
      have fewer := fewer (List.length_pos_iff.mpr none)
      obtain ⟨count, later, ranLater, ended⟩ := inductionHypothesis _ (by omega) readsNext rfl
      refine ⟨count + 1, later, ?_, ended⟩
      rw [dispatchAll, enough, List.replicate_succ, List.foldlM_cons, ran, ok_bind]
      exact ranLater

/-! ## The channels of one process -/

/-- Of `all` messages for `root` some have been read, and the others wait on the channels. -/
structure Reads (root : ProcId) (all : List (Message layout)) (told : List (Message layout))
    (waiting : List (List (Message layout))) (profiler : Profiler) : Prop where
  gathers : Gathers root told profiler.world
  holds : List.Forall₂ Holds profiler.inlets waiting
  feeds : ∀ inlet ∈ profiler.inlets, Feeds root profiler.world inlet.watch
  distinct : (profiler.inlets.map (·.watch.tag)).Nodup
  divided : (told ++ waiting.flatten).Perm all

theorem meant_all (root : ProcId) (waiting : List (List (Message layout))) :
    meant root (waiting.map fun messages => (root, messages)) = waiting.flatten := by
  rw [meant, List.filter_eq_self.mpr, List.flatMap_map]
  · exact List.flatMap_id
  · intro entry member
    obtain ⟨messages, _, rfl⟩ := List.mem_map.mp member
    exact decide_eq_true rfl

theorem Reads.toAll {root : ProcId} {all told : List (Message layout)} {waiting : List (List (Message layout))}
    {profiler : Profiler} (reads : Reads root all told waiting profiler) :
    ReadsAll [root] (fun _ => all) (fun _ => told) (waiting.map fun messages => (root, messages)) profiler where
  gathers other member := by
    rw [List.mem_singleton.mp member]
    exact reads.gathers
  inlets := by
    rw [List.forall₂_map_right_iff]
    refine List.forall₂_iff_zip.mpr ⟨reads.holds.length_eq, fun {inlet messages} member => ?_⟩
    exact ⟨List.mem_singleton.mpr rfl, reads.feeds inlet (List.of_mem_zip member).1,
      (List.forall₂_iff_zip.mp reads.holds).2 member⟩
  distinct := reads.distinct
  divided other member := by
    rw [List.mem_singleton.mp member, meant_all]
    exact reads.divided

theorem ReadsAll.toReads {root : ProcId} {all told : ProcId → List (Message layout)} {waiting : List (Waits layout)}
    {profiler : Profiler} (reads : ReadsAll [root] all told waiting profiler) :
    Reads root (all root) (told root) (waiting.map Prod.snd) profiler := by
  have own : waiting = (waiting.map Prod.snd).map fun messages => (root, messages) := by
    rw [List.map_map]
    refine (List.map_id _).symm.trans (List.map_congr_left fun entry member => ?_)
    obtain ⟨i, held⟩ := List.mem_iff_getElem?.mp member
    obtain ⟨_, _, _, _, _, _, _, split, _, served, _⟩ := forall₂_cut reads.inlets.flip held
    exact Prod.ext (List.mem_singleton.mp served.1) rfl
  refine ⟨reads.gathers root (by simp), ?_, fun inlet member => ?_, reads.distinct, ?_⟩
  · rw [List.forall₂_map_right_iff]
    exact reads.inlets.imp fun inlet entry served => served.2.2
  · obtain ⟨i, held⟩ := List.mem_iff_getElem?.mp member
    obtain ⟨_, _, entry, _, _, _, _, _, _, served, _⟩ := forall₂_cut reads.inlets held
    have feeds := served.2.1
    rwa [List.mem_singleton.mp served.1] at feeds
  · have divided := reads.divided root (by simp)
    rwa [own, meant_all] at divided

theorem meant_other {root other : ProcId} (apart : other ≠ root) (waiting : List (List (Message layout))) :
    meant root (waiting.map fun messages => (other, messages)) = [] := by
  rw [meant, List.filter_eq_nil_iff.mpr, List.flatMap_nil]
  intro entry member
  obtain ⟨messages, _, rfl⟩ := List.mem_map.mp member
  simpa using apart

theorem meant_append (root : ProcId) (before after : List (Waits layout)) :
    meant root (before ++ after) = meant root before ++ meant root after := by
  rw [meant, meant, meant, List.filter_append, List.flatMap_append]

/-- The channels are as they were in a world that has changed otherwise. -/
theorem Reads.moved {root : ProcId} {all told : List (Message layout)} {waiting : List (List (Message layout))}
    {world later : World} {inlets : List Inlet} (reads : Reads root all told waiting ⟨world, inlets⟩)
    (gathers : Gathers root told later) (feeds : ∀ watch, Feeds root world watch → Feeds root later watch) :
    Reads root all told waiting ⟨later, inlets⟩ where
  gathers := gathers
  holds := reads.holds
  feeds inlet member := feeds inlet.watch (reads.feeds inlet member)
  distinct := reads.distinct
  divided := reads.divided

/-- The channels of two processes, read by one server. -/
theorem Reads.both {root other : ProcId} (apart : root ≠ other) {all told all' told' : List (Message layout)}
    {waiting waiting' : List (List (Message layout))} {world : World} {inlets inlets' : List Inlet}
    (reads : Reads root all told waiting ⟨world, inlets⟩)
    (readsOther : Reads other all' told' waiting' ⟨world, inlets'⟩)
    (distinct : ((inlets ++ inlets').map (·.watch.tag)).Nodup) :
    ReadsAll [root, other] (fun p => if p = other then all' else all) (fun p => if p = other then told' else told)
      (waiting.map (fun messages => (root, messages)) ++ waiting'.map fun messages => (other, messages))
      ⟨world, inlets ++ inlets'⟩ where
  gathers p member := by
    rcases List.mem_pair.mp member with rfl | rfl
    · rw [if_neg apart]
      exact reads.gathers
    · rw [if_pos rfl]
      exact readsOther.gathers
  inlets := by
    refine List.rel_append (reads.toAll.inlets.imp ?_) (readsOther.toAll.inlets.imp ?_)
    · exact fun inlet entry serves => ⟨List.mem_pair.mpr (.inl (List.mem_singleton.mp serves.1)), serves.2⟩
    · exact fun inlet entry serves => ⟨List.mem_pair.mpr (.inr (List.mem_singleton.mp serves.1)), serves.2⟩
  distinct := distinct
  divided p member := by
    rw [meant_append]
    rcases List.mem_pair.mp member with rfl | rfl
    · rw [if_neg apart, if_neg apart, meant_all, meant_other apart.symm, List.append_nil]
      exact reads.divided
    · rw [if_pos rfl, if_pos rfl, meant_all, meant_other apart, List.nil_append]
      exact readsOther.divided

/-- When all channels have ended, every process has been told all that is for it. -/
theorem ReadsAll.ended {roots : List ProcId} {all told : ProcId → List (Message layout)}
    {waiting : List (Waits layout)} {profiler : Profiler} (reads : ReadsAll roots all told waiting profiler)
    (ended : profiler.inlets = []) {root : ProcId} (member : root ∈ roots) :
    Reads root (all root) (told root) [] profiler where
  gathers := reads.gathers root member
  holds := by
    rw [ended]
    exact .nil
  feeds inlet member := by
    rw [ended] at member
    cases member
  distinct := reads.distinct
  divided := by
    have inlets := reads.inlets
    rw [ended, List.forall₂_nil_left_iff] at inlets
    have divided := reads.divided root member
    rwa [inlets] at divided

theorem dispatchAll_reads {root : ProcId} {all told : List (Message layout)} {waiting : List (List (Message layout))}
    {profiler : Profiler} (reads : Reads root all told waiting profiler) {turns : List Turn}
    (spares : ∀ turn ∈ turns, Spares layout root turn.before) :
    ∃ later told' waiting', dispatchAll layout profiler turns = .ok later ∧ Reads root all told' waiting' later := by
  obtain ⟨later, told', waiting', dispatched, readsLater⟩ :=
    dispatchAll_readsAll reads.toAll fun turn member other same => by
      rw [List.mem_singleton.mp same]
      exact spares turn member
  exact ⟨later, _, _, dispatched, readsLater.toReads⟩

theorem dispatchAll_ends {root : ProcId} {all told : List (Message layout)} {waiting : List (List (Message layout))}
    {profiler : Profiler} (reads : Reads root all told waiting profiler) :
    ∃ count later, dispatchAll layout profiler (enough count) = .ok later ∧ later.inlets = [] :=
  dispatchAll_endsAll reads.toAll

end Memprof.Concurrent
