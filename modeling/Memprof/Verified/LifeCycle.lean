import Memprof.LifeCycle
import Memprof.Verified.Control

/-! # Channels and their sources

What the life of a process does to its input is a matter of few moves on the pair of
`input_tag` and `input_channel` and on the main loop's sources.  All of them keep a tag
with its source but one: `input_func`, which drops the channel at the end of file, leaves
the tag.  Whether a process has a channel follows from the connections, resets and ends it
has seen, and from nothing else.
-/

namespace Memprof.LifeCycle

open Library Blocks Accounting Serving Control

/-! ## Moves -/

structure Input where
  tag : ℕ := 0
  channel : Option Channel := none

/-- What the main loop has to do with the processes. -/
structure Inputs where
  processes : List Input := []
  watches : List Watch := []
  lastTag : ℕ := 0

namespace Inputs

/-- A source is taken away with its tag. -/
def stop (inputs : Inputs) (p : ProcId) (input : Input) : Inputs where
  processes := inputs.processes.set p { input with tag := 0 }
  watches := inputs.watches.filter (·.tag ≠ input.tag)
  lastTag := inputs.lastTag

def start (inputs : Inputs) (p : ProcId) (channel : Channel) : Inputs where
  processes := inputs.processes.set p ⟨inputs.lastTag + 1, some channel⟩
  watches := ⟨inputs.lastTag + 1, channel, p⟩ :: inputs.watches
  lastTag := inputs.lastTag + 1

/-- The end of the file on a source. -/
def close (inputs : Inputs) (watch : Watch) : Inputs where
  processes := inputs.processes.set watch.process ⟨watch.tag, none⟩
  watches := inputs.watches.filter (·.tag ≠ watch.tag)
  lastTag := inputs.lastTag

end Inputs

/-- What is done to the input of a process, apart from the end of a file. -/
inductive Move : Inputs → Inputs → Prop
  | new {inputs : Inputs} : Move inputs { inputs with processes := inputs.processes ++ [{}] }
  | stop {inputs : Inputs} {p : ProcId} {input : Input} (found : inputs.processes[p]? = some input)
      (watched : input.tag ≠ 0) : Move inputs (inputs.stop p input)
  | start {inputs : Inputs} {p : ProcId} {channel : Channel} (found : inputs.processes[p]? = some ⟨0, some channel⟩) :
      Move inputs (inputs.start p channel)
  /-- Only the channel of a process without a source changes. -/
  | put {inputs : Inputs} {p : ProcId} {input : Input} (found : inputs.processes[p]? = some input)
      (unwatched : input.tag = 0) (channel : Option Channel) :
      Move inputs { inputs with processes := inputs.processes.set p ⟨0, channel⟩ }

/-- The sources belong to processes that have their tags and channels, and no tag is used
twice. -/
structure Tracked (inputs : Inputs) : Prop where
  watched : ∀ watch ∈ inputs.watches, inputs.processes[watch.process]? = some ⟨watch.tag, some watch.channel⟩
  tagged : ∀ watch ∈ inputs.watches, watch.tag ≠ 0
  bounded : ∀ (p : ProcId) (input : Input), inputs.processes[p]? = some input → input.tag ≤ inputs.lastTag
  distinct : ∀ (p q : ProcId) (input input' : Input), inputs.processes[p]? = some input →
    inputs.processes[q]? = some input' →
    input.tag = input'.tag → input.tag ≠ 0 → p = q

/-- A process with a tag has a channel and a source for it. -/
def Installed (inputs : Inputs) : Prop :=
  ∀ (p : ProcId) (input : Input), inputs.processes[p]? = some input → input.tag ≠ 0 →
    ∃ channel, input.channel = some channel ∧ ⟨input.tag, channel, p⟩ ∈ inputs.watches

/-- One process changes its input, and the sources with it. -/
theorem Tracked.set {inputs later : Inputs} (tracked : Tracked inputs) {p : ProcId} {input input' : Input}
    (found : inputs.processes[p]? = some input) (processes : later.processes = inputs.processes.set p input')
    (watches : ∀ watch ∈ later.watches, (watch ∈ inputs.watches ∧ watch.process ≠ p) ∨
      (watch.process = p ∧ input' = ⟨watch.tag, some watch.channel⟩ ∧ watch.tag ≠ 0))
    (tag : input'.tag = 0 ∨ input'.tag = input.tag ∨ inputs.lastTag < input'.tag)
    (last : inputs.lastTag ≤ later.lastTag) (bound : input'.tag ≤ later.lastTag) : Tracked later := by
  have inside := (List.getElem?_eq_some_iff.mp found).1
  have here : later.processes[p]? = some input' := by rw [processes, List.getElem?_set_self inside]
  have elsewhere : ∀ q, q ≠ p → later.processes[q]? = inputs.processes[q]? := fun q other => by
    rw [processes, List.getElem?_set_ne (Ne.symm other)]
  -- a tag of another process is an old one, and so is not the new tag of this one
  have apart : ∀ q other, q ≠ p → inputs.processes[q]? = some other → other.tag = input'.tag → other.tag = 0 := by
    intro q other different held same
    by_contra tagged
    rcases tag with zero | old | fresh
    · exact tagged (same.trans zero)
    · exact different (tracked.distinct q p other input held found (same.trans old) tagged)
    · have old := tracked.bounded q other held
      omega
  refine ⟨?_, ?_, ?_, ?_⟩
  · intro watch member
    rcases watches watch member with ⟨old, other⟩ | ⟨own, same, _⟩
    · rw [elsewhere _ other]
      exact tracked.watched watch old
    · rw [own, here, same]
  · intro watch member
    rcases watches watch member with ⟨old, _⟩ | ⟨_, _, tagged⟩
    · exact tracked.tagged watch old
    · exact tagged
  · intro q other held
    by_cases same : q = p
    · rw [same, here] at held
      cases held
      exact bound
    · rw [elsewhere q same] at held
      exact (tracked.bounded q other held).trans last
  · intro q r left right heldLeft heldRight equal tagged
    by_cases leftHere : q = p <;> by_cases rightHere : r = p
    · rw [leftHere, rightHere]
    · rw [leftHere, here] at heldLeft
      rw [elsewhere r rightHere] at heldRight
      cases heldLeft
      exact (tagged (equal.trans (apart r right rightHere heldRight equal.symm))).elim
    · rw [elsewhere q leftHere] at heldLeft
      rw [rightHere, here] at heldRight
      cases heldRight
      exact (tagged (apart q left leftHere heldLeft equal)).elim
    · rw [elsewhere q leftHere] at heldLeft
      rw [elsewhere r rightHere] at heldRight
      exact tracked.distinct q r left right heldLeft heldRight equal tagged

theorem Installed.set {inputs later : Inputs} (installed : Installed inputs) {p : ProcId} {input' : Input}
    (processes : later.processes = inputs.processes.set p input')
    (kept : ∀ watch ∈ inputs.watches, watch.process ≠ p → watch ∈ later.watches)
    (own : input'.tag ≠ 0 → ∃ channel, input'.channel = some channel ∧ ⟨input'.tag, channel, p⟩ ∈ later.watches) :
    Installed later := by
  intro q other held tagged
  rw [processes, List.getElem?_set] at held
  split at held
  next same =>
    subst same
    split at held
    · cases held
      exact own tagged
    · cases held
  next different =>
    obtain ⟨channel, connected, member⟩ := installed q other held tagged
    exact ⟨channel, connected, kept _ member (Ne.symm different)⟩

/-- The source of a process is the one with its tag. -/
theorem Tracked.watch_of_tag {inputs : Inputs} (tracked : Tracked inputs) {p : ProcId} {input : Input}
    (found : inputs.processes[p]? = some input) {watch : Watch} (member : watch ∈ inputs.watches) :
    watch.process = p ↔ watch.tag = input.tag := by
  have held := tracked.watched watch member
  constructor
  · intro own
    rw [own, found] at held
    cases held
    rfl
  · intro same
    exact tracked.distinct watch.process p _ input held found same (tracked.tagged watch member)

/-- Without a tag a process has no source. -/
theorem Tracked.unwatched {inputs : Inputs} (tracked : Tracked inputs) {p : ProcId} {input : Input}
    (found : inputs.processes[p]? = some input) (idle : input.tag = 0) {watch : Watch} (member : watch ∈ inputs.watches) :
    watch.process ≠ p := by
  intro own
  exact tracked.tagged watch member (((tracked.watch_of_tag found member).mp own).trans idle)

theorem Tracked.filter {inputs : Inputs} (tracked : Tracked inputs) {p : ProcId} {input : Input}
    (found : inputs.processes[p]? = some input) {watch : Watch}
    (member : watch ∈ inputs.watches.filter (·.tag ≠ input.tag)) : watch ∈ inputs.watches ∧ watch.process ≠ p := by
  obtain ⟨old, other⟩ := List.mem_filter.mp member
  exact ⟨old, fun own => of_decide_eq_true other ((tracked.watch_of_tag found old).mp own)⟩

theorem Tracked.mem_filter {inputs : Inputs} (tracked : Tracked inputs) {p : ProcId} {input : Input}
    (found : inputs.processes[p]? = some input) {watch : Watch} (member : watch ∈ inputs.watches)
    (other : watch.process ≠ p) : watch ∈ inputs.watches.filter (·.tag ≠ input.tag) :=
  List.mem_filter.mpr ⟨member, decide_eq_true fun same => other ((tracked.watch_of_tag found member).mpr same)⟩

theorem Move.tracked {inputs later : Inputs} (move : Move inputs later) (tracked : Tracked inputs) : Tracked later := by
  cases move with
  | new =>
    have old : ∀ (q : ProcId) (input : Input), (inputs.processes ++ [({} : Input)])[q]? = some input →
        inputs.processes[q]? = some input ∨ input = ({} : Input) := by
      intro q input held
      rcases Nat.lt_or_ge q inputs.processes.length with inside | outside
      · rw [List.getElem?_append_left inside] at held
        exact .inl held
      · rw [List.getElem?_append_right outside] at held
        exact .inr (by simpa using List.mem_of_getElem? held)
    refine ⟨fun watch member => ?_, tracked.tagged, fun q input held => ?_, fun q r left right heldLeft heldRight same tagged => ?_⟩
    · have held := tracked.watched watch member
      rw [List.getElem?_append_left (List.getElem?_eq_some_iff.mp held).1, held]
    · rcases old q input held with held | rfl
      · exact tracked.bounded q input held
      · exact Nat.zero_le _
    · rcases old q left heldLeft with heldLeft | rfl
      · rcases old r right heldRight with heldRight | rfl
        · exact tracked.distinct q r left right heldLeft heldRight same tagged
        · exact (tagged same).elim
      · exact (tagged rfl).elim
  | stop found _ =>
    exact tracked.set found rfl (fun watch member => .inl (tracked.filter found member)) (.inl rfl) le_rfl (Nat.zero_le _)
  | start found =>
    refine tracked.set found rfl (fun watch member => ?_) (.inr (.inr (Nat.lt_succ_self _))) (Nat.le_succ _) le_rfl
    cases List.mem_cons.mp member with
    | inl new => exact .inr (new ▸ ⟨rfl, rfl, Nat.succ_ne_zero _⟩)
    | inr old => exact .inl ⟨old, tracked.unwatched found rfl old⟩
  | put found unwatched channel =>
    exact tracked.set found rfl (fun watch member => .inl ⟨member, tracked.unwatched found unwatched member⟩) (.inl rfl)
      le_rfl (Nat.zero_le _)

theorem Move.installed {inputs later : Inputs} (move : Move inputs later) (tracked : Tracked inputs)
    (installed : Installed inputs) : Installed later := by
  cases move with
  | new =>
    intro q input held tagged
    rcases Nat.lt_or_ge q inputs.processes.length with inside | outside
    · rw [List.getElem?_append_left inside] at held
      exact installed q input held tagged
    · rw [List.getElem?_append_right outside] at held
      have blank : input = {} := by simpa using List.mem_of_getElem? held
      exact (tagged (by rw [blank])).elim
  | stop found _ =>
    exact installed.set rfl (fun watch member other => tracked.mem_filter found member other) fun tagged =>
      (tagged rfl).elim
  | start found =>
    exact installed.set rfl (fun watch member _ => List.mem_cons_of_mem _ member) fun _ => ⟨_, rfl, List.mem_cons_self⟩
  | put found _ channel =>
    exact installed.set rfl (fun watch member _ => member) fun tagged => (tagged rfl).elim

/-- The end of a file keeps the sources right, but the tag it leaves has none. -/
theorem close_tracked {inputs : Inputs} (tracked : Tracked inputs) {watch : Watch} (member : watch ∈ inputs.watches) :
    Tracked (inputs.close watch) := by
  have found := tracked.watched watch member
  have bounded := tracked.bounded _ _ found
  exact tracked.set found rfl (fun other kept => .inl (tracked.filter found kept)) (.inr (.inl rfl)) le_rfl bounded

theorem close_not_installed {inputs : Inputs} (tracked : Tracked inputs) {watch : Watch}
    (member : watch ∈ inputs.watches) : ¬ Installed (inputs.close watch) := by
  intro installed
  have inside := (List.getElem?_eq_some_iff.mp (tracked.watched watch member)).1
  have here : (inputs.close watch).processes[watch.process]? = some ⟨watch.tag, none⟩ := List.getElem?_set_self inside
  obtain ⟨_, connected, _⟩ := installed _ _ here (tracked.tagged watch member)
  cases connected

/-! ## The moves of the operations -/

def inputOf (process : MPProcess) : Input := ⟨process.inputTag, process.inputChannel⟩

def inputs (world : World) : Inputs := ⟨world.processes.map inputOf, world.watches, world.lastTag⟩

/-- Which processes have a channel. -/
def connected (world : World) : List Bool := world.processes.map fun process => process.inputChannel.isSome

theorem connected_eq {world later : World} (same : inputs later = inputs world) :
    connected later = connected world := by
  have view : ∀ world, connected world = (inputs world).processes.map fun input =>
    input.channel.isSome := fun world => by
    rw [connected, inputs, List.map_map]
    rfl
  rw [view, view, same]

theorem length_connected (world : World) : (connected world).length = world.processes.length := List.length_map _

theorem inputs_quiet {world later : World} (quiet : Quiet world later) : inputs later = inputs world := by
  have view : ∀ world : World, world.processes.map inputOf = (world.processes.map face).map fun seen =>
    ⟨seen.2.1, seen.2.2⟩ :=
    fun world => by rw [List.map_map]; rfl
  rw [inputs, inputs, view, view, quiet.faces, quiet.watches, quiet.lastTag]

theorem found_inputs {world : World} {p : ProcId} {process : MPProcess} (found : world.process p = .ok process) :
    (inputs world).processes[p]? = some (inputOf process) := by
  rw [inputs, List.getElem?_map, World.process_eq_ok.mp found]
  rfl

theorem connected_set {world later : World} {p : ProcId} {process' : MPProcess}
    (processes : later.processes = world.processes.set p process') :
    connected later = (connected world).set p process'.inputChannel.isSome := by
  rw [connected, processes, List.map_set]
  rfl

theorem connected_set_self {world : World} {p : ProcId} {process : MPProcess} (found : world.process p = .ok process) :
    (connected world).set p process.inputChannel.isSome = connected world := by
  have same := connected_set (rfl : (world.setProcess p process).processes = world.processes.set p process)
  rw [World.setProcess_self found] at same
  exact same.symm

/-- An operation is some moves, after which these processes have a channel. -/
structure Moved (world later : World) (flags : List Bool) : Prop where
  moves : Relation.ReflTransGen Move (inputs world) (inputs later)
  connected : connected later = flags

theorem Moved.trans_quiet {first second third : World} {flags : List Bool} (moved : Moved first second flags)
    (same : inputs third = inputs second) : Moved first third flags :=
  ⟨same ▸ moved.moves, (connected_eq same).trans moved.connected⟩

theorem Moved.of_same {world later : World} (same : inputs later = inputs world) :
    Moved world later (LifeCycle.connected world) := ⟨same ▸ .refl, connected_eq same⟩

theorem Moved.of_quiet {world later : World} (quiet : Quiet world later) :
    Moved world later (LifeCycle.connected world) :=
  .of_same (inputs_quiet quiet)

/-- One process changes its input by a move. -/
theorem moved_set {world later : World} {p : ProcId} {process' : MPProcess}
    (processes : later.processes = world.processes.set p process')
    (move : Move (inputs world) ⟨(inputs world).processes.set p (inputOf process'), later.watches, later.lastTag⟩) :
    Moved world later ((connected world).set p process'.inputChannel.isSome) := by
  have same : inputs later = ⟨(inputs world).processes.set p (inputOf process'), later.watches, later.lastTag⟩ := by
    rw [inputs, processes, List.map_set]
    rfl
  exact ⟨.single (same ▸ move), connected_set processes⟩

theorem processStopInput_moved {world later : World} {p : ProcId} {process : MPProcess}
    (found : world.process p = .ok process) (performed : world.processStopInput p = .ok later) :
    Moved world later (connected world) ∧ later.process p = .ok { process with inputTag := 0 } := by
  unfold World.processStopInput at performed
  rw [found, ok_bind] at performed
  split at performed
  next watched =>
    cases performed
    refine ⟨?_, World.process_setProcess_self found _⟩
    rw [← connected_set_self found]
    exact @moved_set world _ p { process with inputTag := 0 } rfl (.stop (found_inputs found) watched)
  next idle =>
    cases performed
    have zero : process.inputTag = 0 := not_not.mp idle
    refine ⟨.of_same rfl, ?_⟩
    rw [found, ← zero]

theorem processStartInput_moved {world later : World} {p : ProcId} (performed : world.processStartInput p = .ok later) :
    Moved world later (connected world) := by
  obtain ⟨process, found, performed⟩ := ok_of_bind performed
  split at performed
  next channel idle held =>
    cases performed
    have seen := found_inputs found
    rw [inputOf, idle, held] at seen
    have started := Move.start seen
    rw [← connected_set_self found]
    refine @moved_set world _ p { process with inputTag := world.lastTag + 1 } rfl ?_
    rw [inputOf, held]
    exact started
  next =>
    cases performed
    exact .of_same rfl

/-- A process without a source is given a channel, or none. -/
theorem put_moved {world later : World} {p : ProcId} {process process' : MPProcess}
    (found : world.process p = .ok process) (idle : process.inputTag = 0) (idle' : process'.inputTag = 0)
    (processes : later.processes = world.processes.set p process') (watches : later.watches = world.watches)
    (lastTag : later.lastTag = world.lastTag) :
    Moved world later ((connected world).set p process'.inputChannel.isSome) := by
  apply moved_set processes
  rw [inputOf, idle', watches, lastTag]
  exact .put (found_inputs found) idle process'.inputChannel

theorem Moved.trans {first second third : World} {flags flags' : List Bool} (left : Moved first second flags)
    (right : Moved second third flags') : Moved first third flags' :=
  ⟨left.moves.trans right.moves, right.connected⟩

theorem processReinit_moved {world later : World} {p : ProcId} (performed : world.processReinit p = .ok later) :
    Moved world later ((connected world).set p false) ∧
      ∃ process : MPProcess, later.process p = .ok process ∧ process.inputTag = 0 := by
  obtain ⟨quiet, stopped, performed⟩ := ok_of_bind performed
  obtain ⟨empty, dropped, performed⟩ := ok_of_bind performed
  obtain ⟨process, found, performed⟩ := ok_of_bind performed
  cases performed
  obtain ⟨original, foundFirst, _⟩ := ok_of_bind stopped
  obtain ⟨movedStop, heldStop⟩ := processStopInput_moved foundFirst stopped
  have unmoved := inputs_quiet (dropBlocks_quiet dropped)
  have idle : process.inputTag = 0 := by
    have seen := found_inputs found
    rw [unmoved, found_inputs heldStop] at seen
    exact (congrArg Input.tag (Option.some.inj seen)).symm
  have moved := movedStop.trans_quiet unmoved
  refine ⟨moved.trans ?_, _, World.process_setProcess_self found _, idle⟩
  rw [← moved.connected]
  exact @put_moved empty _ p _ { process with inputChannel := none, seqno := 0, commandQueue := [] } found idle idle rfl rfl rfl

theorem acceptInput_moved {world : World} {p : ProcId} {process : MPProcess} {channel : Channel} {result : World × Bool}
    (found : world.process p = .ok process) (idle : process.inputTag = 0)
    (performed : world.acceptInput p channel = .ok result) :
    Moved world result.1 ((connected world).set p true) ∧ result.2 = true := by
  unfold World.acceptInput at performed
  rw [found, ok_bind] at performed
  obtain ⟨later, started, performed⟩ := ok_of_bind performed
  cases performed
  have put : Moved world (world.setProcess p { process with inputChannel := some channel }) ((connected world).set p true) :=
    @put_moved world _ p _ { process with inputChannel := some channel } found idle idle rfl rfl rfl
  have moved := processStartInput_moved started
  rw [put.connected] at moved
  exact ⟨put.trans moved, rfl⟩

/-! ## Connections -/

def newTarget (world : World) (info : MIInfoFork) : Option ProcId :=
  match world.mpServerFindProcess info.newPid, world.mpServerFindProcess info.pid with
  -- a process that is listed is reset, or followed by a new one
  | some p, _ => some (if (world.process p).toOption.any (·.followExec) then world.processes.length else p)
  | none, some _ => some world.processes.length
  | none, none => none

/-- The process that a connection goes to, if it is taken; the one after the last is yet
to be made. -/
def target (world : World) (info : MIInfoFork) : Option ProcId :=
  match info.operation with
  | .fork =>
    if (world.mpServerFindProcess info.pid).any fun p => (world.process p).toOption.any fun parent => !parent.followFork
    then none
    else newTarget world info
  | .new => newTarget world info
  | .clone => (world.mpServerFindProcess info.pid).map fun _ => world.processes.length
  | _ => none

/-- Which processes have a channel when one of them, or a new one, has been given one. -/
def connect (flags : List Bool) : Option ProcId → List Bool
  | none => flags
  | some q => if q < flags.length then flags.set q true else flags ++ [true]

theorem new_moved {world made : World} {process : MPProcess} (processes : made.processes = world.processes ++ [process])
    (blank : inputOf process = {}) (watches : made.watches = world.watches) (lastTag : made.lastTag = world.lastTag) :
    Moved world made (connected world ++ [false]) := by
  have channel : process.inputChannel = none := congrArg Input.channel blank
  refine ⟨.single ?_, ?_⟩
  · have seen : inputs made = { inputs world with processes := (inputs world).processes ++ [{}] } := by
      rw [inputs, processes, watches, lastTag, List.map_append, List.map_singleton, blank]
      rfl
    rw [seen]
    exact .new
  · rw [connected, processes, List.map_append, List.map_singleton, channel]
    rfl

/-- A process waits for the channel that was accepted for it. -/
def Ready (world ready : World) (q : ProcId) : Prop :=
  ∃ (process : MPProcess) (flags : List Bool), ready.process q = .ok process ∧ process.inputTag = 0 ∧
    Moved world ready flags ∧ flags.set q true = connect (connected world) (some q)

theorem Ready.same {world ready later : World} {q : ProcId} (holds : Ready world ready q)
    (same : inputs later = inputs ready) : Ready world later q := by
  obtain ⟨process, flags, found, idle, moved, flagged⟩ := holds
  have seen := found_inputs found
  rw [← same, inputs, List.getElem?_map] at seen
  obtain ⟨process', held, equal⟩ := Option.map_eq_some_iff.mp seen
  exact ⟨process', flags, World.process_eq_ok.mpr held, (congrArg Input.tag equal).trans idle, moved.trans_quiet same,
    flagged⟩

theorem ready_of_append {world ready : World} {process : MPProcess}
    (processes : ready.processes = world.processes ++ [process]) (blank : inputOf process = {})
    (watches : ready.watches = world.watches) (lastTag : ready.lastTag = world.lastTag) :
    Ready world ready world.processes.length := by
  have tag : process.inputTag = 0 := congrArg Input.tag blank
  refine ⟨process, connected world ++ [false], process_of_append processes, tag, new_moved processes blank watches lastTag, ?_⟩
  rw [connect, length_connected, if_neg (lt_irrefl _), ← length_connected, List.set_append_right _ _ le_rfl]
  simp

theorem inputs_setProcess {world : World} {p : ProcId} {process process' : MPProcess}
    (found : world.process p = .ok process) (same : inputOf process' = inputOf process) :
    inputs (world.setProcess p process') = inputs world := by
  obtain ⟨inside, here⟩ := List.getElem?_eq_some_iff.mp (World.process_eq_ok.mp found)
  rw [inputs, World.setProcess, List.map_set, same, ← here, ← List.map_set, List.set_getElem_self]
  rfl

theorem inputs_addProcess {world later : World} {p : ProcId} (performed : world.mpServerAddProcess p = .ok later) :
    inputs later = inputs world := by
  obtain ⟨process, _, performed⟩ := ok_of_bind performed
  cases performed
  rfl

theorem reuseProcess_ready {world : World} {p : ProcId} {result : World × ProcId}
    (performed : world.reuseProcess p = .ok result) :
    result.2 = (if (world.process p).toOption.any (·.followExec) then world.processes.length else p) ∧
      Ready world result.1 result.2 := by
  obtain ⟨old, found, performed⟩ := ok_of_bind performed
  have follows : (world.process p).toOption.any (·.followExec) = old.followExec := by rw [found]; rfl
  rw [follows]
  split at performed
  next follow =>
    obtain ⟨process, held, performed⟩ := ok_of_bind performed
    obtain ⟨added, ranAdd, performed⟩ := ok_of_bind performed
    obtain ⟨created, ranCreated, performed⟩ := ok_of_bind performed
    cases performed
    have made : Ready world world.processNew.1 world.processes.length := ready_of_append rfl rfl rfl rfl
    refine ⟨(if_pos follow).symm, ((made.same ?_).same (inputs_addProcess ranAdd)).same
      (inputs_quiet (mpServerProcessCreated_quiet ranCreated))⟩
    exact inputs_setProcess held rfl
  next stay =>
    obtain ⟨reset, ranReset, performed⟩ := ok_of_bind performed
    cases performed
    obtain ⟨moved, process, held, idle⟩ := processReinit_moved ranReset
    have inside : p < (connected world).length := by
      rw [length_connected]
      exact (List.getElem?_eq_some_iff.mp (World.process_eq_ok.mp found)).1
    refine ⟨(if_neg stay).symm, process, _, held, idle, moved, ?_⟩
    rw [connect, if_pos inside, List.set_set]

theorem processDuplicate_ready {world : World} {p : ProcId} {result : World × ProcId}
    (performed : world.processDuplicate p = .ok result) :
    result.2 = world.processes.length ∧ Ready world result.1 world.processes.length := by
  obtain ⟨process, _, performed⟩ := ok_of_bind performed
  obtain ⟨⟨blocks, table⟩, _, performed⟩ := ok_of_bind performed
  cases performed
  exact ⟨rfl, ready_of_append (set_of_append rfl _) rfl rfl rfl⟩

theorem forkProcess_ready {world : World} {parent : ProcId} {newPid : Pid} {result : World × ProcId}
    (performed : world.forkProcess parent newPid = .ok result) :
    result.2 = world.processes.length ∧ Ready world result.1 result.2 := by
  obtain ⟨⟨copied, q⟩, ranDuplicate, performed⟩ := ok_of_bind performed
  obtain ⟨same, made⟩ := processDuplicate_ready ranDuplicate
  cases same
  obtain ⟨process, found, performed⟩ := ok_of_bind performed
  obtain ⟨added, ranAdd, performed⟩ := ok_of_bind performed
  obtain ⟨created, ranCreated, performed⟩ := ok_of_bind performed
  cases performed
  refine ⟨rfl, ((made.same ?_).same (inputs_addProcess ranAdd)).same
    (inputs_quiet (mpServerProcessCreated_quiet ranCreated))⟩
  exact inputs_setProcess found rfl

theorem acceptInput_ready {world ready : World} {q : ProcId} {channel : Channel} {result : World × Bool}
    (holds : Ready world ready q) (performed : ready.acceptInput q channel = .ok result) :
    Moved world result.1 (connect (connected world) (some q)) := by
  obtain ⟨process, flags, found, idle, moved, flagged⟩ := holds
  obtain ⟨accepted, _⟩ := acceptInput_moved found idle performed
  rw [moved.connected, flagged] at accepted
  exact moved.trans accepted

theorem controlNew_moved {world : World} {channel : Channel} {info : MIInfoFork} {result : World × Bool}
    (performed : world.controlNew channel info = .ok result) :
    Moved world result.1 (connect (connected world) (newTarget world info)) := by
  obtain ⟨p, reused, q, running, known, ranReuse, ranStatus, accepted⟩ | ⟨unknown, orphan, rfl⟩ |
    ⟨parent, forked, q, running, unknown, known, ranFork, ranStatus, accepted⟩ := controlNew_cases performed
  · obtain ⟨same, holds⟩ := reuseProcess_ready ranReuse
    rw [newTarget, known]
    dsimp only at same ⊢
    rw [← same]
    exact acceptInput_ready (holds.same (inputs_quiet (setStatus_quiet ranStatus))) accepted
  · rw [newTarget, unknown, orphan]
    exact .of_same rfl
  · obtain ⟨same, holds⟩ := forkProcess_ready ranFork
    rw [newTarget, unknown, known]
    dsimp only at same ⊢
    rw [← same]
    exact acceptInput_ready (holds.same (inputs_quiet (setStatus_quiet ranStatus))) accepted

theorem controlFunc_moved {world : World} {channel : Channel} {info : MIInfoFork} {result : World × Bool}
    (performed : world.controlFunc channel info = .ok result) :
    Moved world result.1 (connect (connected world) (target world info)) := by
  unfold World.controlFunc at performed
  unfold target
  cases operation : info.operation with
  | new =>
    rw [operation] at performed
    exact controlNew_moved performed
  | fork =>
    rw [operation] at performed
    dsimp only at performed ⊢
    split at performed
    next p known =>
      obtain ⟨parent, found, performed⟩ := ok_of_bind performed
      have flag : ((world.mpServerFindProcess info.pid).any fun p =>
          (world.process p).toOption.any fun parent => !parent.followFork) = !parent.followFork := by
        rw [known, Option.any_some, found]
        rfl
      rw [flag]
      split at performed
      next follow =>
        rw [follow]
        exact controlNew_moved performed
      next stay =>
        cases performed
        rw [if_pos (by simpa using stay)]
        exact .of_same rfl
    next unknown =>
      rw [unknown]
      exact controlNew_moved performed
  | clone =>
    rw [operation] at performed
    dsimp only at performed ⊢
    unfold World.controlClone at performed
    split at performed
    · cases performed
    next parent known =>
      obtain ⟨running, ranStatus, performed⟩ := ok_of_bind performed
      obtain ⟨process, found, performed⟩ := ok_of_bind performed
      obtain ⟨added, ranAdd, performed⟩ := ok_of_bind performed
      have made : Ready world world.processNew.1 world.processes.length := ready_of_append rfl rfl rfl rfl
      have holds := made.same (inputs_quiet (setStatus_quiet ranStatus))
      rw [known]
      refine acceptInput_ready ((holds.same ?_).same (inputs_addProcess ranAdd)) performed
      exact inputs_setProcess found rfl
  | other value unnamed =>
    rw [operation] at performed
    cases performed
    exact .of_same rfl
  | time | malloc | realloc | free | exec | exit =>
    rw [operation] at performed
    cases performed

/-! ## Runs -/

/-- `input_tag` is set only while a source is there for the channel of the process. -/
def InputInstalled (world : World) : Prop :=
  ∀ p (process : MPProcess), world.process p = .ok process → process.inputTag ≠ 0 →
    ∃ channel, process.inputChannel = some channel ∧ ⟨process.inputTag, channel, p⟩ ∈ world.watches

theorem inputInstalled_iff (world : World) : InputInstalled world ↔ Installed (inputs world) := by
  constructor
  · intro installed p input held tagged
    rw [inputs, List.getElem?_map] at held
    obtain ⟨process, found, rfl⟩ := Option.map_eq_some_iff.mp held
    exact installed p process (World.process_eq_ok.mpr found) tagged
  · intro installed p process found tagged
    exact installed p _ (found_inputs found) tagged

/-- Which processes have been connected since they were made and since they were last
reset or at their end, by the events that there were. -/
def record (world : World) (flags : List Bool) : Event → List Bool
  | .processNew | .serve (.run _) => flags ++ [false]
  | .serve (.connect _ info) => connect flags (target world info)
  | .serve (.eof watch) => flags.set watch.process false
  | .execReset p => flags.set p false
  | .serve (.startInput _) | .serve (.stopInput _) | .serve (.clearInput _) | .serve (.message ..) | .processRun .. |
    .detach _ | .kill _ => flags

def step (state : World × List Bool) (event : Event) : Except Fault (World × List Bool) :=
  (perform state.1 event).map fun later => (later, record state.1 state.2 event)

def run (followFork followExec : Bool) (events : List Event) : Except Fault (World × List Bool) :=
  events.foldlM step ({ defaultFollowFork := followFork, defaultFollowExec := followExec }, [])

def IsEof (event : Event) : Prop := ∃ watch, event = .serve (.eof watch)

/-- The process that an event detaches. -/
def detached (world : World) : Event → Option ProcId
  | .detach p => some p
  | .kill p => if (world.process p).toOption.any (·.status = .exiting) then some p else none
  | _ => none

theorem processRunAs_moved {world later : World} {p : ProcId} {pid : Pid}
    (performed : world.processRunAs p pid = .ok later) : Moved world later (connected world) := by
  obtain ⟨process, found, performed⟩ := ok_of_bind performed
  obtain ⟨added, ranAdd, performed⟩ := ok_of_bind performed
  obtain ⟨starting, ranStatus, performed⟩ := ok_of_bind performed
  have same : inputs starting = inputs world :=
    ((inputs_quiet (setStatus_quiet ranStatus)).trans (inputs_addProcess ranAdd)).trans (inputs_setProcess found rfl)
  have started := processStartInput_moved performed
  rw [connected_eq same] at started
  exact (Moved.of_same same).trans started

/-- What an event other than the end of a file does. -/
theorem perform_moved {world later : World} {event : Event} (goesOn : ¬ IsEof event)
    (performed : perform world event = .ok later) : Moved world later (record world (connected world) event) := by
  cases event with
  | processNew =>
    cases performed
    exact new_moved rfl rfl rfl rfl
  | processRun p pid => exact processRunAs_moved performed
  | detach p => exact .of_quiet (processDetach_quiet performed)
  | kill p =>
    obtain ⟨⟨reached, signalled⟩, killed, rfl⟩ := ok_of_map performed
    obtain ⟨process, _, killed⟩ := ok_of_bind killed
    split at killed
    · obtain ⟨left, detached, killed⟩ := ok_of_bind killed
      cases killed
      exact .of_quiet (processDetach_quiet detached)
    · split at killed
      · cases killed
        exact .of_same rfl
      · cases killed
        exact .of_same rfl
  | execReset p => exact (processReinit_moved performed).1
  | serve event =>
    cases event with
    | run pid =>
      have performed : world.processRun pid = .ok later := performed
      rw [World.processRun_eq] at performed
      obtain ⟨ranAs, started, created⟩ := ok_of_bind performed
      have made : Moved world world.processNew.1 (connected world ++ [false]) := new_moved rfl rfl rfl rfl
      have moved := processRunAs_moved started
      rw [made.connected] at moved
      exact (made.trans moved).trans_quiet (inputs_quiet (mpServerProcessCreated_quiet created))
    | startInput p => exact processStartInput_moved performed
    | stopInput p =>
      obtain ⟨process, found, _⟩ := ok_of_bind performed
      exact (processStopInput_moved found performed).1
    | clearInput p => exact .of_quiet (dropBlocks_quiet performed)
    | connect channel info =>
      obtain ⟨result, controlled, rfl⟩ := ok_of_map performed
      exact controlFunc_moved controlled
    | message watch info frames => exact .of_quiet (inputMessage_quiet performed)
    | eof watch => exact (goesOn ⟨watch, rfl⟩).elim

/-- The end of a file never fails, and leaves the tag. -/
theorem perform_eof {world : World} (tracked : Tracked (inputs world)) {watch : Watch}
    (member : watch ∈ world.watches) :
    ∃ later, perform world (.serve (.eof watch)) = .ok later ∧ inputs later = (inputs world).close watch ∧
      connected later = (connected world).set watch.process false := by
  have seen := tracked.watched watch member
  rw [inputs, List.getElem?_map] at seen
  obtain ⟨process, held, same⟩ := Option.map_eq_some_iff.mp seen
  have found : world.process watch.process = .ok process := World.process_eq_ok.mpr held
  have tag : process.inputTag = watch.tag := congrArg Input.tag same
  refine ⟨_, inputEof_eq found, ?_, ?_⟩
  · have left : inputOf (ended process) = ⟨watch.tag, none⟩ := by rw [← tag]; rfl
    rw [inputs, List.map_set, left]
    rfl
  · rw [connected, List.map_set]
    rfl

/-- What holds in every state, before and after the end of files. -/
structure Kept (state : World × List Bool) : Prop where
  tracked : Tracked (inputs state.1)
  flags : connected state.1 = state.2

theorem kept_start (followFork followExec : Bool) :
    Kept ({ defaultFollowFork := followFork, defaultFollowExec := followExec }, []) where
  tracked := {
    watched := fun _ member => nomatch member
    tagged := fun _ member => nomatch member
    bounded := fun _ _ found => nomatch found
    distinct := fun _ _ _ _ found => nomatch found }
  flags := rfl

theorem moves_kept {first later : Inputs} (moves : Relation.ReflTransGen Move first later) (tracked : Tracked first) :
    Tracked later ∧ (Installed first → Installed later) := by
  induction moves with
  | refl => exact ⟨tracked, id⟩
  | tail _ move inductionHypothesis =>
    obtain ⟨before, kept⟩ := inductionHypothesis
    exact ⟨move.tracked before, fun installed => move.installed before (kept installed)⟩

theorem step_kept {state later : World × List Bool} {event : Event} (kept : Kept state)
    (possible : Possible state.1 event) (stepped : step state event = .ok later) : Kept later := by
  obtain ⟨world, performed, rfl⟩ := ok_of_map stepped
  by_cases ends : IsEof event
  · obtain ⟨watch, rfl⟩ := ends
    obtain ⟨reached, returned, same, flags⟩ := perform_eof kept.tracked possible
    rw [returned] at performed
    cases performed
    refine ⟨same ▸ close_tracked kept.tracked possible, flags.trans ?_⟩
    rw [kept.flags]
    rfl
  · have moved := perform_moved ends performed
    rw [kept.flags] at moved
    exact ⟨(moves_kept moved.moves kept.tracked).1, moved.connected⟩

theorem step_installed {state later : World × List Bool} {event : Event} (kept : Kept state)
    (installed : InputInstalled state.1) (goesOn : ¬ IsEof event) (stepped : step state event = .ok later) :
    InputInstalled later.1 := by
  obtain ⟨world, performed, rfl⟩ := ok_of_map stepped
  rw [inputInstalled_iff] at installed ⊢
  exact (moves_kept (perform_moved goesOn performed).moves kept.tracked).2 installed

theorem eof_not_installed {state : World × List Bool} {watch : Watch} (kept : Kept state)
    (member : watch ∈ state.1.watches) :
    ∃ later, step state (.serve (.eof watch)) = .ok later ∧ ¬ InputInstalled later.1 := by
  obtain ⟨reached, returned, same, _⟩ := perform_eof kept.tracked member
  refine ⟨_, by rw [step, returned]; rfl, fun installed => ?_⟩
  rw [inputInstalled_iff, same] at installed
  exact close_not_installed kept.tracked member installed

/-- `process_detach` reads the channel of a process that is not defunct. -/
theorem processDetach_null_iff {world : World} {p : ProcId} {process : MPProcess}
    (found : world.process p = .ok process) :
    world.processDetach p = .error .nullDereference ↔ process.status ≠ .defunct ∧ process.inputChannel = none := by
  unfold World.processDetach
  rw [found, ok_bind]
  split
  next defunct => simp [defunct]
  next alive =>
    split
    next none => simp [alive, none]
    next channel held =>
      rw [held]
      split
      · simp
      · rw [setStatus_eq found]
        simp

/-- The process that an event detaches is defunct or is connected. -/
def Attended (world : World) (flags : List Bool) (event : Event) : Prop :=
  ∀ p ∈ detached world event, ∀ process : MPProcess, world.process p = .ok process →
    process.status = .defunct ∨ flags[p]? = some true

theorem getElem?_connected {world : World} {p : ProcId} {process : MPProcess} (found : world.process p = .ok process) :
    (connected world)[p]? = some process.inputChannel.isSome := by
  rw [connected, List.getElem?_map, World.process_eq_ok.mp found]
  rfl

theorem attended_iff {state : World × List Bool} (kept : Kept state) {p : ProcId} {process : MPProcess}
    (found : state.1.process p = .ok process) :
    state.1.processDetach p ≠ .error .nullDereference ↔ process.status = .defunct ∨ state.2[p]? = some true := by
  rw [Ne, processDetach_null_iff found, ← kept.flags, getElem?_connected found]
  cases process.inputChannel <;> simp

theorem process_of_lt {world : World} {p : ProcId} (inside : p < world.processes.length) :
    ∃ process : MPProcess, world.process p = .ok process :=
  ⟨_, World.process_eq_ok.mpr (List.getElem?_eq_getElem inside)⟩

/-- An event that detaches a process uses no `NULL` exactly if it is attended. -/
theorem perform_null_iff {state : World × List Bool} (kept : Kept state) {event : Event}
    (possible : Possible state.1 event) {p : ProcId} (detaches : detached state.1 event = some p) :
    perform state.1 event ≠ .error .nullDereference ↔ Attended state.1 state.2 event := by
  have attended : ∀ process : MPProcess, state.1.process p = .ok process →
      (Attended state.1 state.2 event ↔ process.status = .defunct ∨ state.2[p]? = some true) := by
    intro process found
    unfold Attended
    rw [detaches]
    constructor
    · exact fun all => all p rfl process found
    · rintro holds _ ⟨⟩ other held
      rw [found] at held
      cases held
      exact holds
  cases event with
  | detach q =>
    cases detaches
    obtain ⟨process, found⟩ := process_of_lt possible
    rw [attended process found]
    exact attended_iff kept found
  | kill q =>
    obtain ⟨process, found⟩ := process_of_lt possible
    have exits : (state.1.process q).toOption.any (·.status = .exiting) = true ∧ q = p := by
      have detaches : (if (state.1.process q).toOption.any (·.status = .exiting) then some q else none) =
          some p := detaches
      split at detaches
      next exiting => exact ⟨exiting, Option.some.inj detaches⟩
      next => cases detaches
    obtain ⟨exiting, rfl⟩ := exits
    rw [attended process found, ← attended_iff kept found]
    have status : process.status = .exiting := by
      rw [found] at exiting
      simpa [Except.toOption] using exiting
    have killed : perform state.1 (.kill q) = (state.1.processDetach q).map id := by
      rw [perform, World.processKill, found, ok_bind, if_pos status]
      cases state.1.processDetach q <;> rfl
    rw [killed]
    cases state.1.processDetach q <;> simp [Except.map]
  | serve _ | processNew | processRun _ _ | execReset _ => cases detaches

/-- In any run a tag is left without its source exactly if the end of a file is read, and
`process_detach` uses a `NULL` channel exactly if it is called for a process that is not
defunct and has not been connected since it was made and since it was last reset or at
the end of its file. -/
theorem run_iff {followFork followExec : Bool} {events : List Event}
    (taken : ∀ earlier event reached, earlier ++ [event] <+: events → run followFork followExec earlier = .ok reached →
      Possible reached.1 event) :
    ((∀ earlier reached, earlier <+: events → run followFork followExec earlier = .ok reached →
        InputInstalled reached.1) ↔
      ∀ earlier event reached, earlier ++ [event] <+: events → run followFork followExec earlier = .ok reached →
        ¬ IsEof event) ∧
    ((∀ earlier event reached, earlier ++ [event] <+: events → run followFork followExec earlier = .ok reached →
        (detached reached.1 event).isSome → perform reached.1 event ≠ .error .nullDereference) ↔
      ∀ earlier event reached, earlier ++ [event] <+: events → run followFork followExec earlier = .ok reached →
        Attended reached.1 reached.2 event) := by
  have kept := @foldlM_invariant _ _ _ step Kept (fun state event => Possible state.1 event) _
    (kept_start followFork followExec) (fun _ _ _ held possible stepped => step_kept held possible stepped) events taken
  constructor
  · refine @foldlM_holds_iff _ _ _ step Kept (fun state => InputInstalled state.1) (fun state event => Possible state.1 event)
      (fun _ event => ¬ IsEof event) _ ⟨kept_start followFork followExec, fun _ _ found => by cases found⟩ ?_ events taken ?_
    · intro state event later held installed possible stepped
      refine ⟨step_kept held possible stepped, ?_, fun goesOn => step_installed held installed goesOn stepped⟩
      rintro left ⟨watch, rfl⟩
      obtain ⟨later', ended, lost⟩ := eof_not_installed held possible
      rw [stepped] at ended
      cases ended
      exact lost left
    · intro earlier event reached before ran held ends
      obtain ⟨watch, rfl⟩ := of_not_not ends
      obtain ⟨later, stepped, -⟩ := eof_not_installed held (taken _ _ _ before ran)
      exact ⟨later, stepped⟩
  · refine forall_congr' fun earlier => forall_congr' fun event => forall_congr' fun reached =>
      forall_congr' fun before => forall_congr' fun ran => ?_
    have held := kept earlier reached ((List.prefix_append _ _).trans before) ran
    cases detaches : detached reached.1 event with
    | none => simp [Attended, detaches]
    | some p =>
      have exactly := perform_null_iff held (taken _ _ _ before ran) detaches
      exact ⟨fun safe => exactly.mp (safe rfl), fun attended _ => exactly.mpr attended⟩

/-- A program that connects, is detached and ends. -/
theorem run_iff_detached :
    let events : List Event := [.serve (.run 7), .serve (.connect 3 { operation := .new, newPid := 7 }), .detach 0,
      .serve (.eof ⟨1, 3, 0⟩)]
    ((∀ earlier reached, earlier <+: events → run false false earlier = .ok reached → InputInstalled reached.1) ↔
      ∀ earlier event reached, earlier ++ [event] <+: events → run false false earlier = .ok reached → ¬ IsEof event) ∧
    ((∀ earlier event reached, earlier ++ [event] <+: events → run false false earlier = .ok reached →
        (detached reached.1 event).isSome → perform reached.1 event ≠ .error .nullDereference) ↔
      ∀ earlier event reached, earlier ++ [event] <+: events → run false false earlier = .ok reached →
        Attended reached.1 reached.2 event) := by
  intro events
  exact run_iff (forall_steps_iff.mp (by decide))

/-- The tag that the end of a file leaves, and a program that is detached before it has
connected. -/
theorem run_loses_input :
    (∃ reached, run false false [.serve (.run 7), .serve (.connect 3 { operation := .new, newPid := 7 }),
      .serve (.eof ⟨1, 3, 0⟩)] = .ok reached ∧ ¬ InputInstalled reached.1) ∧
    ∃ reached, run false false [.serve (.run 7)] = .ok reached ∧ Possible reached.1 (.detach 0) ∧
      perform reached.1 (.detach 0) = .error .nullDereference := by
  constructor
  · obtain ⟨reached, ran, tagged⟩ : ∃ reached, run false false [.serve (.run 7),
        .serve (.connect 3 { operation := .new, newPid := 7 }), .serve (.eof ⟨1, 3, 0⟩)] = .ok reached ∧
        ((reached.1.process 0).toOption.any fun process =>
          decide (process.inputTag ≠ 0 ∧ process.inputChannel = none)) = true := exists_ok_of_any (by decide)
    obtain ⟨process, found, tag, closed⟩ := exists_ok_of_any tagged
    refine ⟨reached, ran, fun installed => ?_⟩
    obtain ⟨channel, connected, _⟩ := installed 0 process found tag
    rw [closed] at connected
    cases connected
  · refine ⟨_, rfl, by decide, rfl⟩

end Memprof.LifeCycle
