import Memprof.Pipeline
import Memprof.Verified.FlatProfile
import Memprof.Verified.RoundTrip
import Memprof.Verified.Sequential

/-! # The profile of a traced program

From end to end: the calls of a program with one thread, their reports on the wire, the
block table of its process and the profile that is made of it.  What the table says is
`Known`, in the terms of the program: sizes and frames.
-/

namespace Memprof.Pipeline

open Library Blocks Accounting Serving Memprof.Sequential Isolation Threads Nested CallTree FlatProfile RoundTrip

/-! ## What the profiler knows -/

abbrev Known := Addr → Option (UInt32 × List Addr)

namespace Known

def remove (known : Known) (oldPtr : Addr) : Known :=
  if oldPtr = 0 then known else Function.update known oldPtr none

def insert (known : Known) (newPtr : Addr) (size : UInt32) (frames : List Addr) : Known :=
  if newPtr ≠ 0 ∧ known newPtr = none then Function.update known newPtr (some (size, frames)) else known

theorem insert_null (known : Known) (size : UInt32) (frames : List Addr) : known.insert 0 size frames = known :=
  if_neg fun named => named.1 rfl

/-- What a report with its frames tells. -/
def report (known : Known) (info : MIInfo) (frames : List Addr) : Known :=
  (known.remove info.oldPtr).insert info.newPtr info.size.toUInt32 frames

end Known

/-- The stack of a block is the trace that is known. -/
def SameTrace (stashes : Store StackStash) (entry : UInt32 × StackPtr) (known : UInt32 × List Addr) : Prop :=
  entry.1 = known.1 ∧ StackTrace stashes entry.2 known.2

/-- A table says what is known. -/
def Tells (stashes : Store StackStash) (contents : Contents) (known : Known) : Prop :=
  ∀ address, Option.Rel (SameTrace stashes) (contents address) (known address)

namespace Tells

variable {stashes : Store StackStash} {contents : Contents} {known : Known}

theorem mono {later : Store StackStash} (tells : Tells stashes contents known)
    (kept : ∀ stack frames, StackTrace stashes stack frames → StackTrace later stack frames) :
    Tells later contents known := by
  intro address
  have here := tells address
  generalize contents address = entry at here ⊢
  generalize known address = entry' at here ⊢
  cases here with
  | some same => exact .some ⟨same.1, kept _ _ same.2⟩
  | none => exact .none

theorem update {address : Addr} {entry : Option (UInt32 × StackPtr)} {entry' : Option (UInt32 × List Addr)}
    (tells : Tells stashes contents known) (same : Option.Rel (SameTrace stashes) entry entry') :
    Tells stashes (Function.update contents address entry) (Function.update known address entry') := by
  intro other
  by_cases here : other = address
  · subst here
    rwa [Function.update_self, Function.update_self]
  · rw [Function.update_of_ne here, Function.update_of_ne here]
    exact tells other

theorem none_iff (tells : Tells stashes contents known) (address : Addr) :
    contents address = none ↔ known address = none := by
  have here := tells address
  generalize contents address = entry at here ⊢
  generalize known address = entry' at here ⊢
  cases here with
  | some _ => simp
  | none => simp

theorem report (tells : Tells stashes contents known) (info : MIInfo) {stack : StackPtr} {frames : List Addr}
    (traced : StackTrace stashes stack frames) :
    Tells stashes (contents.report info.oldPtr info.newPtr info.size.toUInt32 stack) (known.report info frames) := by
  have removed : Tells stashes (contents.remove info.oldPtr) (known.remove info.oldPtr) := by
    unfold Contents.remove Known.remove
    split
    · exact tells
    · exact tells.update .none
  unfold Contents.report Known.report Contents.insert Known.insert
  simp only [removed.none_iff]
  split
  · exact removed.update (.some ⟨rfl, traced⟩)
  · exact removed

end Tells

/-! ## The program -/

def Known.sizes (known : Known) : Sizes := fun address => (known address).map Prod.fst

theorem sizes_report (known : Known) (info : MIInfo) (frames : List Addr) :
    (known.report info frames).sizes = applyReport known.sizes info := by
  have removed : (known.remove info.oldPtr).sizes = known.sizes.remove info.oldPtr := by
    unfold Known.remove Sizes.remove
    split
    · rfl
    · funext address
      by_cases here : address = info.oldPtr
      · simp [Known.sizes, here]
      · simp only [Known.sizes, Function.update_of_ne here]
  have missing : known.sizes.remove info.oldPtr info.newPtr = none ↔ known.remove info.oldPtr info.newPtr = none := by
    rw [← removed, Known.sizes, Option.map_eq_none_iff]
  unfold Known.report Known.insert applyReport Sizes.report Sizes.insert
  simp only [missing]
  split
  · funext address
    by_cases here : address = info.newPtr
    · simp [Known.sizes, here]
    · simp only [Known.sizes, Function.update_of_ne here]
      exact congrFun removed address
  · exact removed

namespace Heap

variable (heap : Heap)

theorem live_release (ptr : Addr) : (heap.release ptr).live = heap.live.release ptr := by
  funext address
  by_cases here : address = ptr
  · simp [Heap.live, Heap.release, Live.release, here]
  · simp only [Heap.live, Heap.release, Live.release, Function.update_of_ne here]

theorem live_obtain (result : Addr) (size : ℕ) (frames : List Addr) :
    (heap.obtain result size frames).live = heap.live.obtain result size := by
  unfold Heap.obtain Live.obtain
  split
  · rfl
  · funext address
    by_cases here : address = result
    · simp [Heap.live, here]
    · simp only [Heap.live, Function.update_of_ne here]

end Heap

variable {layout : Layout}

theorem live_effect (heap : Heap) (origin : Origin layout) :
    (origin.effect heap).live = origin.call.effect heap.live := by
  unfold Origin.effect Call.effect
  cases origin.call with
  | malloc | calloc => exact heap.live_obtain _ _ _
  | realloc ptr size result =>
    simp only
    split
    · rfl
    · rw [Heap.live_obtain, Heap.live_release]
  | free ptr => exact heap.live_release ptr

/-- Where both have a block, they have it from one call. -/
def SameFrames (known : Known) (heap : Heap) : Prop :=
  ∀ address entry block, known address = some entry → heap address = some block → entry.2 = block.2

namespace SameFrames

variable {known : Known} {heap : Heap}

theorem remove (same : SameFrames known heap) (ptr : Addr) : SameFrames (known.remove ptr) heap := by
  unfold Known.remove
  split
  · exact same
  · intro address entry block listed held
    by_cases here : address = ptr
    · rw [here, Function.update_self] at listed
      cases listed
    · rw [Function.update_of_ne here] at listed
      exact same address entry block listed held

theorem release (same : SameFrames known heap) (ptr : Addr) : SameFrames known (heap.release ptr) := by
  intro address entry block listed held
  by_cases here : address = ptr
  · rw [here, Heap.release, Function.update_self] at held
    cases held
  · rw [Heap.release, Function.update_of_ne here] at held
    exact same address entry block listed held

theorem obtain (same : SameFrames known heap) {result : Addr} (fresh : result ≠ 0 → known result = none)
    (size : UInt32) (size' : ℕ) (frames : List Addr) :
    SameFrames (known.insert result size frames) (heap.obtain result size' frames) := by
  unfold Known.insert Heap.obtain
  by_cases null : result = 0
  · rw [if_neg fun named => named.1 null, if_pos null]
    exact same
  · rw [if_pos ⟨null, fresh null⟩, if_neg null]
    intro address entry block listed held
    by_cases here : address = result
    · rw [here, Function.update_self, Option.some.injEq] at listed held
      rw [← listed, ← held]
    · rw [Function.update_of_ne here] at listed held
      exact same address entry block listed held

end SameFrames

/-- What is known of a program's heap. -/
structure Knows (known : Known) (heap : Heap) (lost : Finset Addr) : Prop where
  tracks : Tracks known.sizes heap.live lost
  frames : SameFrames known heap

theorem Knows.missing {known : Known} {heap : Heap} {lost : Finset Addr} (knows : Knows known heap lost) {ptr : Addr}
    (free : heap.live ptr = none) : known ptr = none := by
  have unlisted := (knows.tracks.fresh free).2
  rwa [Known.sizes, Option.map_eq_none_iff] at unlisted

theorem known_remove_of_none {known : Known} {address : Addr} (missing : known address = none) (ptr : Addr) :
    known.remove ptr address = none := by
  unfold Known.remove
  split
  · exact missing
  · by_cases here : address = ptr
    · rw [here, Function.update_self]
    · rwa [Function.update_of_ne here]

/-- One call and its report. -/
theorem Knows.step {known : Known} {heap : Heap} {lost : Finset Addr} (knows : Knows known heap lost)
    {origin : Origin layout} (possible : origin.call.Possible heap.live) :
    Knows (known.report origin.call.info origin.frames) (origin.effect heap) (strand lost origin.call) where
  tracks := by
    rw [sizes_report, live_effect]
    exact knows.tracks.step possible
  frames := by
    unfold Origin.effect
    cases made : origin.call with
    | malloc size result | calloc nmemb size result =>
      rw [made] at possible
      exact knows.frames.obtain (fun _ => knows.missing possible) _ _ _
    | realloc ptr size result =>
      rw [made] at possible
      obtain ⟨_, answered⟩ := possible
      by_cases failed : result = 0 ∧ size ≠ 0
      · simp only [if_pos failed]
        show SameFrames ((known.remove ptr).insert result size.toUInt32 origin.frames) heap
        rw [failed.1, Known.insert_null]
        exact knows.frames.remove ptr
      · simp only [if_neg failed]
        refine ((knows.frames.remove ptr).release ptr).obtain (fun named => ?_) _ _ _
        rcases answered with rfl | free
        · show known.remove result result = none
          have isNamed : result ≠ 0 := named
          rw [Known.remove, if_neg isNamed, Function.update_self]
        · exact known_remove_of_none (knows.missing free) ptr
    | free ptr =>
      show SameFrames ((known.remove ptr).insert 0 (0 : UInt64).toUInt32 origin.frames) (heap.release ptr)
      rw [Known.insert_null]
      exact (knows.frames.remove ptr).release ptr

/-- What the reports of the calls tell. -/
def reports (known : Known) (origins : List (Origin layout)) : Known :=
  origins.foldl (fun known origin => known.report origin.call.info origin.frames) known

def effects (heap : Heap) (origins : List (Origin layout)) : Heap := origins.foldl Origin.effect heap

theorem Knows.run {known : Known} {heap : Heap} {lost : Finset Addr} (knows : Knows known heap lost)
    {origins : List (Origin layout)} {program later : Sequential.Program} (live : program.live = heap.live)
    (ran : program.run (origins.map Origin.site) = some later) :
    Knows (reports known origins) (effects heap origins) ((origins.map Origin.call).foldl strand lost) ∧
      later.live = (effects heap origins).live ∧ ∀ origin ∈ origins, origin.frames.length ≤ 20000 := by
  induction origins generalizing known heap lost program with
  | nil =>
    cases ran
    exact ⟨knows, live, by simp⟩
  | cons origin origins inductionHypothesis =>
    obtain ⟨next, made, ran⟩ := Option.bind_eq_some_iff.mp ran
    unfold Sequential.Program.step at made
    split at made
    next possible =>
      obtain ⟨info, numbered, made⟩ := Option.bind_eq_some_iff.mp made
      cases made
      have few : origin.frames.length ≤ 20000 := by
        unfold numberReport at numbered
        split at numbered
        next => cases numbered
        next bounded =>
          have bounded : ¬ ((origin.frames.length : ℤ) < 0 ∨ 20000 < (origin.frames.length : ℤ)) := bounded
          omega
      have possible : origin.call.Possible heap.live := live ▸ possible
      have live : origin.call.effect program.live = (origin.effect heap).live := by rw [live_effect, live]
      obtain ⟨knowsLater, liveLater, fewLater⟩ := inductionHypothesis (knows.step possible) live ran
      refine ⟨knowsLater, liveLater, fun other member => ?_⟩
      rcases List.mem_cons.mp member with rfl | member
      · exact few
      · exact fewLater other member
    next => cases made

/-! ## The messages -/

/-- A last message tells nothing. -/
def Known.tell (known : Known) (message : Message layout) : Known :=
  if message.info.operation = .exit then known else known.report message.info message.frames

/-- Messages of allocations and exits, numbered from `seqno` on. -/
def Numbered : UInt32 → List (Message layout) → Prop
  | _, [] => True
  | seqno, message :: rest => (message.Fits ∧ (IsAllocation message.info ∨ message.info.operation = .exit) ∧
      message.info.seqno = seqno) ∧ Numbered (seqno + 1) rest

theorem Numbered.fits {seqno : UInt32} {waiting : List (Message layout)} (numbered : Numbered seqno waiting) :
    ∀ message ∈ waiting, message.Fits := by
  induction waiting generalizing seqno with
  | nil => simp
  | cons message waiting inductionHypothesis =>
    intro other member
    rcases List.mem_cons.mp member with rfl | member
    · exact numbered.1.1
    · exact inductionHypothesis numbered.2 other member

theorem not_exit_of_allocation {info : MIInfo} (allocation : IsAllocation info) : info.operation ≠ .exit := by
  rcases allocation with is | is | is <;> rw [is] <;> decide

theorem carriesStack_of_allocation {info : MIInfo} (allocation : IsAllocation info) :
    CarriesStack info.operation := by
  rcases allocation with is | is | is
  · exact .inl is
  · exact .inr (.inl is)
  · exact .inr (.inr (.inl is))

theorem apply_of_allocation {info : MIInfo} (allocation : IsAllocation info) (contents : Contents) (seqno : UInt32)
    (stack : StackPtr) :
    contents.apply seqno info stack = contents.report info.oldPtr info.newPtr info.size.toUInt32 stack := by
  rcases allocation with is | is | is <;> rw [Contents.apply, is]

theorem add_one_add_length (seqno : UInt32) (length : ℕ) :
    seqno + 1 + .ofNat length = seqno + .ofNat (length + 1) := by
  rw [UInt32.ofNat_add, UInt32.add_assoc, UInt32.add_comm 1]
  rfl

/-- The counter at the end of the calls. -/
def lastSeqno (seqno : UInt32) (origins : List (Origin layout)) : UInt32 := seqno + .ofNat origins.length

/-- What the calls of a program are on the wire; an exit is numbered like them. -/
theorem numbered_messages {origins : List (Origin layout)} (few : ∀ origin ∈ origins, origin.frames.length ≤ 20000)
    (seqno : UInt32) {exit : Option (Pid × UInt32)} (last : ∀ final ∈ exit, final.2 = lastSeqno seqno origins) :
    Numbered seqno (messages (stackCalls seqno origins) exit) := by
  induction origins generalizing seqno with
  | nil =>
    cases exit with
    | none => trivial
    | some final =>
      refine ⟨⟨.inr ⟨rfl, rfl⟩, .inr rfl, ?_⟩, trivial⟩
      show final.2 = seqno
      rw [last final rfl, lastSeqno, List.length_nil]
      exact UInt32.add_zero seqno
  | cons origin origins inductionHypothesis =>
    refine ⟨⟨.inl ⟨carriesStack_of_allocation origin.call.allocation, ?_⟩, .inl origin.call.allocation, rfl⟩, ?_⟩
    · have := few origin (by simp)
      show (UInt32.ofNat origin.frames.length).toNat = origin.frames.length
      rw [UInt32.toNat_ofNat']
      omega
    · refine inductionHypothesis (fun other member => few other (by simp [member])) _ fun final member => ?_
      rw [last final member, lastSeqno, lastSeqno, List.length_cons, add_one_add_length]

theorem tell_callMessage (known : Known) (origin : Origin layout) (seqno : UInt32) :
    known.tell (callMessage (origin.stackCall seqno)) = known.report origin.call.info origin.frames :=
  if_neg (not_exit_of_allocation origin.call.allocation)

theorem tell_messages (known : Known) (origins : List (Origin layout)) (seqno : UInt32)
    (exit : Option (Pid × UInt32)) :
    (messages (stackCalls seqno origins) exit).foldl Known.tell known = reports known origins := by
  induction origins generalizing known seqno with
  | nil => cases exit <;> rfl
  | cons origin origins inductionHypothesis =>
    show List.foldl Known.tell (known.tell (callMessage (origin.stackCall seqno))) _ = _
    rw [tell_callMessage]
    exact inductionHypothesis _ _

/-! ## The process -/

/-- The process of the channel knows what has been reported, and waits for the next report. -/
structure Mirrors (watch : Watch) (known : Known) (seqno : UInt32) (world : World) : Prop where
  ready : Ready watch world
  process : ∃ process, world.process watch.process = .ok process ∧ process.cloneOf = none ∧
    process.commandQueue = [] ∧ process.seqno = seqno ∧
    Tells world.stashes (contents world.blocks process.table) known

theorem getStackStash_kept {world ready : World} {p : ProcId} {stash : StashId}
    (got : world.getStackStash p = .ok (ready, stash)) {s : StashId} {object : StackStash}
    (live : world.stashes.get s = some object) : ready.stashes.get s = some object := by
  obtain ⟨process, _, got⟩ := ok_of_bind got
  cases owned : process.stackStash with
  | some own =>
    rw [owned] at got
    cases got
    exact live
  | none =>
    rw [owned] at got
    cases got
    show (world.stashes.alloc {}).1.get s = some object
    rw [Store.get_alloc, if_neg (Nat.ne_of_lt (Store.lt_size_of_get live)), live]

/-- Traces stay where they are. -/
theorem addStack_traces {world later : World} (sound : Sound world) {p : ProcId} {process : MPProcess}
    (found : world.process p = .ok process) {frames : List Addr} {stack : StackPtr}
    (added : world.addStack p frames = .ok (later, stack)) (other : StackPtr) (trace : List Addr)
    (traced : StackTrace world.stashes other trace) : StackTrace later.stashes other trace := by
  cases other with
  | none => exact traced
  | some ref =>
    obtain ⟨object, live, traced⟩ := traced
    obtain ⟨ready, stash, got, _, _, _, soundReady⟩ := getStackStash_ok sound found
    have live := getStackStash_kept got live
    unfold World.addStack at added
    rw [got, ok_bind] at added
    simp only at added
    split at added
    next => cases added
    next own held =>
      obtain ⟨⟨own', start⟩, ran, added⟩ := ok_of_bind added
      cases added
      obtain ⟨_, _, ran', _, grows, _⟩ := Stash.addTrace_spec (soundReady.linked stash own held) frames (-1)
      rw [ran] at ran'
      cases ran'
      have inside := Store.lt_size_of_get held
      by_cases here : ref.stash = stash
      · refine ⟨own', by rw [Store.get_put inside, if_pos here], ?_⟩
        rw [here, held, Option.some.injEq] at live
        subst live
        exact traced.grows grows
      · exact ⟨object, by rw [Store.get_put inside, if_neg here]; exact live, traced⟩

theorem processDetach_stores {world later : World} {p : ProcId} (ran : world.processDetach p = .ok later) :
    later.stashes = world.stashes ∧ later.blocks = world.blocks := by
  obtain ⟨process, _, ran⟩ := ok_of_bind ran
  split at ran
  · cases ran
    exact ⟨rfl, rfl⟩
  · split at ran
    · cases ran
    · split at ran
      · cases ran
        exact ⟨rfl, rfl⟩
      · obtain ⟨_, _, ran⟩ := ok_of_bind ran
        cases ran
        exact ⟨rfl, rfl⟩

theorem prepareInput_traces {world later : World} (sound : Sound world) {p : ProcId} {process : MPProcess}
    (found : world.process p = .ok process) {info : MIInfo} {frames : List Addr} {stack : StackPtr}
    (ran : world.prepareInput p info frames = .ok (later, stack)) (other : StackPtr) (trace : List Addr)
    (traced : StackTrace world.stashes other trace) : StackTrace later.stashes other trace := by
  by_cases carries : CarriesStack info.operation
  · rw [prepareInput_of_carries carries] at ran
    exact addStack_traces sound found ran other trace traced
  · have same : later.stashes = world.stashes := by
      unfold World.prepareInput at ran
      cases operation : info.operation <;> rw [operation] at ran carries
      case malloc | realloc | free | time => exact (carries (by decide)).elim
      case exec | new | fork | clone | other => cases ran; rfl
      case exit =>
        obtain ⟨_, changed, ran⟩ := ok_of_bind ran
        obtain ⟨_, _, changed⟩ := ok_of_bind changed
        cases changed
        obtain ⟨_, _, ran⟩ := ok_of_bind ran
        simp only at ran
        split at ran
        · obtain ⟨_, detached, ran⟩ := ok_of_bind ran
          cases ran
          have kept := (processDetach_stores detached).1
          exact kept
        · cases ran
          rfl
    rwa [same]

/-- A message is applied as it comes in. -/
theorem inputMessage_mirrors {watch : Watch} {known : Known} {seqno : UInt32} {world later : World}
    (mirrors : Mirrors watch known seqno world) {message : Message layout} (fits : message.Fits)
    (taken : IsAllocation message.info ∨ message.info.operation = .exit) (due : message.info.seqno = seqno)
    (ran : world.inputMessage watch.process message.info message.frames = .ok later) (ready : Ready watch later) :
    Mirrors watch (known.tell message) (seqno + 1) later := by
  obtain ⟨process, found, root, idle, counted, tells⟩ := mirrors.process
  have sound := mirrors.ready.served.sound
  obtain ⟨prepared, stack, _, prepared', held, ranPrepare, replaces, kept, watches, soundPrepared, traced⟩ :=
    prepareMessage_ok mirrors.ready fits
  rw [found] at held
  cases held
  obtain ⟨_, held, _, connected⟩ := mirrors.ready.served.watched watch mirrors.ready.watched
  rw [found] at held
  cases held
  obtain ⟨_, _, _, ranPrepare', _, _, _, blocks, _⟩ :=
    prepareInput_ok sound found connected message.info message.frames
  rw [ranPrepare] at ranPrepare'
  cases ranPrepare'
  have foundPrepared := replaces.found found
  have servedPrepared : Served prepared := mirrors.ready.served.replace found replaces watches (by rw [kept])
    (by rw [kept]) (by rw [kept]) (by rw [kept]) soundPrepared
  have rootPrepared : prepared'.cloneOf = none := by rw [kept]; exact root
  have idlePrepared : prepared'.commandQueue = [] := by rw [kept]; exact idle
  have countedPrepared : prepared'.seqno = seqno := by rw [kept]; exact counted
  have tablePrepared : prepared'.table = process.table := by rw [kept]; rfl
  obtain ⟨p, _, ranRoot, _, _, own⟩ := rootOf_ok servedPrepared.older foundPrepared
  cases own rootPrepared
  obtain ⟨commanded, process', ranCommand, replaced, _, stashes, same, empty, next, _, table, _⟩ :=
    command_due_ok soundPrepared foundPrepared idlePrepared fits.isReport (due.trans countedPrepared.symm) stack
  have ran' : world.inputMessage watch.process message.info message.frames = .ok commanded := by
    unfold World.inputMessage
    simp only [ranPrepare, ok_bind, ranRoot, ranCommand]
  rw [ran] at ran'
  cases ran'
  refine ⟨ready, process', replaced.found foundPrepared, by rw [same]; exact rootPrepared, empty,
    by rw [next, countedPrepared], ?_⟩
  have told := tells.mono (prepareInput_traces sound found ranPrepare)
  rw [table, tablePrepared, stashes, blocks]
  cases taken with
  | inl allocation =>
    rw [apply_of_allocation allocation, Known.tell, if_neg (not_exit_of_allocation allocation)]
    exact told.report message.info traced
  | inr exit =>
    rw [Contents.apply, exit, Known.tell, if_pos exit]
    exact told

/-! ## The channel -/

/-- A round is a message. -/
theorem inputRound_message {world : World} {input : ProcId} {message : Message layout} (fits : message.Fits)
    {rest : List UInt8} {round : Round}
    (ran : inputRound layout world input (message.bytes ++ rest) = .ok (some round)) :
    world.inputMessage input message.info message.frames = .ok round.world := by
  have length := (layout.storeInfo message.object message.info).2
  have positive : ¬ layout.sizeofInfo = 0 := Nat.ne_of_gt layout.sizeofInfo_pos
  rw [inputRound, gIoChannelReadChars, Message.bytes, List.append_assoc, List.take_left' length,
    List.drop_left' length] at ran
  simp only [length, positive, if_false, Object.overlay_all, layout.loadInfo_storeInfo, readFrames_ok fits,
    ok_bind] at ran
  obtain ⟨⟨prepared, stack⟩, ranPrepare, ran⟩ := ok_of_bind ran
  obtain ⟨root, ranRoot, ran⟩ := ok_of_bind ran
  obtain ⟨process, found, ran⟩ := ok_of_bind ran
  obtain ⟨⟨blocks, process', after⟩, ranCommand, ran⟩ := ok_of_bind ran
  cases ran
  simp only [World.inputMessage, World.command, ranPrepare, ok_bind, ranRoot, found, ranCommand]

theorem inputRound_mirrors {watch : Watch} {known : Known} {seqno : UInt32} {world : World}
    (mirrors : Mirrors watch known seqno world) {message : Message layout} {waiting : List (Message layout)}
    (numbered : Numbered seqno (message :: waiting)) :
    ∃ round : Round, inputRound layout world watch.process ((message :: waiting).flatMap Message.bytes) =
        .ok (some round) ∧ round.bytes = waiting.flatMap Message.bytes ∧
      Mirrors watch (known.tell message) (seqno + 1) round.world := by
  obtain ⟨⟨fits, taken, due⟩, _⟩ := numbered
  obtain ⟨round, ran, ready, _⟩ := inputRound_ok mirrors.ready fits
  have ranRest := ran (waiting.flatMap Message.bytes)
  exact ⟨_, ranRest, rfl, inputMessage_mirrors mirrors fits taken due (inputRound_message fits ranRest) ready⟩

/-- What a call of `input_func` leaves: fewer messages, or the channel at its end. -/
def Leaves (layout : Layout) (watch : Watch) (count : ℕ) (final : Known) (last : UInt32) (called : Called) : Prop :=
  if called.stays then ∃ (left : List (Message layout)) (known : Known) (seqno : UInt32), left.length < count ∧
    called.bytes = left.flatMap Message.bytes ∧ Numbered seqno left ∧ left.foldl Known.tell known = final ∧
      seqno + .ofNat left.length = last ∧ Mirrors watch known seqno called.world
  else called.bytes = [] ∧ ∃ middle, Mirrors watch final last middle ∧ middle.inputEof watch = .ok called.world

theorem Leaves.mono {watch : Watch} {count count' : ℕ} {final : Known} {last : UInt32} {called : Called}
    (leaves : Leaves layout watch count final last called) (more : count ≤ count') (handed : List Handed) :
    Leaves layout watch count' final last { called with handed := handed } := by
  unfold Leaves at leaves ⊢
  by_cases stays : called.stays = true
  · rw [if_pos stays] at leaves ⊢
    obtain ⟨left, known, seqno, fewer, rest⟩ := leaves
    exact ⟨left, known, seqno, fewer.trans_le more, rest⟩
  · rw [if_neg stays] at leaves ⊢
    exact leaves

theorem inputFunc_leaves {watch : Watch} (conditions : List Bool) {known : Known} {seqno : UInt32} {world : World}
    (mirrors : Mirrors watch known seqno world) {waiting : List (Message layout)}
    (numbered : Numbered seqno waiting) :
    ∃ called, inputFunc layout watch conditions world (waiting.flatMap Message.bytes) = .ok called ∧
      Leaves layout watch waiting.length (waiting.foldl Known.tell known) (seqno + .ofNat waiting.length) called := by
  induction waiting generalizing conditions known seqno world with
  | nil =>
    obtain ⟨process, found, _⟩ := mirrors.process
    obtain ⟨later, ended, _⟩ := inputEof_ok mirrors.ready.served mirrors.ready.watched found
    refine ⟨⟨later, [], [], false⟩, ?_, ?_⟩
    · unfold inputFunc
      simp only [List.flatMap_nil, inputRound_nil, ok_bind, ended]
    · rw [Leaves, if_neg Bool.false_ne_true]
      exact ⟨rfl, world, by simpa using mirrors, ended⟩
  | cons message waiting inductionHypothesis =>
    obtain ⟨round, ranRound, bytes, later⟩ := inputRound_mirrors mirrors numbered
    have stops : Leaves layout watch (message :: waiting).length ((message :: waiting).foldl Known.tell known)
        (seqno + .ofNat (message :: waiting).length) ⟨round.world, round.bytes, [round.handed], true⟩ := by
      rw [Leaves, if_pos rfl]
      exact ⟨waiting, _, _, Nat.lt_succ_self _, bytes, numbered.2, rfl, add_one_add_length _ _, later⟩
    unfold inputFunc
    rw [ranRound, ok_bind]
    cases conditions with
    | nil => exact ⟨_, rfl, stops⟩
    | cons condition conditions =>
      simp only
      split
      · obtain ⟨again, ranAgain, leaves⟩ := inductionHypothesis conditions later numbered.2
        rw [bytes, ranAgain, ok_bind]
        rw [add_one_add_length] at leaves
        exact ⟨_, rfl, leaves.mono (Nat.le_succ _) _⟩
      · exact ⟨_, rfl, stops⟩

/-- The calls until the channel ends. -/
theorem inputCalls_leaves {watch : Watch} (conditions : ℕ → List Bool) {others : ℕ → World → World}
    (keeps : ∀ n known seqno world, Mirrors watch known seqno world → Mirrors watch known seqno (others n world))
    {fuel n : ℕ} {known : Known} {seqno : UInt32} {world : World} (mirrors : Mirrors watch known seqno world)
    {waiting : List (Message layout)} (numbered : Numbered seqno waiting) (enough : waiting.length < fuel) :
    ∃ later handed middle, inputCalls layout watch conditions others fuel n world (waiting.flatMap Message.bytes) =
        .ok (later, [], handed) ∧
      Mirrors watch (waiting.foldl Known.tell known) (seqno + .ofNat waiting.length) middle ∧
      middle.inputEof watch = .ok later := by
  induction fuel generalizing n known seqno world waiting with
  | zero => omega
  | succ fuel inductionHypothesis =>
    obtain ⟨called, ranCall, leaves⟩ := inputFunc_leaves (conditions n) (keeps n _ _ _ mirrors) numbered
    unfold inputCalls
    rw [ranCall, ok_bind]
    unfold Leaves at leaves
    by_cases stays : called.stays = true
    · rw [if_pos stays] at leaves ⊢
      obtain ⟨left, knownLeft, seqnoLeft, fewer, bytes, numberedLeft, final, last, mirrorsLeft⟩ := leaves
      obtain ⟨later, handed, middle, ran, mirrorsMiddle, ended⟩ :=
        @inductionHypothesis (n + 1) _ _ _ mirrorsLeft left numberedLeft (by omega)
      rw [bytes, ran, ok_bind]
      rw [final, last] at mirrorsMiddle
      exact ⟨later, _, middle, rfl, mirrorsMiddle, ended⟩
    · rw [if_neg stays] at leaves ⊢
      obtain ⟨bytes, middle, mirrorsMiddle, ended⟩ := leaves
      rw [bytes]
      exact ⟨_, _, middle, rfl, mirrorsMiddle, ended⟩

/-- The end of the channel leaves the blocks and their traces. -/
theorem inputEof_tells {watch : Watch} {known : Known} {seqno : UInt32} {world later : World}
    (mirrors : Mirrors watch known seqno world) (ended : world.inputEof watch = .ok later) :
    Sound later ∧ ∃ process, later.process watch.process = .ok process ∧
      Tells later.stashes (contents later.blocks process.table) known := by
  obtain ⟨process, found, _, _, _, tells⟩ := mirrors.process
  obtain ⟨later', ran, served, processes, _⟩ := inputEof_ok mirrors.ready.served mirrors.ready.watched found
  rw [inputEof_eq found] at ended ran
  cases ended
  cases ran
  exact ⟨served.sound, _, World.process_of_set found processes, tells⟩

/-! ## The profile -/

/-- The sample that a block is. -/
def Known.sample (known : Known) (address : Addr) : List Addr × UInt32 :=
  (known address).elim ([], 0) fun entry => (entry.2, entry.1)

theorem recorded_of_tells {world : World} (sound : Sound world) {p : ProcId} {process : MPProcess}
    (found : world.process p = .ok process) {known : Known}
    (tells : Tells world.stashes (contents world.blocks process.table) known) :
    List.Forall₂ (Recorded world) process.held (process.table.keys.map known.sample) := by
  have keyed := sound.keyed process (World.mem_of_process found)
  rw [MPProcess.held, HashTable.values, AList.keys, List.keys, List.map_map, List.forall₂_map_left_iff,
    List.forall₂_map_right_iff, List.forall₂_same]
  rintro ⟨address, b⟩ member
  have listed := HashTable.mem_entries_iff.mp member
  obtain ⟨block, live, _⟩ := keyed address b listed
  have here := tells address
  have contained : contents world.blocks process.table address = some (block.size, block.stack) := by
    simp [contents, listed, live]
  rw [contained] at here
  generalize isKnown : known address = entry at here
  cases here with
  | some same =>
    refine ⟨block, live, ?_⟩
    rw [Function.comp_apply, Known.sample, isKnown]
    exact ⟨same.2, same.1.symm⟩

theorem mem_keys_of_tells {world : World} (sound : Sound world) {p : ProcId} {process : MPProcess}
    (found : world.process p = .ok process) {known : Known}
    (tells : Tells world.stashes (contents world.blocks process.table) known) (address : Addr) :
    address ∈ process.table.keys ↔ known address ≠ none := by
  rw [ne_eq, ← tells.none_iff, contents_eq_none (sound.keyed process (World.mem_of_process found)),
    AList.lookup_eq_none, not_not, AList.mem_keys]

/-- What is known of the heap is the heap without what is lost. -/
theorem Knows.table {known : Known} {heap : Heap} {lost : Finset Addr} (knows : Knows known heap lost)
    (address : Addr) : known address = if address ∈ lost then none else
      (heap address).map fun block => (.ofNat block.1, block.2) := by
  have sizes := knows.tracks.table address
  unfold Known.sizes Heap.live at sizes
  by_cases isLost : address ∈ lost
  · rw [if_pos isLost] at sizes ⊢
    exact Option.map_eq_none_iff.mp sizes
  · rw [if_neg isLost, Option.map_map] at sizes
    rw [if_neg isLost]
    cases held : heap address with
    | none =>
      rw [held] at sizes
      exact Option.map_eq_none_iff.mp sizes
    | some block =>
      rw [held, Option.map_some] at sizes
      obtain ⟨entry, listed, size⟩ := Option.map_eq_some_iff.mp sizes
      have frames := knows.frames address entry block listed held
      have size : entry.1 = .ofNat block.1 := size
      rw [listed, Option.map_some, ← frames, ← size]

theorem knows_start : Knows (fun _ => none) (fun _ => none) ∅ where
  tracks := ⟨rfl, by simp, fun _ => rfl⟩
  frames _ _ _ listed := by cases listed

theorem release_held {heap : Heap} {ptr address : Addr} {block : ℕ × List Addr}
    (held : heap.release ptr address = some block) : heap address = some block := by
  unfold Heap.release at held
  by_cases here : address = ptr
  · rw [here, Function.update_self] at held
    cases held
  · rwa [Function.update_of_ne here] at held

theorem obtain_held {heap : Heap} {result address : Addr} {size : ℕ} {frames : List Addr} {block : ℕ × List Addr}
    (held : heap.obtain result size frames address = some block) : block.2 = frames ∨ heap address = some block := by
  unfold Heap.obtain at held
  split at held
  · exact .inr held
  · by_cases here : address = result
    · rw [here, Function.update_self, Option.some.injEq] at held
      exact .inl (by rw [← held])
    · rw [Function.update_of_ne here] at held
      exact .inr held

theorem effect_held {heap : Heap} {origin : Origin layout} {address : Addr} {block : ℕ × List Addr}
    (held : origin.effect heap address = some block) : block.2 = origin.frames ∨ heap address = some block := by
  unfold Origin.effect at held
  cases made : origin.call with
  | malloc | calloc =>
    rw [made] at held
    exact obtain_held held
  | realloc ptr size result =>
    rw [made] at held
    simp only at held
    split at held
    · exact .inr held
    · exact (obtain_held held).imp_right release_held
  | free ptr =>
    rw [made] at held
    exact .inr (release_held held)

/-- Blocks have the frames of a call. -/
theorem exists_origin {heap : Heap} {origins : List (Origin layout)} {address : Addr} {block : ℕ × List Addr}
    (held : effects heap origins address = some block) :
    (∃ origin ∈ origins, block.2 = origin.frames) ∨ heap address = some block := by
  induction origins generalizing heap with
  | nil => exact .inr held
  | cons origin origins inductionHypothesis =>
    rcases inductionHypothesis held with ⟨other, member, same⟩ | before
    · exact .inl ⟨other, by simp [member], same⟩
    · exact (effect_held before).imp_left fun same => ⟨origin, by simp, same⟩

/-- The heap that the calls leave. -/
def heapOf (origins : List (Origin layout)) : Heap := effects (fun _ => none) origins

/-- A block as a sample: its frames, and its size as far as a `Block` can tell it. -/
def Heap.sample (heap : Heap) (address : Addr) : List Addr × UInt32 :=
  (heap address).elim ([], 0) fun block => (block.2, .ofNat block.1)

/-- A frame of one of the calls. -/
def IsFrameOf (origins : List (Origin layout)) (address : Addr) : Prop :=
  ∃ origin ∈ origins, address ∈ origin.frames

/-- The profiler knows a block as long as it is not lost. -/
theorem Knows.listed_iff {known : Known} {heap : Heap} {lost : Finset Addr} (knows : Knows known heap lost)
    (address : Addr) : known address ≠ none ↔ heap.live address ≠ none ∧ address ∉ lost := by
  rw [knows.table, Heap.live]
  by_cases isLost : address ∈ lost
  · simp [isLost]
  · simp [isLost]

theorem Knows.sample_eq {known : Known} {heap : Heap} {lost : Finset Addr} (knows : Knows known heap lost)
    {address : Addr} (listed : known address ≠ none) : known.sample address = heap.sample address := by
  have kept := ((knows.listed_iff address).mp listed).2
  rw [Known.sample, Heap.sample, knows.table, if_neg kept]
  cases heap address <;> rfl

theorem few_stackCalls {origins : List (Origin layout)} (few : ∀ origin ∈ origins, origin.frames.length ≤ 20000)
    (seqno : UInt32) : ∀ call ∈ stackCalls seqno origins, call.frames.length ≤ 20000 := by
  induction origins generalizing seqno with
  | nil => simp [stackCalls]
  | cons origin origins inductionHypothesis =>
    intro call member
    rcases List.mem_cons.mp member with rfl | member
    · exact few origin (by simp)
    · exact inductionHypothesis (fun other member => few other (by simp [member])) _ call member

section Profile

variable {σ τ : Type} [DecidableEq σ] {locate : τ → Addr → Option σ × τ}

omit [DecidableEq σ] in
theorem fixed_mono {isFrame isFrame' : Addr → Prop} {symbolOf : Addr → σ} {maps : τ}
    (fixed : Fixed locate isFrame symbolOf maps) (fewer : ∀ address, isFrame' address → isFrame address) :
    Fixed locate isFrame' symbolOf maps := fun asked frames address frame =>
  fixed asked (fun other member => fewer other (frames other member)) address (fewer address frame)

/-- The profile of a process whose table says what is known of a heap. -/
theorem profileCreate_tells {world : World} (sound : Sound world) {p : ProcId} {process : MPProcess}
    (found : world.process p = .ok process) {known : Known} {origins : List (Origin layout)} {lost : Finset Addr}
    (knows : Knows known (heapOf origins) lost)
    (tells : Tells world.stashes (contents world.blocks process.table) known) {symbolOf : Addr → σ} {maps : τ}
    (fixed : Fixed locate (IsFrameOf origins) symbolOf maps) (name : σ → String) (skipFuncs : List String) :
    ∃ addresses : List Addr, ∃ profiled maps' profile, addresses.Nodup ∧
      (∀ address, address ∈ addresses ↔ (heapOf origins).live address ≠ none ∧ address ∉ lost) ∧
      profileCreate locate name maps world p skipFuncs = .ok (profiled, maps', profile) ∧
      Denotes profile (keptSamples name skipFuncs symbolOf (addresses.map (heapOf origins).sample)) ∧
      Flat profile (keptSamples name skipFuncs symbolOf (addresses.map (heapOf origins).sample)) := by
  have listed := mem_keys_of_tells sound found tells
  have samples : process.table.keys.map known.sample = process.table.keys.map (heapOf origins).sample :=
    List.map_congr_left fun address member => knows.sample_eq ((listed address).mp member)
  have recorded := recorded_of_tells sound found tells
  rw [samples] at recorded
  have frames : ∀ address, IsFrame (process.table.keys.map (heapOf origins).sample) address →
      IsFrameOf origins address := by
    rintro frame ⟨trace, member, occurs⟩
    obtain ⟨address, _, rfl⟩ := List.mem_map.mp member
    unfold Heap.sample at occurs
    cases held : heapOf origins address with
    | none =>
      rw [held] at occurs
      cases occurs
    | some block =>
      rw [held] at occurs
      rcases exists_origin held with ⟨origin, memberOrigin, same⟩ | none
      · exact ⟨origin, memberOrigin, same ▸ occurs⟩
      · cases none
  obtain ⟨maps', profile, paths, returned, profiled⟩ :=
    profileCreate_recorded found recorded (fixed_mono fixed frames) name skipFuncs
  exact ⟨process.table.keys, _, maps', profile, process.table.nodupKeys,
    fun address => by rw [listed, knows.listed_iff], returned, profiled.denotes, profiled.flat⟩

/-- However the reports of a program reach the profiler, the profile that is made of its
process when it has ended is that of the blocks it had left, except those whose last
`realloc` failed.  When these are freed their stacks are written. -/
theorem program_profiled {origins : List (Origin layout)} {program : Sequential.Program}
    (ran : Sequential.Program.run {} (origins.map Origin.site) = some program) {exit : Option (Pid × UInt32)}
    (last : ∀ final ∈ exit, final.2 = lastSeqno 0 origins) {results : List SendResult}
    (harmless : ∀ result ∈ results, Harmless result) {watch : Watch} {world : World}
    (starts : Mirrors watch (fun _ => none) 0 world) (conditions : ℕ → List Bool) {others : ℕ → World → World}
    (keeps : ∀ n known seqno world, Mirrors watch known seqno world → Mirrors watch known seqno (others n world))
    {files : ProcId → ℕ → Files} (writable : ∀ p, Dumping.Writable (files p)) (frames : StackPtr → List Addr)
    {symbolOf : Addr → σ} {maps : τ} (fixed : Fixed locate (IsFrameOf origins) symbolOf maps) (name : σ → String)
    (skipFuncs : List String) :
    ∃ outlet fuel later handed, ∃ addresses : List Addr, ∃ profiled maps' profile,
      writeChannel layout (stackCalls 0 origins) exit results = (outlet, true) ∧
      inputCalls layout watch conditions others fuel 0 world outlet.sent = .ok (later, [], handed) ∧
      Dumping.Writes files frames later ∧ addresses.Nodup ∧
      (∀ address, address ∈ addresses ↔ program.live address ≠ none ∧ address ∉ stranded (origins.map Origin.site)) ∧
      profileCreate locate name maps later watch.process skipFuncs = .ok (profiled, maps', profile) ∧
      Denotes profile (keptSamples name skipFuncs symbolOf (addresses.map (heapOf origins).sample)) ∧
      Flat profile (keptSamples name skipFuncs symbolOf (addresses.map (heapOf origins).sample)) := by
  obtain ⟨knows, live, few⟩ := knows_start.run rfl ran
  have lost : (origins.map Origin.call).foldl strand ∅ = stranded (origins.map Origin.site) := by
    rw [stranded, List.map_map]
    rfl
  rw [lost] at knows
  obtain ⟨outlet, written, sent⟩ := writeChannel_ok (few_stackCalls few 0) exit harmless
  obtain ⟨later, handed, middle, ranCalls, mirrors, ended⟩ :=
    inputCalls_leaves conditions keeps starts (numbered_messages few 0 last) (Nat.lt_succ_self _)
  rw [tell_messages] at mirrors
  obtain ⟨sound, process, found, tells⟩ := inputEof_tells mirrors ended
  obtain ⟨addresses, profiled, maps', profile, distinct, listed, returned, denotes, flat⟩ :=
    profileCreate_tells sound found knows tells fixed name skipFuncs
  exact ⟨outlet, _, later, handed, addresses, profiled, maps', profile, written, by rw [sent]; exact ranCalls,
    Dumping.writes_of_writable writable frames later, distinct, fun address => by rw [listed, live]; rfl, returned, denotes, flat⟩

end Profile

/-! ## A program that moves a block -/

/-- A process that has just connected. -/
theorem mirrors_fresh {watch : Watch} {world : World} (ready : Ready watch world) {process : MPProcess}
    (found : world.process watch.process = .ok process) (root : process.cloneOf = none)
    (idle : process.commandQueue = []) (counted : process.seqno = 0) (empty : process.table = ∅) :
    Mirrors watch (fun _ => none) 0 world where
  ready := ready
  process := by
    refine ⟨process, found, root, idle, counted, fun address => ?_⟩
    rw [empty]
    exact .none

def moving : List (Origin lp64) :=
  [⟨.malloc 24 4096, 100, [16, 32], Object.zero _⟩, ⟨.realloc 4096 48 8192, 100, [20, 32], Object.zero _⟩,
    ⟨.malloc 8 4096, 100, [], Object.zero _⟩, ⟨.realloc 4096 64 0, 100, [20, 32], Object.zero _⟩,
    ⟨.free 4096, 100, [16, 32], Object.zero _⟩]

/-- Its profile has the one block that it did not free; the one whose `realloc` failed is not
found when it is freed. -/
theorem program_profiled_moving : ∃ outlet fuel later handed, ∃ addresses : List Addr, ∃ profiled maps' profile,
    writeChannel lp64 (stackCalls 0 moving) (some (100, 5)) [.sent 5, .eintr, .sent 60] = (outlet, true) ∧
      inputCalls lp64 ⟨1, 1, 0⟩ (fun _ => [true]) (fun _ world => world) fuel 0 (tracing false) outlet.sent =
        .ok (later, [], handed) ∧
      Dumping.Writes (fun _ _ => Dumping.blankFiles) Nested.framesOnce later ∧
      addresses = [8192] ∧ profileCreate locateStart nameStart () later 0 [] = .ok (profiled, maps', profile) ∧
      Denotes profile [([32, 20], 48)] ∧ Flat profile [([32, 20], 48)] := by
  have found : (tracing false).process 0 = .ok (traced false) := rfl
  let program : Sequential.Program := (Sequential.Program.run {} (moving.map Origin.site)).getD {}
  have ran : Sequential.Program.run {} (moving.map Origin.site) = some program := rfl
  have harmless : ∀ result ∈ [SendResult.sent 5, .eintr, .sent 60], Harmless result := by decide
  have last : ∀ final ∈ some ((100, 5) : Pid × UInt32), final.2 = lastSeqno 0 moving := by
    rintro final ⟨⟩
    rfl
  obtain ⟨outlet, fuel, later, handed, addresses, profiled, maps', profile, written, read, dumped, distinct, listed,
      returned, denotes, flat⟩ :=
    program_profiled ran last harmless (mirrors_fresh tracing_ready found rfl rfl rfl rfl) (fun _ => [true])
      (fun _ _ _ _ mirrors => mirrors) (fun _ => Dumping.writable_blankFiles) Nested.framesOnce
      (fixed_locateStart _) nameStart []
  have none : stranded (moving.map Origin.site) = ∅ := by decide
  have live : program.live = ((((Live.obtain (fun _ => .none) 4096 24).release 4096).obtain 8192 48).obtain
      4096 8).release 4096 := rfl
  have only : addresses = [8192] := by
    rw [← List.perm_singleton, List.perm_ext_iff_of_nodup distinct (List.nodup_singleton _)]
    intro address
    rw [listed, none, live]
    simp only [Live.release, Live.obtain, Function.update_apply]
    by_cases moved : address = 8192 <;> by_cases freed : address = 4096 <;> simp [moved, freed]
  subst only
  exact ⟨outlet, fuel, later, handed, _, profiled, maps', profile, written, read, dumped, rfl, returned, denotes, flat⟩

end Memprof.Pipeline
