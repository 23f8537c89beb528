import Memprof.Dumping
import Memprof.Verified.Delivery

/-! # Calls of `process_command` with what they write

`feed` records the blocks that are not found.  What `process_dump_stack` does with them
depends on the maps only, and nothing of the table depends on what it leaves, so that calls
that write as they go return if and only if all that `feed` records can be written.
-/

namespace Memprof.Dumping

open Library Blocks Delivery

/-! ## What is recorded -/

/-- Blocks that are not found are only added. -/
structure Grows (process later : MPProcess) : Prop where
  pid : later.pid = process.pid
  dumps : process.dumps <+: later.dumps

theorem Grows.refl (process : MPProcess) : Grows process process := ⟨rfl, List.prefix_refl _⟩

theorem Grows.trans {first second third : MPProcess} (left : Grows first second) (right : Grows second third) :
    Grows first third := ⟨right.pid.trans left.pid, left.dumps.trans right.dumps⟩

theorem removeOld_grows {blocks blocks' : Store Block} {process process' : MPProcess} {oldPtr : Addr} {stack : StackPtr}
    (removed : removeOld blocks process oldPtr stack = .ok (blocks', process')) : Grows process process' := by
  unfold removeOld at removed
  split at removed
  · split at removed
    · cases removed
      exact ⟨rfl, List.prefix_append _ _⟩
    · split at removed
      · cases removed
      · obtain ⟨_, _, removed⟩ := ok_of_bind removed
        cases removed
        exact ⟨rfl, List.prefix_refl _⟩
  · cases removed
    exact .refl process

theorem insertNew_grows (blocks : Store Block) (process : MPProcess) (info : MIInfo) (stack : StackPtr) :
    Grows process (insertNew blocks process info stack).2 := by
  unfold insertNew
  split
  · exact ⟨rfl, List.prefix_refl _⟩
  · exact .refl process

theorem reportBlock_grows {blocks blocks' : Store Block} {process process' : MPProcess} {info info' : MIInfo}
    {stack : StackPtr} (reported : reportBlock blocks process info stack = .ok (blocks', process', info')) :
    Grows process process' := by
  obtain ⟨⟨after, removed⟩, ran, reported⟩ := ok_of_bind reported
  cases reported
  have made : Grows process (getBlockTable process) := ⟨rfl, List.prefix_refl _⟩
  exact (made.trans (removeOld_grows ran)).trans (insertNew_grows after removed info stack)

theorem consume_grows {state later : Store Block × MPProcess} {command : Command}
    (consumed : consume state command = .ok later) : Grows state.2 later.2 := by
  obtain ⟨⟨blocks, process, info⟩, applied, rfl⟩ := ok_of_map consumed
  have numbered : Grows state.2 { state.2 with seqno := state.2.seqno + 1 } := ⟨rfl, List.prefix_refl _⟩
  unfold applyCommand at applied
  cases operation : command.info.operation with
  | new | fork | clone | exec => rw [operation] at applied; cases applied
  | exit => rw [operation] at applied; cases applied; exact numbered
  | time | malloc | realloc | free | other _ _ =>
    rw [operation] at applied
    exact numbered.trans (reportBlock_grows applied)

theorem call_grows {state later : Store Block × MPProcess} {command : Command} (called : call state command = .ok later) :
    Grows state.2 later.2 := by
  have delivered := @deliver_ensures _ _ _ expected number consume (fun _ => True)
    (fun result => Grows state.2 result.2) state.2.commandQueue command
    (fun result other _ grows => by
      cases consumed : consume result other with
      | error fault => exact ensures_error trivial
      | ok next => exact ensures_ok (grows.trans (consume_grows consumed)))
    (state.1, withQueue [] state.2) ⟨rfl, List.prefix_refl _⟩
  have ensured : Ensures (fun _ => True) (call (state.1, withQueue state.2.commandQueue state.2) command)
      fun result => Grows state.2 result.2 := by
    rw [call_eq_deliver]
    exact Ensures.map (delivered.imp fun pending held => held.1.trans ⟨rfl, List.prefix_refl _⟩)
  exact ensured.of_ok called

theorem feed_grows {state later : Store Block × MPProcess} {commands : List Command}
    (fed : feed state commands = .ok later) : Grows state.2 later.2 := by
  induction commands generalizing state with
  | nil =>
    cases fed
    exact .refl _
  | cons command commands inductionHypothesis =>
    rw [feed, List.foldlM_cons] at fed
    obtain ⟨next, called, fed⟩ := ok_of_bind fed
    exact (call_grows called).trans (inductionHypothesis fed)

/-! ## What is written -/

variable (files : ℕ → Files) (frames : StackPtr → List Addr)

/-- A call of `process_command`, and what it writes. -/
def callWriting (state : (Store Block × MPProcess) × MapReader × CString) (command : Command) :
    Except Fault ((Store Block × MPProcess) × MapReader × CString) := do
  let later ← call state.1 command
  let written ← writeDumps files frames later.2.pid state.2 (later.2.dumps.drop state.1.2.dumps.length)
  .ok (later, written)

def feedWriting (state : (Store Block × MPProcess) × MapReader × CString) (arrival : List Command) :
    Except Fault ((Store Block × MPProcess) × MapReader × CString) :=
  arrival.foldlM (callWriting files frames) state

variable {files frames}

theorem writeDumps_append {pid : Pid} {written : MapReader × CString} (left right : List Dump) :
    writeDumps files frames pid written (left ++ right) =
      writeDumps files frames pid written left >>= fun middle => writeDumps files frames pid middle right :=
  List.foldlM_append

/-- What calls write as they go is what they have recorded in the end. -/
theorem feedWriting_eq_ok {state later : Store Block × MPProcess} {written written' : MapReader × CString}
    {commands : List Command} : feedWriting files frames (state, written) commands = .ok (later, written') ↔
      feed state commands = .ok later ∧
        writeDumps files frames state.2.pid written (later.2.dumps.drop state.2.dumps.length) = .ok written' := by
  induction commands generalizing state written with
  | nil =>
    constructor
    · intro nothing
      cases nothing
      exact ⟨rfl, by rw [List.drop_length]; rfl⟩
    · rintro ⟨nothing, wrote⟩
      cases nothing
      rw [List.drop_length] at wrote
      cases wrote
      rfl
  | cons command commands inductionHypothesis =>
    rw [feedWriting, List.foldlM_cons, feed, List.foldlM_cons]
    -- What the first call records is the beginning of what all of them record.
    have split {next : Store Block × MPProcess} (called : call state command = .ok next)
        (fed : feed next commands = .ok later) :
        writeDumps files frames state.2.pid written (later.2.dumps.drop state.2.dumps.length) =
          writeDumps files frames next.2.pid written (next.2.dumps.drop state.2.dumps.length) >>= fun middle =>
            writeDumps files frames next.2.pid middle (later.2.dumps.drop next.2.dumps.length) := by
      obtain ⟨pid, new, recorded⟩ := call_grows called
      obtain ⟨_, rest, recordedRest⟩ := feed_grows fed
      rw [← writeDumps_append, pid, ← recordedRest, ← recorded, List.drop_left, List.append_assoc, List.drop_left,
        ← List.append_assoc, List.drop_left]
    constructor
    · intro ran
      obtain ⟨⟨next, middle⟩, ranFirst, ran⟩ := ok_of_bind ran
      obtain ⟨_, called, ranFirst⟩ := ok_of_bind ranFirst
      obtain ⟨_, wrote, ranFirst⟩ := ok_of_bind ranFirst
      cases ranFirst
      obtain ⟨fed, wroteRest⟩ := inductionHypothesis.mp ran
      refine ⟨by rw [called, ok_bind]; exact fed, ?_⟩
      rw [split called fed, wrote, ok_bind, wroteRest]
    · rintro ⟨ran, wrote⟩
      obtain ⟨next, called, fed⟩ := ok_of_bind ran
      rw [split called fed] at wrote
      obtain ⟨middle, wroteFirst, wroteRest⟩ := ok_of_bind wrote
      have first : callWriting files frames (state, written) command = .ok (next, middle) := by
        rw [callWriting, called, ok_bind, wroteFirst, ok_bind]
      rw [first, ok_bind]
      exact inductionHypothesis.mpr ⟨fed, wroteRest⟩

/-! ## When everything can be written -/

/-- The maps can always be opened and no file has too many symbols; and every name that
`find_line` gives may be freed, which `process_dump_stack` takes for granted. -/
structure Writable (files : ℕ → Files) : Prop where
  maps : ∀ reads, (files reads).maps ≠ none
  few : ∀ reads map, ∀ syms ∈ (files reads).readBfd map, syms.length < 2 ^ 31
  owned : ∀ reads map address, ∀ line ∈ (files reads).findLine map address, line.owned = true

/-- Whatever was read and written before, all that the processes have recorded can be written. -/
def Writes (files : ProcId → ℕ → Files) (frames : StackPtr → List Addr) (world : World) : Prop :=
  ∀ p process, world.process p = .ok process →
    ∀ state, ∃ written, writeDumps (files p) frames process.pid state process.dumps = .ok written

namespace Writable

theorem prepareFound (writable : Writable files) (reads : ℕ) (cache : MapCache) {i : ℕ} (inside : i < cache.mapList.length) :
    ∃ found, prepareFound (files reads) cache i = .ok found := by
  rw [Memprof.prepareFound, List.getElem?_eq_getElem inside]
  simp only
  split
  · exact ⟨_, rfl⟩
  · unfold prepareMap
    cases read : (files reads).readBfd cache.mapList[i] with
    | none => exact ⟨_, rfl⟩
    | some syms =>
      simp only [readSymbols, dif_pos (writable.few reads _ syms read), ok_bind]
      exact ⟨_, rfl⟩

theorem locateMap (writable : Writable files) (reads : ℕ) (cache : MapCache) (address : Addr) :
    ∃ located, locateMap (files reads) cache address = .ok located := by
  unfold Memprof.locateMap
  split
  next i inside => exact writable.prepareFound reads cache (List.findIdx?_eq_some_iff_getElem.mp inside).1
  next =>
    simp only
    split
    · exact ⟨_, rfl⟩
    · obtain ⟨lines, opened⟩ := Option.ne_none_iff_exists'.mp (writable.maps reads)
      rw [processReadMaps, opened, ok_bind]
      split
      next i inside => exact writable.prepareFound reads _ (List.findIdx?_eq_some_iff_getElem.mp inside).1
      next => exact ⟨_, rfl⟩

theorem dumpFrame (writable : Writable files) (state : MapReader × CString) (address : Addr) :
    ∃ written, dumpFrame files state address = .ok written := by
  obtain ⟨⟨cache, located⟩, ran⟩ := writable.locateMap
    (if state.1.cache.Rereads address then state.1.reads + 1 else state.1.reads) state.1.cache address
  rw [Memprof.dumpFrame, MapReader.findLine]
  simp only [ran, ok_bind]
  rw [if_neg]
  · exact ⟨_, rfl⟩
  · rw [Option.any_eq_true]
    rintro ⟨line, found, shared⟩
    obtain ⟨map, _, given⟩ := Option.bind_eq_some_iff.mp found
    rw [writable.owned _ map _ line given] at shared
    cases shared

theorem processDumpStack (writable : Writable files) (state : MapReader × CString) (stack : List Addr) :
    ∃ written, processDumpStack files state stack = .ok written := by
  induction stack generalizing state with
  | nil => exact ⟨state, rfl⟩
  | cons address stack inductionHypothesis =>
    obtain ⟨next, first⟩ := writable.dumpFrame state address
    rw [Memprof.processDumpStack, List.foldlM_cons, first, ok_bind]
    exact inductionHypothesis next

theorem writeDumps (writable : Writable files) (frames : StackPtr → List Addr) (pid : Pid)
    (state : MapReader × CString) (dumps : List Dump) :
    ∃ written, writeDumps files frames pid state dumps = .ok written := by
  induction dumps generalizing state with
  | nil => exact ⟨state, rfl⟩
  | cons dump dumps inductionHypothesis =>
    obtain ⟨next, first⟩ := writable.processDumpStack (state.1, state.2 ++ notFound pid dump.block) (frames dump.stack)
    rw [Memprof.writeDumps, List.foldlM_cons, writeDump, first, ok_bind]
    exact inductionHypothesis next

end Writable

theorem writes_of_writable {files : ProcId → ℕ → Files} (writable : ∀ p, Writable (files p))
    (frames : StackPtr → List Addr) (world : World) : Writes files frames world :=
  fun p process _ state => (writable p).writeDumps frames process.pid state process.dumps

/-- Files of which none can be read but the maps, and of those no line. -/
def blankFiles : Files where
  maps := some []
  locateInode _ _ _ := none
  stat _ := none
  exe := none
  readBfd _ := none
  demangle := id

theorem writable_blankFiles : Writable fun _ => blankFiles where
  maps _ := by simp [blankFiles]
  few _ _ _ none := by cases none
  owned _ _ _ _ none := by cases none

end Memprof.Dumping
