import Memprof.Library.Wraparound
import Memprof.Verified.Delivery

/-! # Seqnos that wrap around

The sending library counts modulo the width of a `guint`, and so does the process.  The queue
is sorted by the plain values: what has wrapped stands in front of all that has not.
-/

namespace Memprof.Wrapping

open Library Blocks Delivery

/-- The place of a command counted from `seqno`. -/
def place (seqno : UInt32) (command : Command) : ℕ := (command.info.seqno - seqno).toNat

/-- No command that is due is left to wait by any call, and in the end none waits. -/
def Unstuck (state : Store Block × MPProcess) (arrival : List Command) : Prop :=
  (∀ seen rest, arrival = seen ++ rest → ∃ later, feed state seen = .ok later ∧
    ∀ command ∈ later.2.commandQueue, command.info.seqno ≠ later.2.seqno) ∧
  ∃ later, feed state arrival = .ok later ∧ later.2.commandQueue = []

theorem map_place {commands : List Command} {start seqno : UInt32} {count : ℕ}
    (here : seqno = start + UInt32.ofNat count) (numbered : Successive seqno commands)
    (fits : count + commands.length ≤ 2 ^ 32) : commands.map (place start) = List.range' count commands.length := by
  induction commands generalizing seqno count with
  | nil => rfl
  | cons command commands inductionHypothesis =>
    obtain ⟨same, numberedRest⟩ := numbered
    rw [List.length_cons] at fits
    have first : place start command = count := by
      rw [place, same, here, UInt32.add_comm, UInt32.add_sub_cancel, UInt32.toNat_ofNat']
      omega
    have following : seqno + 1 = start + UInt32.ofNat (count + 1) := by
      rw [here, UInt32.ofNat_add, UInt32.add_assoc]
      rfl
    have rest := inductionHypothesis following numberedRest (by omega)
    rw [List.map_cons, first, rest, List.length_cons, List.range'_succ]

theorem number_eq (seqno : UInt32) (command : Command) :
    number command = (seqno.toNat + place seqno command) % 2 ^ 32 := by
  rw [place, number, ← UInt32.toNat_add, UInt32.add_comm, UInt32.sub_add_cancel]

/-- A report that is due is applied. -/
theorem applies_consume {commands : List Command} (reported : ∀ command ∈ commands, IsReport command.info.operation) :
    Applies (2 ^ 32) expected number consume (fun state => Coherent state.1 state.2.table) commands := by
  rintro ⟨blocks, process⟩ coherent command member _
  obtain ⟨blocks', process', info', applied, step, _, seqno, _⟩ :=
    applyCommand_spec coherent (reported command member) command.stack
  refine ⟨(blocks', process'), ?_, step.coherent, ?_⟩
  · rw [consume, applied]
    rfl
  · simp only [expected, seqno, UInt32.toNat_add, UInt32.reduceToNat]

/-- What a feed leaves is what the arrivals at the resequencer leave. -/
theorem exists_feed_iff {blocks : Store Block} {process : MPProcess} {seen : List Command}
    {property : List Command → UInt32 → Prop} :
    (∃ later, feed (blocks, withQueue [] process) seen = .ok later ∧ property later.2.commandQueue later.2.seqno) ↔
      ∃ state queue, seen.foldlM (deliver expected number consume) ((blocks, withQueue [] process), []) =
        .ok (state, queue) ∧ property queue state.2.seqno := by
  rw [feed_eq_deliver]
  cases seen.foldlM (deliver expected number consume) ((blocks, withQueue [] process), []) with
  | error fault => simp [Except.map]
  | ok pending =>
    obtain ⟨state, queue⟩ := pending
    simp [Except.map, rejoin, withQueue]

/-- Reports with successive seqnos, in whatever order they arrive, are never stuck if and only
if none from before the wrap arrives after both a later one from before it and one from behind
it. -/
theorem feed_unstuck_iff {blocks : Store Block} {process : MPProcess} (coherent : Coherent blocks process.table)
    (idle : process.commandQueue = []) {commands arrival : List Command}
    (reported : ∀ command ∈ commands, IsReport command.info.operation) (numbered : Successive process.seqno commands)
    (few : commands.length < 2 ^ 31) (permuted : arrival.Perm commands) :
    Unstuck (blocks, process) arrival ↔ ¬ Overtaken process.seqno.toNat number arrival := by
  have places : (arrival.map (place process.seqno)).Perm (List.range commands.length) := by
    rw [List.range_eq_range', ← @map_place _ process.seqno _ 0 (by simp) numbered (by omega)]
    exact permuted.map _
  have circular : Circular process.seqno.toNat (2 ^ 32) number (place process.seqno) arrival := by
    refine ⟨process.seqno.toNat_lt, fun command _ => number_eq process.seqno command, fun command _ => ?_, ?_⟩
    · exact (command.info.seqno - process.seqno).toNat_lt
    · exact places.nodup_iff.mpr List.nodup_range
  have complete : ∀ command ∈ arrival, ∀ earlier < place process.seqno command,
      ∃ other ∈ arrival, place process.seqno other = earlier := by
    intro command member earlier before
    have inRange := places.mem_iff.mp (List.mem_map_of_mem member)
    rw [List.mem_range] at inRange
    exact List.mem_map.mp (places.mem_iff.mpr (List.mem_range.mpr (before.trans inRange)))
  have reportedArrival : ∀ command ∈ arrival, IsReport command.info.operation := fun command member =>
    reported command (permuted.mem_iff.mp member)
  have unstuck := @deliver_unstuck_iff _ _ _ _ _ expected number (place process.seqno) consume _ arrival
    (blocks, withQueue [] process) circular (applies_consume reportedArrival) coherent rfl complete
  have detached : process = withQueue [] process := by rw [withQueue, ← idle]
  have different : ∀ (command : Command) (state : Store Block × MPProcess),
      number command ≠ expected state ↔ command.info.seqno ≠ state.2.seqno := fun command state => by
    rw [number, expected, ne_eq, UInt32.toNat_inj]
  have once : withQueue [] (withQueue [] process) = withQueue [] process := rfl
  rw [← unstuck, Unstuck, detached]
  simp only [different, once]
  refine and_congr ?_ ?_
  · refine forall_congr' fun seen => forall_congr' fun rest => imp_congr_right fun _ => ?_
    exact @exists_feed_iff blocks process seen fun queue seqno => ∀ command ∈ queue, command.info.seqno ≠ seqno
  · refine (@exists_feed_iff blocks process arrival fun queue _ => queue = []).trans (exists_congr fun state => ?_)
    simp

/-! ## Three reports around the wrap -/

def reportAt (seqno : UInt32) : Command :=
  ⟨{ operation := .malloc, seqno := seqno, newPtr := 16 + seqno.toUInt64 }, none⟩

/-- The first of three reports comes last: the second one waits behind the third for good. -/
theorem feed_stuck :
    ¬ ∀ (blocks : Store Block) (process : MPProcess) (commands arrival : List Command),
      Coherent blocks process.table → process.commandQueue = [] →
      (∀ command ∈ commands, IsReport command.info.operation) → Successive process.seqno commands →
      commands.length < 2 ^ 31 → arrival.Perm commands → Unstuck (blocks, process) arrival := by
  intro never
  obtain ⟨_, later, fed, empty⟩ := never {} { seqno := 2 ^ 32 - 2 }
    [reportAt (2 ^ 32 - 2), reportAt (2 ^ 32 - 1), reportAt 0] [reportAt (2 ^ 32 - 1), reportAt 0, reportAt (2 ^ 32 - 2)]
    (coherent_empty fun _ _ live => by cases live) rfl (by simp [IsReport, reportAt]) ⟨rfl, rfl, rfl, trivial⟩ (by decide)
    (by decide)
  have waits : (feed ({}, { seqno := 2 ^ 32 - 2 }) [reportAt (2 ^ 32 - 1), reportAt 0, reportAt (2 ^ 32 - 2)]).toOption.map
      (fun state => state.2.commandQueue.length) = some 2 := by decide +kernel
  rw [fed] at waits
  simp [Except.toOption, empty] at waits

/-- The wrap alone does no harm. -/
theorem feed_unstuck_iff_wrapped :
    Unstuck ({}, { seqno := 2 ^ 32 - 2 }) [reportAt (2 ^ 32 - 1), reportAt (2 ^ 32 - 2), reportAt 0] ↔
      ¬ Overtaken (2 ^ 32 - 2) number [reportAt (2 ^ 32 - 1), reportAt (2 ^ 32 - 2), reportAt 0] :=
  @feed_unstuck_iff {} { seqno := 2 ^ 32 - 2 } (coherent_empty fun _ _ live => by cases live) rfl
    [reportAt (2 ^ 32 - 2), reportAt (2 ^ 32 - 1), reportAt 0] _ (by simp [IsReport, reportAt])
    ⟨rfl, rfl, rfl, trivial⟩ (by decide) (by decide)

end Memprof.Wrapping
