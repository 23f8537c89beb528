import Memprof.Verified.Isolation

/-! # Every time sample is a block

A sample is filed under the address `seqno + 1`.  The invariant that carries the proof bounds
the addresses of the table by the counter: whatever was cleared or copied, the address of the
sample that is due is free, so that it is counted, and the counters count the samples.
-/

namespace Memprof.Sampling

open Library Blocks Delivery Accounting

/-! ## What a process has received -/

/-- What an observer writes down of a process. -/
structure Ledger where
  /-- A process of its own, or the copy of one that was `Sampled` when it was copied. -/
  genuine : Bool := true
  /-- The seqno of the process when it was cleared last. -/
  mark : ℕ := 0
  /-- The commands received; a copy starts with those that its original had applied. -/
  received : List Command := []

/-- Only samples, each seqno once and all below `2 ^ 32 - 2`. -/
def Sampled (ledger : Ledger) : Prop :=
  ledger.genuine = true ∧
    (∀ command ∈ ledger.received, command.info.operation = .time ∧ number command < 2 ^ 32 - 2) ∧
    (ledger.received.map number).Nodup

instance (ledger : Ledger) : Decidable (Sampled ledger) := inferInstanceAs (Decidable (_ ∧ _))

namespace Ledger

def receive (ledger : Ledger) (command : Command) : Ledger := { ledger with received := command :: ledger.received }

/-- For the copy of a process that is at `seqno`. -/
def copied (ledger : Ledger) (seqno : ℕ) : Ledger where
  genuine := Sampled ledger
  mark := ledger.mark
  received := ledger.received.filter (number · < seqno)

/-- The commands applied since the process was cleared, when it is at `seqno`; those of its
original are among them until then. -/
def samples (ledger : Ledger) (seqno : ℕ) : List Command :=
  ledger.received.filter fun command => ledger.mark ≤ number command ∧ number command < seqno

end Ledger

def seqnoOf (world : World) (p : ProcId) : ℕ :=
  match world.process p with
  | .ok process => process.seqno.toNat
  | .error _ => 0

def record (world : World) (ledgers : List Ledger) : Operation → List Ledger
  | .processNew => ledgers ++ [{}]
  | .getStackStash _ => ledgers
  | .processCommand p info stack => ledgers.modify p (·.receive ⟨info, stack⟩)
  | .processClearInput p => ledgers.modify p fun ledger => { ledger with mark := seqnoOf world p }
  | .processExecReset p => ledgers.set p {}
  | .processDuplicate p => ledgers ++ [(ledgers[p]?.getD {}).copied (seqnoOf world p)]

/-- A run of the profiler, and the ledgers of its processes. -/
def observe (operations : List Operation) : Except Fault (World × List Ledger) :=
  operations.foldlM
    (fun reached operation => (perform reached.1 operation).map fun later => (later, record reached.1 reached.2 operation))
    ({}, [])

/-! ## The invariant of one process -/

/-- The numbers below the counter have all arrived; the rest waits; and the table holds the
samples from the last clear on, each under its number plus one.  `waiting` is the queue, or
what is left of it in the middle of `process_command`. -/
structure Midway (ledger : Ledger) (blocks : Store Block) (process : MPProcess) (waiting : List Command) : Prop where
  coherent : Coherent blocks process.table
  passed : ∀ n < process.seqno.toNat, ∃ command ∈ ledger.received, number command = n
  mark : ledger.mark ≤ process.seqno.toNat
  listed : ∀ command, command ∈ waiting ↔ command ∈ ledger.received ∧ process.seqno.toNat ≤ number command
  ready : Waiting number process.seqno.toNat (2 ^ 32 - 2) waiting
  filed : ∀ address entry, contents blocks process.table address = some entry ↔
    ∃ command ∈ ledger.samples process.seqno.toNat, address.toNat = number command + 1 ∧ entry = (1, command.stack)

structure Filed (ledger : Ledger) (blocks : Store Block) (process : MPProcess) : Prop
    extends Midway ledger blocks process process.commandQueue where
  settled : ∀ command ∈ ledger.received, number command ≠ process.seqno.toNat

theorem Sampled.eq_of_number {ledger : Ledger} (sampled : Sampled ledger) {command command' : Command}
    (mem : command ∈ ledger.received) (mem' : command' ∈ ledger.received) (same : number command = number command') :
    command = command' := List.inj_on_of_nodup_map sampled.2.2 mem mem' same

theorem Sampled.of_receive {ledger : Ledger} {command : Command} (sampled : Sampled (ledger.receive command)) :
    Sampled ledger :=
  ⟨sampled.1, fun other mem => sampled.2.1 other (List.mem_cons_of_mem _ mem), (List.nodup_cons.mp sampled.2.2).2⟩

theorem mem_samples {ledger : Ledger} {seqno : ℕ} {command : Command} :
    command ∈ ledger.samples seqno ↔
      command ∈ ledger.received ∧ ledger.mark ≤ number command ∧ number command < seqno := by
  simp [Ledger.samples]

/-- A copy holds at first what its original held. -/
theorem samples_copied (ledger : Ledger) (seqno : ℕ) : (ledger.copied seqno).samples seqno = ledger.samples seqno := by
  rw [Ledger.samples, Ledger.samples, Ledger.copied, List.filter_filter]
  refine List.filter_congr fun command _ => ?_
  simp

theorem toNat_succ {seqno : UInt32} (small : seqno.toNat < 2 ^ 32 - 2) : (seqno + 1).toNat = seqno.toNat + 1 := by
  rw [UInt32.toNat_add]
  simp only [UInt32.reduceToNat]
  omega

/-- The sample that is due gets an entry of its own, since the table has no address above
the counter. -/
theorem Midway.apply {ledger : Ledger} {blocks : Store Block} {process : MPProcess} {command : Command}
    {waiting : List Command} (sampled : Sampled ledger) (midway : Midway ledger blocks process (command :: waiting))
    (due : number command = process.seqno.toNat) {blocks' : Store Block} {process' : MPProcess}
    (consumed : consume (blocks, process) command = .ok (blocks', process')) :
    Midway ledger blocks' process' waiting := by
  have received : command ∈ ledger.received := ((midway.listed command).mp List.mem_cons_self).1
  obtain ⟨operation, small⟩ := sampled.2.1 command received
  have reported : IsReport command.info.operation := by
    rw [operation]
    trivial
  obtain ⟨blocks₁, process₁, info, applied, step, -, seqno, table⟩ :=
    applyCommand_spec midway.coherent reported command.stack
  rw [consume, applied] at consumed
  have same : (blocks₁, process₁) = (blocks', process') := Except.ok.inj consumed
  cases same
  have counted : process'.seqno.toNat = process.seqno.toNat + 1 := by
    rw [seqno]
    exact toNat_succ (due ▸ small)
  have key : process'.seqno.toUInt64.toNat = number command + 1 := by
    rw [UInt32.toNat_toUInt64, counted, due]
  have keyNonNull : process'.seqno.toUInt64 ≠ 0 := by
    intro null
    rw [null] at key
    simp at key
  have free : contents blocks process.table process'.seqno.toUInt64 = none := by
    cases held : contents blocks process.table process'.seqno.toUInt64 with
    | none => rfl
    | some entry =>
      obtain ⟨other, sample, addressed, -⟩ := (midway.filed _ entry).mp held
      have below := (mem_samples.mp sample).2.2
      omega
  have updated : contents blocks' process'.table =
      Function.update (contents blocks process.table) process'.seqno.toUInt64 (some (1, command.stack)) := by
    rw [table, Contents.apply, operation, Contents.report, Contents.remove, if_pos rfl, Contents.insert,
      if_pos ⟨keyNonNull, free⟩]
  refine ⟨step.coherent, ?_, ?_, ?_, ?_, ?_⟩
  · intro n below
    rw [counted] at below
    by_cases last : n = number command
    · exact ⟨command, received, last.symm⟩
    · exact midway.passed n (by omega)
  · exact midway.mark.trans (by omega)
  · intro other
    rw [counted]
    constructor
    · intro mem
      obtain ⟨known, -⟩ := (midway.listed other).mp (List.mem_cons_of_mem _ mem)
      exact ⟨known, due ▸ midway.ready.tail.from_first other mem⟩
    · rintro ⟨known, above⟩
      rcases List.mem_cons.mp ((midway.listed other).mpr ⟨known, by omega⟩) with rfl | mem
      · omega
      · exact mem
  · rw [counted, ← due]
    exact midway.ready.tail
  · intro address entry
    rw [updated]
    by_cases here : address = process'.seqno.toUInt64
    · subst here
      rw [Function.update_self, Option.some.injEq]
      constructor
      · rintro rfl
        exact ⟨command, mem_samples.mpr ⟨received, due ▸ midway.mark, by omega⟩, key, rfl⟩
      · rintro ⟨other, sample, addressed, rfl⟩
        rw [sampled.eq_of_number (mem_samples.mp sample).1 received (by omega)]
    · rw [Function.update_of_ne here, midway.filed]
      refine exists_congr fun other => and_congr_left fun filed => ?_
      have differs : number other ≠ number command := by
        intro same
        exact here (UInt64.toNat_inj.mp (by rw [key, filed.1, same]))
      rw [mem_samples, mem_samples, counted]
      exact and_congr_right fun _ => and_congr_right fun _ => by omega

/-- Draining the queue. -/
theorem Midway.settle {ledger : Ledger} {blocks : Store Block} {process : MPProcess} {waiting : List Command}
    (sampled : Sampled ledger) (midway : Midway ledger blocks process waiting) {blocks' : Store Block}
    {process' : MPProcess} {left : List Command}
    (settled : Library.settle expected number consume (blocks, process) waiting = .ok ((blocks', process'), left)) :
    Midway ledger blocks' process' left ∧ ∀ command ∈ ledger.received, number command ≠ process'.seqno.toNat := by
  induction waiting generalizing blocks process with
  | nil =>
    cases settled
    refine ⟨midway, fun command known same => ?_⟩
    cases (midway.listed command).mpr ⟨known, same.ge⟩
  | cons head tail inductionHypothesis =>
    rw [Library.settle] at settled
    split at settled
    next due =>
      obtain ⟨⟨blocks₁, process₁⟩, consumed, settled⟩ := ok_of_bind settled
      exact inductionHypothesis (midway.apply sampled due consumed) settled
    next early =>
      cases settled
      refine ⟨midway, fun command known same => ?_⟩
      -- The head is the least number that waits, and it is not due.
      have above := midway.ready.from_first head List.mem_cons_self
      rcases List.mem_cons.mp ((midway.listed command).mpr ⟨known, same.ge⟩) with rfl | mem
      · exact early same
      · have later := midway.ready.tail.from_first command mem
        have head_due : number head = process'.seqno.toNat := by omega
        exact early head_due

theorem Midway.withQueue {ledger : Ledger} {blocks : Store Block} {process : MPProcess} {waiting : List Command}
    (midway : Midway ledger blocks process waiting) (queue : List Command) :
    Midway ledger blocks (Delivery.withQueue queue process) waiting :=
  ⟨midway.coherent, midway.passed, midway.mark, midway.listed, midway.ready, midway.filed⟩

/-- A new sample waits with the others, whether it is due or not. -/
theorem Filed.enqueue {ledger : Ledger} {blocks : Store Block} {process : MPProcess} {command : Command}
    (sampled : Sampled (ledger.receive command)) (filed : Filed ledger blocks process) :
    Midway (ledger.receive command) blocks process (Library.enqueue number command process.commandQueue) := by
  have fresh : ∀ other ∈ ledger.received, number other ≠ number command := fun other known same =>
    (List.nodup_cons.mp sampled.2.2).1 (same ▸ List.mem_map_of_mem known)
  have above : process.seqno.toNat ≤ number command := by
    by_contra below
    obtain ⟨other, known, same⟩ := filed.passed (number command) (by omega)
    exact fresh other known same
  refine ⟨filed.coherent, ?_, filed.mark, ?_, ?_, ?_⟩
  · intro n below
    obtain ⟨other, known, same⟩ := filed.passed n below
    exact ⟨other, List.mem_cons_of_mem _ known, same⟩
  · intro other
    rw [mem_enqueue, filed.listed, Ledger.receive, List.mem_cons]
    constructor
    · rintro (rfl | ⟨known, later⟩)
      · exact ⟨.inl rfl, above⟩
      · exact ⟨.inr known, later⟩
    · rintro ⟨rfl | known, later⟩
      · exact .inl rfl
      · exact .inr ⟨known, later⟩
  · exact filed.ready.enqueue (fun other mem => fresh other ((filed.listed other).mp mem).1) above
      (sampled.2.1 command List.mem_cons_self).2
  · intro address entry
    rw [filed.filed]
    have same : (ledger.receive command).samples process.seqno.toNat = ledger.samples process.seqno.toNat := by
      rw [Ledger.samples, Ledger.samples, Ledger.receive, List.filter_cons_of_neg (by simp; omega)]
    rw [same]

/-- The queue of a process is ahead of its counter. -/
theorem Filed.ahead {ledger : Ledger} {blocks : Store Block} {process : MPProcess}
    (filed : Filed ledger blocks process) :
    Waiting number (process.seqno.toNat + 1) (2 ^ 32 - 2) process.commandQueue := by
  refine ⟨filed.ready.sorted, fun command mem => ?_, filed.ready.below⟩
  have known := (filed.listed command).mp mem
  exact lt_of_le_of_ne known.2 (Ne.symm (filed.settled command known.1))

theorem Filed.processCommand {ledger : Ledger} {blocks blocks' : Store Block} {process process' : MPProcess}
    {info info' : MIInfo} {stack : StackPtr} (sampled : Sampled (ledger.receive ⟨info, stack⟩))
    (filed : Filed ledger blocks process)
    (returned : processCommand blocks process info stack = .ok (blocks', process', info')) :
    Filed (ledger.receive ⟨info, stack⟩) blocks' process' := by
  have called : call (blocks, Delivery.withQueue process.commandQueue process) ⟨info, stack⟩ =
      .ok (blocks', process') := by
    rw [withQueue_self, call, returned]
    rfl
  rw [call_eq_deliver] at called
  obtain ⟨⟨⟨blocks₁, process₁⟩, left⟩, delivered, rejoined⟩ := ok_of_map called
  cases rejoined
  have ahead : Waiting number (expected (blocks, Delivery.withQueue [] process) + 1) (2 ^ 32 - 2) process.commandQueue :=
    filed.ahead
  rw [deliver_eq_settle ahead] at delivered
  obtain ⟨midway, settled⟩ := ((filed.enqueue sampled).withQueue []).settle sampled delivered
  exact ⟨midway.withQueue left, settled⟩

theorem Filed.transport {ledger : Ledger} {blocks blocks' : Store Block} {process process' : MPProcess}
    (filed : Filed ledger blocks process) (coherent : Coherent blocks' process'.table)
    (table : contents blocks' process'.table = contents blocks process.table) (seqno : process'.seqno = process.seqno)
    (queue : process'.commandQueue = process.commandQueue) : Filed ledger blocks' process' := by
  refine ⟨⟨coherent, ?_, ?_, ?_, ?_, ?_⟩, ?_⟩
  · rw [seqno]
    exact filed.passed
  · rw [seqno]
    exact filed.mark
  · rw [seqno, queue]
    exact filed.listed
  · rw [seqno, queue]
    exact filed.ready
  · rw [seqno, table]
    exact filed.filed
  · rw [seqno]
    exact filed.settled

theorem filed_new {blocks : Store Block} (positive : blocks.Positive) : Filed {} blocks {} := by
  refine ⟨⟨coherent_empty positive, nofun, le_rfl, by simp, ⟨.nil, nofun, nofun⟩, fun address entry => ?_⟩, nofun⟩
  exact ⟨nofun, fun ⟨_, sample, _⟩ => absurd (mem_samples.mp sample).1 List.not_mem_nil⟩

/-- Clearing leaves the counter and the queue. -/
theorem Filed.dropped {ledger : Ledger} {blocks blocks' : Store Block} {process : MPProcess}
    (filed : Filed ledger blocks process) (positive : blocks'.Positive) :
    Filed { ledger with mark := process.seqno.toNat } blocks' (dropped process) := by
  refine ⟨⟨coherent_empty positive, filed.passed, le_rfl, filed.listed, filed.ready, fun address entry => ?_⟩, filed.settled⟩
  refine ⟨nofun, fun ⟨command, sample, _⟩ => ?_⟩
  obtain ⟨-, above, below⟩ := mem_samples.mp sample
  exact absurd (above.trans_lt below) (lt_irrefl _)

/-- A copy has the table and the counter, and nothing that waits. -/
theorem Filed.duplicated {ledger : Ledger} {blocks blocks' : Store Block} {p : ProcId} {process : MPProcess}
    {copy : Option BlockTable} (filed : Filed ledger blocks process)
    (coherent : Coherent blocks' (duplicated p process copy).table)
    (table : contents blocks' (copy.getD ∅) = contents blocks process.table) :
    Filed (ledger.copied process.seqno.toNat) blocks' (duplicated p process copy) := by
  have mem : ∀ command, command ∈ (ledger.copied process.seqno.toNat).received ↔
      command ∈ ledger.received ∧ number command < process.seqno.toNat := fun command => by
    simp [Ledger.copied]
  refine ⟨⟨coherent, ?_, filed.mark, ?_, ⟨.nil, nofun, nofun⟩, ?_⟩, ?_⟩
  · intro n below
    obtain ⟨command, known, same⟩ := filed.passed n below
    exact ⟨command, (mem command).mpr ⟨known, same.trans_lt below⟩, same⟩
  · refine fun command => ⟨nofun, fun ⟨known, above⟩ => ?_⟩
    exact absurd (((mem command).mp known).2.trans_le above) (lt_irrefl _)
  · intro address entry
    change contents blocks' (copy.getD ∅) address = some entry ↔ _
    rw [table, filed.filed, show (Accounting.duplicated p process copy).seqno = process.seqno from rfl, samples_copied]
  · exact fun command known => ((mem command).mp known).2.ne

/-! ## The counters -/

theorem samples_length_le {ledger : Ledger} (sampled : Sampled ledger) (seqno : ℕ) :
    (ledger.samples seqno).length ≤ 2 ^ 32 - 2 := by
  have distinct : (ledger.received.map number).Nodup := sampled.2.2
  have inside : ledger.received.map number ⊆ List.range (2 ^ 32 - 2) := by
    intro n mem
    obtain ⟨command, known, rfl⟩ := List.mem_map.mp mem
    exact List.mem_range.mpr (sampled.2.1 command known).2
  calc (ledger.samples seqno).length ≤ ledger.received.length := List.length_filter_le _ _
    _ = (ledger.received.map number).length := (List.length_map _).symm
    _ ≤ (List.range (2 ^ 32 - 2)).length := (distinct.subperm inside).length_le
    _ = 2 ^ 32 - 2 := List.length_range

/-- The address of a sample. -/
def address (command : Command) : Addr := UInt64.ofNat (number command + 1)

theorem address_toNat {ledger : Ledger} (sampled : Sampled ledger) {command : Command}
    (known : command ∈ ledger.received) : (address command).toNat = number command + 1 := by
  have small := (sampled.2.1 command known).2
  rw [address, UInt64.toNat_ofNat']
  omega

theorem Filed.keys_perm {ledger : Ledger} {blocks : Store Block} {process : MPProcess} (sampled : Sampled ledger)
    (filed : Filed ledger blocks process) :
    process.table.keys.Perm ((ledger.samples process.seqno.toNat).map address) := by
  have known : ∀ command ∈ ledger.samples process.seqno.toNat, command ∈ ledger.received :=
    fun command mem => (mem_samples.mp mem).1
  have distinct : ((ledger.samples process.seqno.toNat).map address).Nodup := by
    refine (sampled.2.2.of_map.filter _).map_on fun first mem second mem' same => ?_
    have numbers := congrArg UInt64.toNat same
    rw [address_toNat sampled (known first mem), address_toNat sampled (known second mem')] at numbers
    exact sampled.eq_of_number (known first mem) (known second mem') (by omega)
  have keysDistinct : process.table.keys.Nodup := process.table.nodupKeys
  rw [List.perm_ext_iff_of_nodup keysDistinct distinct]
  intro key
  rw [← AList.mem_keys, ← not_iff_not, ← AList.lookup_eq_none, ← contents_eq_none filed.coherent.keyed,
    Option.eq_none_iff_forall_ne_some, ← not_exists, not_iff_not]
  constructor
  · rintro ⟨entry, held⟩
    obtain ⟨command, sample, addressed, -⟩ := (filed.filed key entry).mp held
    refine List.mem_map.mpr ⟨command, sample, UInt64.toNat_inj.mp ?_⟩
    rw [address_toNat sampled (known command sample), addressed]
  · intro listed
    obtain ⟨command, sample, rfl⟩ := List.mem_map.mp listed
    exact ⟨_, (filed.filed _ _).mpr ⟨command, sample, address_toNat sampled (known command sample), rfl⟩⟩

/-- Each sample is one block of size one with its own stack. -/
theorem Filed.held_perm {ledger : Ledger} {blocks : Store Block} {process : MPProcess} (sampled : Sampled ledger)
    (filed : Filed ledger blocks process) :
    (process.held.map fun b => (blocks.get b).map fun block => (block.size, block.stack)).Perm
      ((ledger.samples process.seqno.toNat).map fun command => some (1, command.stack)) := by
  have entries : (process.held.map fun b => (blocks.get b).map fun block => (block.size, block.stack)) =
      process.table.keys.map (contents blocks process.table) := by
    rw [MPProcess.held, HashTable.values, AList.keys, List.keys, List.map_map, List.map_map]
    refine List.map_congr_left fun entry mem => ?_
    have found := HashTable.mem_entries_iff.mp (show ⟨entry.1, entry.2⟩ ∈ process.table.entries from mem)
    simp [contents, found]
  have values : (ledger.samples process.seqno.toNat).map (contents blocks process.table ∘ address) =
      (ledger.samples process.seqno.toNat).map fun command => some (1, command.stack) := by
    refine List.map_congr_left fun command sample => ?_
    exact (filed.filed _ _).mpr ⟨command, sample, address_toNat sampled (mem_samples.mp sample).1, rfl⟩
  rw [entries, ← values, ← List.map_map]
  exact (filed.keys_perm sampled).map _

theorem Filed.counters {ledger : Ledger} {blocks : Store Block} {process : MPProcess} (sampled : Sampled ledger)
    (filed : Filed ledger blocks process) (accounts : Accounts blocks process) :
    process.nAllocations.toNat = (ledger.samples process.seqno.toNat).length ∧
      process.bytesUsed.toNat = (ledger.samples process.seqno.toNat).length := by
  have perm := filed.held_perm sampled
  have fits := samples_length_le sampled process.seqno.toNat
  have number : process.table.entries.length = (ledger.samples process.seqno.toNat).length := by
    simpa [MPProcess.held, HashTable.values] using perm.length_eq
  have sizes : (process.held.map fun b => (Blocks.sizeOf blocks b).toNat).Perm
      ((ledger.samples process.seqno.toNat).map fun _ => 1) := by
    have mapped := perm.map fun entry => (entry.elim (0 : UInt32) Prod.fst).toNat
    rw [List.map_map, List.map_map] at mapped
    refine (List.Perm.of_eq (List.map_congr_left fun b _ => ?_)).trans mapped
    simp only [Blocks.sizeOf, Function.comp]
    cases blocks.get b <;> rfl
  constructor
  · rw [accounts.number, number, UInt32.toNat_ofNat']
    omega
  · rw [accounts.bytes, toNat_sum, List.map_map]
    change (process.held.map fun b => (Blocks.sizeOf blocks b).toNat).sum % 2 ^ 32 = _
    have total : ((ledger.samples process.seqno.toNat).map fun _ => 1).sum =
        (ledger.samples process.seqno.toNat).length := by simp
    rw [sizes.sum_eq, total]
    omega

/-! ## Runs -/

structure Kept (reached : World × List Ledger) : Prop where
  sound : Sound reached.1
  length : reached.2.length = reached.1.processes.length
  filed : ∀ p process ledger, reached.1.process p = .ok process → reached.2[p]? = some ledger → Sampled ledger →
    Filed ledger reached.1.blocks process

theorem kept_start : Kept ({}, []) where
  sound := sound_start
  length := rfl
  filed p _ _ _ listed := by
    rw [List.getElem?_nil] at listed
    cases listed

/-- A process that the step does not touch. -/
theorem Kept.other {world later : World} {ledgers : List Ledger} (kept : Kept (world, ledgers))
    (soundLater : Sound later) (exchange : ∃ before after, world.blocks.Exchanges before after later.blocks)
    {p : ProcId} {process : MPProcess}
    {ledger : Ledger} (found : world.process p = .ok process) (foundLater : later.process p = .ok process)
    (listed : ledgers[p]? = some ledger) (sampled : Sampled ledger) : Filed ledger later.blocks process := by
  obtain ⟨before, after, exchange⟩ := exchange
  have mem := World.mem_of_process found
  have mem' := World.mem_of_process foundLater
  exact (kept.filed p process ledger found listed sampled).transport (soundLater.coherent mem')
    (contents_other kept.sound soundLater exchange mem mem') rfl rfl

theorem Kept.replace {world later : World} {ledgers ledgers' : List Ledger} (kept : Kept (world, ledgers))
    (soundLater : Sound later) {p : ProcId} {process process' : MPProcess} (found : world.process p = .ok process)
    (replaces : Replaces world p process' later)
    (exchange : ∃ before after, world.blocks.Exchanges before after later.blocks)
    (length : ledgers'.length = ledgers.length) (others : ∀ q, q ≠ p → ledgers'[q]? = ledgers[q]?)
    (own : ∀ ledger, ledgers'[p]? = some ledger → Sampled ledger → Filed ledger later.blocks process') :
    Kept (later, ledgers') := by
  refine ⟨soundLater, ?_, fun q other ledger foundOther listed sampled => ?_⟩
  · rw [replaces.processes, List.length_set, length]
    exact kept.length
  · by_cases here : q = p
    · subst here
      rw [replaces.found found] at foundOther
      cases foundOther
      exact own ledger listed sampled
    · have before := foundOther
      rw [replaces.other here] at before
      rw [others q here] at listed
      exact kept.other soundLater exchange before foundOther listed sampled

theorem Kept.append {world later : World} {ledgers : List Ledger} (kept : Kept (world, ledgers))
    (soundLater : Sound later) {process' : MPProcess} {ledger' : Ledger}
    (processes : later.processes = world.processes ++ [process'])
    (exchange : ∃ before after, world.blocks.Exchanges before after later.blocks)
    (own : Sampled ledger' → Filed ledger' later.blocks process') : Kept (later, ledgers ++ [ledger']) := by
  have same : ledgers.length = world.processes.length := kept.length
  refine ⟨soundLater, ?_, fun q other ledger found listed sampled => ?_⟩
  · rw [processes, List.length_append, List.length_append, same]
    rfl
  · have foundLater := found
    rw [World.process_eq_ok, processes, List.getElem?_append] at found
    rw [List.getElem?_append, same] at listed
    split at found
    next old =>
      rw [if_pos old] at listed
      exact kept.other soundLater exchange (World.process_eq_ok.mpr found) foundLater listed sampled
    next new =>
      rw [if_neg new] at listed
      obtain ⟨-, rfl⟩ : q - world.processes.length = 0 ∧
          process' = other := by simpa [List.getElem?_singleton] using found
      obtain ⟨-, rfl⟩ : q - world.processes.length = 0 ∧
          ledger' = ledger := by simpa [List.getElem?_singleton] using listed
      exact own sampled

theorem seqnoOf_eq {world : World} {p : ProcId} {process : MPProcess} (found : world.process p = .ok process) :
    seqnoOf world p = process.seqno.toNat := by
  rw [seqnoOf, found]

/-- The ledger of `p` before `f` was applied to it. -/
theorem modified {ledgers : List Ledger} {p : ℕ} {f : Ledger → Ledger} {ledger : Ledger}
    (listed : (ledgers.modify p f)[p]? = some ledger) : ∃ before, ledgers[p]? = some before ∧ ledger = f before := by
  rw [List.getElem?_modify] at listed
  obtain ⟨before, found, same⟩ := Option.map_eq_some_iff.mp listed
  exact ⟨before, found, by simpa using same.symm⟩

theorem modify_other {ledgers : List Ledger} {p q : ℕ} (f : Ledger → Ledger) (other : q ≠ p) :
    (ledgers.modify p f)[q]? = ledgers[q]? := by
  rw [List.getElem?_modify]
  simp [Ne.symm other]

theorem Kept.perform {world later : World} {ledgers : List Ledger} (kept : Kept (world, ledgers))
    {operation : Operation} (performed : perform world operation = .ok later) :
    Kept (later, record world ledgers operation) := by
  have soundLater := perform_sound kept.sound performed
  have positive := soundLater.sharedBlocks.positive
  cases operation with
  | processNew =>
    cases performed
    exact kept.append soundLater rfl ⟨[], [], Store.Exchanges.refl _ _⟩ fun _ => filed_new positive
  | getStackStash p =>
    obtain ⟨⟨later', stash⟩, ran, same⟩ := ok_of_map performed
    cases same
    obtain ⟨process, found, _⟩ := ok_of_bind ran
    obtain ⟨later₁, stash₁, ran₁, replaces, -, blocks, -⟩ := getStackStash_ok kept.sound found
    rw [ran] at ran₁
    cases ran₁
    refine kept.replace soundLater found replaces ⟨[], [], blocks ▸ Store.Exchanges.refl _ _⟩ rfl (fun _ _ => rfl)
      fun ledger listed sampled => ?_
    have coherent := soundLater.coherent (World.mem_of_process (replaces.found found))
    exact (kept.filed p process ledger found listed sampled).transport coherent (by rw [blocks]; rfl) rfl rfl
  | processCommand p info stack =>
    obtain ⟨before, after, exchange⟩ := (Isolation.command_leaves kept.sound performed).exchange
    obtain ⟨process, found, performed⟩ := ok_of_bind performed
    obtain ⟨⟨blocks, process', info'⟩, returned, performed⟩ := ok_of_bind performed
    cases performed
    refine kept.replace soundLater found ⟨rfl, rfl, rfl, rfl⟩ ⟨before, after, exchange⟩ (List.length_modify ..)
      (fun _ other => modify_other _ other) fun ledger listed sampled => ?_
    obtain ⟨ledger₁, listed₁, rfl⟩ := modified listed
    exact (kept.filed p process ledger₁ found listed₁ sampled.of_receive).processCommand sampled returned
  | processClearInput p =>
    obtain ⟨before, after, exchange⟩ := (Isolation.dropBlocks_leaves kept.sound performed).exchange
    obtain ⟨process, found, _⟩ := ok_of_bind performed
    obtain ⟨later', ran, replaces, -⟩ := dropBlocks_ok kept.sound found
    have same : later' = later := Except.ok.inj (ran.symm.trans performed)
    subst same
    refine kept.replace soundLater found replaces ⟨before, after, exchange⟩ (List.length_modify ..)
      (fun _ other => modify_other _ other) fun ledger listed sampled => ?_
    obtain ⟨ledger₁, listed₁, rfl⟩ := modified listed
    rw [seqnoOf_eq found]
    exact (kept.filed p process ledger₁ found listed₁ sampled).dropped positive
  | processExecReset p =>
    obtain ⟨quiet, stopped, _⟩ := ok_of_bind performed
    obtain ⟨process, found, _⟩ := ok_of_bind stopped
    obtain ⟨before, after, exchange⟩ := (Isolation.processReinit_leaves kept.sound found performed).exchange
    obtain ⟨later', ran, replaces, -⟩ := processReinit_ok kept.sound found
    have same : later' = later := Except.ok.inj (ran.symm.trans performed)
    subst same
    have inside : p < ledgers.length :=
      kept.length.symm ▸ (List.getElem?_eq_some_iff.mp (World.process_eq_ok.mp found)).1
    refine kept.replace soundLater found replaces ⟨before, after, exchange⟩ (List.length_set ..)
      (fun _ other => List.getElem?_set_ne (Ne.symm other)) fun ledger listed _ => ?_
    rw [record, List.getElem?_set_self inside] at listed
    cases listed
    exact (filed_new positive).transport (coherent_empty positive) rfl rfl rfl
  | processDuplicate p =>
    obtain ⟨⟨later', q⟩, ran, same⟩ := ok_of_map performed
    cases same
    obtain ⟨process, found, _⟩ := ok_of_bind ran
    obtain ⟨-, exchange⟩ := Isolation.processDuplicate_leaves kept.sound ran
    obtain ⟨later₁, copy, ran₁, processes, -, -, -, table, -⟩ := processDuplicate_ok kept.sound found
    rw [ran] at ran₁
    cases ran₁
    refine kept.append soundLater processes exchange fun sampled => ?_
    have original : ledgers[p]? = some (ledgers[p]?.getD {}) := by
      have inside : p < ledgers.length :=
        kept.length.symm ▸ (List.getElem?_eq_some_iff.mp (World.process_eq_ok.mp found)).1
      simp [inside]
    rw [seqnoOf_eq found] at sampled ⊢
    have coherent := soundLater.coherent (show duplicated p process copy ∈ _ by rw [processes]; simp)
    exact (kept.filed p process _ found original (of_decide_eq_true sampled.1)).duplicated coherent table

theorem observe_kept {operations : List Operation} {reached : World × List Ledger}
    (ran : observe operations = .ok reached) : Kept reached := by
  have ensured : Ensures (fun _ => True) (observe operations) Kept := by
    refine ensures_foldlM (fun state operation _ kept => ?_) kept_start
    apply Ensures.map
    cases performed : perform state.1 operation with
    | error _ => exact ensures_error trivial
    | ok later => exact ensures_ok (kept.perform performed)
  exact ensured.of_ok ran

/-- Every run can be observed. -/
theorem observe_of_run {operations : List Operation} {world : World} (ran : run operations = .ok world) :
    ∃ ledgers, observe operations = .ok (world, ledgers) := by
  induction operations using List.reverseRecOn generalizing world with
  | nil =>
    cases ran
    exact ⟨[], rfl⟩
  | append_singleton operations operation inductionHypothesis =>
    rw [run, foldlM_concat] at ran
    obtain ⟨before, ranBefore, performed⟩ := ok_of_bind ran
    obtain ⟨ledgers, observed⟩ := inductionHypothesis ranBefore
    refine ⟨record before ledgers operation, ?_⟩
    rw [observe] at observed ⊢
    rw [foldlM_concat, observed, ok_bind, performed]
    rfl

/-- A sampled process, at every moment: its counter is the first number that has not
arrived, it counts the samples below since the last clear, and has a block for each; and
what it is given next returns. -/
theorem observe_counts {operations : List Operation} {reached : World × List Ledger}
    (ran : observe operations = .ok reached) {p : ProcId} {process : MPProcess} {ledger : Ledger}
    (found : reached.1.process p = .ok process) (listed : reached.2[p]? = some ledger) (sampled : Sampled ledger) :
    ((∀ n < process.seqno.toNat, ∃ command ∈ ledger.received, number command = n) ∧
      ∀ command ∈ ledger.received, number command ≠ process.seqno.toNat) ∧
    process.nAllocations.toNat = (ledger.samples process.seqno.toNat).length ∧
    process.bytesUsed.toNat = (ledger.samples process.seqno.toNat).length ∧
    (process.held.map fun b => (reached.1.blocks.get b).map fun block => (block.size, block.stack)).Perm
      ((ledger.samples process.seqno.toNat).map fun command => some (1, command.stack)) ∧
    (∀ info stack, Sampled (ledger.receive ⟨info, stack⟩) →
      ∃ later, perform reached.1 (.processCommand p info stack) = .ok later) ∧
    (∃ later, perform reached.1 (.processClearInput p) = .ok later) ∧
    ∃ later, perform reached.1 (.processDuplicate p) = .ok later := by
  have kept := observe_kept ran
  have filed := kept.filed p process ledger found listed sampled
  obtain ⟨number, bytes⟩ := filed.counters sampled (kept.sound.accounts process (World.mem_of_process found))
  refine ⟨⟨filed.passed, filed.settled⟩, number, bytes, filed.held_perm sampled, fun info stack next => ?_, ?_, ?_⟩
  · -- Nothing but samples waits.
    have reports : ∀ other ∈ (⟨info, stack⟩ : Command) :: process.commandQueue, IsReport other.info.operation := by
      intro other mem
      have known : other ∈ (ledger.receive ⟨info, stack⟩).received := by
        rcases List.mem_cons.mp mem with rfl | waits
        · exact List.mem_cons_self
        · exact List.mem_cons_of_mem _ ((filed.listed other).mp waits).1
      rw [(next.2.1 other known).1]
      trivial
    have ensured := @command_ensures _ kept.sound _ _ found (fun _ => False) info stack fun other mem =>
      .inl (reports other mem)
    obtain ⟨later, returned, -⟩ := ensured.exists_ok
    exact ⟨later, returned⟩
  · obtain ⟨later, returned, -⟩ := dropBlocks_ok kept.sound found
    exact ⟨later, returned⟩
  · obtain ⟨later, copy, returned, -⟩ := processDuplicate_ok kept.sound found
    exact ⟨later, by rw [perform, returned]; rfl⟩

/-- Samples in the wrong order, one of them before a clear, and a copy that goes on. -/
theorem observe_counts_copy :
    let operations : List Operation :=
      [.processNew, .processCommand 0 { operation := .time, seqno := 1 } none,
        .processCommand 0 { operation := .time, seqno := 0 } none, .processClearInput 0,
        .processCommand 0 { operation := .time, seqno := 2 } (some ⟨0, 1⟩), .processDuplicate 0,
        .processCommand 1 { operation := .time, seqno := 3 } none]
    ∃ (reached : World × List Ledger) (process : MPProcess) (ledger : Ledger),
      observe operations = .ok reached ∧ reached.1.process 1 = .ok process ∧
      (ledger.samples process.seqno.toNat).length = 2 ∧
      process.nAllocations.toNat = (ledger.samples process.seqno.toNat).length ∧
      process.bytesUsed.toNat = (ledger.samples process.seqno.toNat).length ∧
      (process.held.map fun b => (reached.1.blocks.get b).map fun block => (block.size, block.stack)).Perm
        ((ledger.samples process.seqno.toNat).map fun command => some (1, command.stack)) := by
  intro operations
  obtain ⟨reached, ran, returns⟩ : ∃ reached, observe operations = .ok reached ∧
      ((reached.1.process 1).toOption.any fun process => decide ((reached.2[1]?.any fun ledger =>
        decide (Sampled ledger ∧ (ledger.samples process.seqno.toNat).length = 2)) = true)) = true :=
    exists_ok_of_any (by decide +kernel)
  obtain ⟨process, found, observed⟩ := exists_ok_of_any returns
  obtain ⟨ledger, listed, both⟩ := (Option.any_eq_true _ _).mp observed
  obtain ⟨sampled, two⟩ := of_decide_eq_true both
  obtain ⟨-, number, bytes, blocks, -⟩ := observe_counts ran found listed sampled
  exact ⟨reached, process, ledger, ran, found, two, number, bytes, blocks⟩

end Memprof.Sampling
