import Mathlib.Data.UInt
import Mathlib.Algebra.BigOperators.Group.List.Basic
import Memprof.Library.Outcome
import Memprof.Process

/-! # What one command does to a block table

`Coherent` is what the table of a process and the allocated blocks have to satisfy for
`process_command` to be defined, `Accounts` is the meaning of the two counters.  The
spec lemmas say, for each operation of `process.c` on one process, that it does not
fault, which references it moves (`Store.Exchanges`), and that both are kept.
-/

namespace Memprof.Blocks

open Library

/-- The block of an entry is there and carries the entry's key. -/
def Keyed (blocks : Store Block) (table : BlockTable) : Prop :=
  ∀ address b, table.lookup address = some b → ∃ block, blocks.get b = some block ∧ block.addr = address

structure Coherent (blocks : Store Block) (table : BlockTable) : Prop where
  positive : blocks.Positive
  keyed : Keyed blocks table
  nonNull : table.lookup 0 = none
  held : ∀ b, (table.values.count b : ℤ) ≤ blocks.refs b

def sizeOf (blocks : Store Block) (b : BlockId) : UInt32 := (blocks.get b).elim 0 Block.size

/-- The counters count the entries and their bytes, modulo the width of a `guint`. -/
structure Accounts (blocks : Store Block) (process : MPProcess) : Prop where
  number : process.nAllocations = UInt32.ofNat process.table.entries.length
  bytes : process.bytesUsed = (process.held.map (sizeOf blocks)).sum

/-- What a table says: the size and the stack of the block at an address. -/
abbrev Contents := Addr → Option (UInt32 × StackPtr)

def contents (blocks : Store Block) (table : BlockTable) : Contents := fun address =>
  (table.lookup address).bind fun b => (blocks.get b).map fun block => (block.size, block.stack)

namespace Contents

def remove (contents : Contents) (oldPtr : Addr) : Contents :=
  if oldPtr = 0 then contents else Function.update contents oldPtr none

def insert (contents : Contents) (newPtr : Addr) (size : UInt32) (stack : StackPtr) : Contents :=
  if newPtr ≠ 0 ∧ contents newPtr = none then Function.update contents newPtr (some (size, stack)) else contents

/-- One report: the old address leaves, the new one enters unless it is there already. -/
def report (contents : Contents) (oldPtr newPtr : Addr) (size : UInt32) (stack : StackPtr) : Contents :=
  (contents.remove oldPtr).insert newPtr size stack

end Contents

theorem refs_pos_of_lookup {blocks : Store Block} {table : BlockTable} (coherent : Coherent blocks table)
    {address : Addr} {b : BlockId} (found : table.lookup address = some b) : 0 < blocks.refs b :=
  Store.refs_pos_of_held coherent.held (HashTable.mem_values_iff.mpr ⟨address, found⟩)

theorem contents_eq_none {blocks : Store Block} {table : BlockTable} (keyed : Keyed blocks table) {address : Addr} :
    contents blocks table address = none ↔ table.lookup address = none := by
  cases found : table.lookup address with
  | none => simp [contents, found]
  | some b =>
    obtain ⟨block, live, _⟩ := keyed address b found
    simp [contents, found, live]

theorem coherent_empty {blocks : Store Block} (positive : blocks.Positive) : Coherent blocks ∅ where
  positive := positive
  keyed _ _ found := by cases found
  nonNull := rfl
  held b := positive.refs_nonneg b

/-- Another holder's entries survive an exchange that leaves their references alone. -/
theorem Keyed.exchange {blocks later : Store Block} {before after : List BlockId} {table : BlockTable}
    (keyed : Keyed blocks table) (exchange : blocks.Exchanges before after later)
    (referenced : ∀ b ∈ table.values, 0 < later.refs b) : Keyed later table := by
  intro address b found
  obtain ⟨block, live, addressed⟩ := keyed address b found
  obtain ⟨n, live'⟩ := exchange.get_eq live (referenced b (HashTable.mem_values_iff.mpr ⟨address, found⟩))
  exact ⟨_, live', addressed⟩

theorem sizeOf_exchange {blocks later : Store Block} {before after : List BlockId} {table : BlockTable}
    (keyed : Keyed blocks table) (exchange : blocks.Exchanges before after later)
    (referenced : ∀ b ∈ table.values, 0 < later.refs b) :
    table.values.map (sizeOf later) = table.values.map (sizeOf blocks) := by
  apply List.map_congr_left
  intro b member
  obtain ⟨address, found⟩ := HashTable.mem_values_iff.mp member
  obtain ⟨block, live, _⟩ := keyed address b found
  obtain ⟨n, live'⟩ := exchange.get_eq live (referenced b member)
  simp [sizeOf, live, live']

/-- Counters stay right under an exchange by another holder. -/
theorem Accounts.exchange {blocks later : Store Block} {before after : List BlockId} {process : MPProcess}
    (accounts : Accounts blocks process) (keyed : Keyed blocks process.table)
    (exchange : blocks.Exchanges before after later)
    (referenced : ∀ b ∈ process.held, 0 < later.refs b) : Accounts later process where
  number := accounts.number
  bytes := by rw [accounts.bytes, MPProcess.held, sizeOf_exchange keyed exchange referenced]

/-- A step of one process, seen from outside: it leaves the references it moves to
others alone, so what it had of its own stays coherent and counted. -/
structure Step (blocks : Store Block) (process : MPProcess) (blocks' : Store Block) (process' : MPProcess) :
    Prop where
  exchange : blocks.Exchanges process.held process'.held blocks'
  coherent : Coherent blocks' process'.table
  accounts : Accounts blocks process → Accounts blocks' process'

theorem Step.trans {blocks blocks' blocks'' : Store Block} {process process' process'' : MPProcess}
    (left : Step blocks process blocks' process') (right : Step blocks' process' blocks'' process'') :
    Step blocks process blocks'' process'' :=
  ⟨left.exchange.trans right.exchange, right.coherent, right.accounts ∘ left.accounts⟩

/-- Only the table and the counters matter. -/
theorem Step.of_same {blocks : Store Block} {process process' : MPProcess}
    (coherent : Coherent blocks process.table) (table : process'.table = process.table)
    (number : process'.nAllocations = process.nAllocations) (bytes : process'.bytesUsed = process.bytesUsed) :
    Step blocks process blocks process' where
  exchange := by
    rw [MPProcess.held, MPProcess.held, table]
    exact Store.Exchanges.refl _ _
  coherent := table ▸ coherent
  accounts accounts := by
    refine ⟨?_, ?_⟩
    · rw [number, table]; exact accounts.number
    · rw [bytes, MPProcess.held, table]; exact accounts.bytes

/-- An entry whose block survives keeps what it says. -/
theorem contents_exchange {blocks later : Store Block} {before after : List BlockId} {table : BlockTable}
    (keyed : Keyed blocks table) (exchange : blocks.Exchanges before after later)
    (referenced : ∀ b ∈ table.values, 0 < later.refs b) : contents later table = contents blocks table := by
  funext address
  cases found : table.lookup address with
  | none => simp [contents, found]
  | some b =>
    obtain ⟨block, live, _⟩ := keyed address b found
    obtain ⟨n, live'⟩ := exchange.get_eq live (referenced b (HashTable.mem_values_iff.mpr ⟨address, found⟩))
    simp [contents, found, live, live']

theorem Coherent.exchange {blocks later : Store Block} {table table' : BlockTable} (coherent : Coherent blocks table)
    (exchange : blocks.Exchanges table.values table'.values later) (keyed : Keyed later table')
    (nonNull : table'.lookup 0 = none) : Coherent later table' where
  positive := exchange.positive coherent.positive
  keyed := keyed
  nonNull := nonNull
  held := exchange.held coherent.held

theorem values_erase_perm {table : BlockTable} {address : Addr} {b : BlockId}
    (found : table.lookup address = some b) : table.values.Perm (b :: HashTable.values (table.erase address)) :=
  (HashTable.entries_erase_perm found).map _

theorem removeOld_spec {blocks : Store Block} {process : MPProcess} (coherent : Coherent blocks process.table)
    (oldPtr : Addr) (stack : StackPtr) :
    ∃ blocks' process', removeOld blocks process oldPtr stack = .ok (blocks', process') ∧
      Step blocks process blocks' process' ∧
      contents blocks' process'.table = (contents blocks process.table).remove oldPtr := by
  unfold removeOld
  by_cases null : oldPtr = 0
  · refine ⟨blocks, process, if_neg (not_not.mpr null), Step.of_same coherent rfl rfl rfl, ?_⟩
    rw [Contents.remove, if_pos null]
  rw [if_pos null]
  cases found : process.table.lookup oldPtr with
  | none =>
    refine ⟨blocks, _, rfl, Step.of_same coherent rfl rfl rfl, ?_⟩
    show contents blocks process.table = _
    rw [Contents.remove, if_neg null, Function.update_eq_self_iff.mpr]
    exact ((contents_eq_none coherent.keyed).mpr found).symm
  | some b =>
    obtain ⟨block, live, _⟩ := coherent.keyed oldPtr b found
    -- the entry leaves the table with the one reference it held; every other entry keeps its block
    obtain ⟨blocks', released, exchange⟩ := Store.release_exchanges (refs_pos_of_lookup coherent found)
      coherent.positive (HashTable.values (process.table.erase oldPtr))
    have perm := values_erase_perm found
    have exchanged := exchange.of_perm perm.symm (List.Perm.refl _)
    have referenced : ∀ c ∈ HashTable.values (process.table.erase oldPtr), 0 < blocks'.refs c :=
      fun c => Store.refs_pos_of_held (exchanged.held coherent.held)
    have keyed : Keyed blocks (process.table.erase oldPtr) := by
      intro address c kept
      by_cases same : address = oldPtr
      · rw [same, AList.lookup_erase] at kept; cases kept
      · rw [AList.lookup_erase_ne same] at kept; exact coherent.keyed address c kept
    refine ⟨blocks', { process with
        blockTable := some (process.table.erase oldPtr)
        bytesUsed := process.bytesUsed - block.size
        nAllocations := process.nAllocations - 1 }, ?_, ⟨exchanged, ?_, ?_⟩, ?_⟩
    · simp only [live, blockUnref, released]; rfl
    · refine coherent.exchange exchanged (keyed.exchange exchange referenced) ?_
      show (process.table.erase oldPtr).lookup 0 = none
      rw [AList.lookup_erase_ne (Ne.symm null)]; exact coherent.nonNull
    -- the block's own size is what the code subtracts, so the sum over the table loses exactly its term
    · intro accounts
      have size : sizeOf blocks b = block.size := by simp [sizeOf, live]
      refine ⟨?_, ?_⟩
      · show process.nAllocations - 1 = UInt32.ofNat (process.table.erase oldPtr).entries.length
        rw [accounts.number, (HashTable.entries_erase_perm found).length_eq, List.length_cons, UInt32.ofNat_add]
        exact UInt32.add_sub_cancel _ _
      · show process.bytesUsed - block.size = ((HashTable.values (process.table.erase oldPtr)).map (sizeOf blocks')).sum
        rw [sizeOf_exchange keyed exchange referenced, accounts.bytes, MPProcess.held, (perm.map _).sum_eq,
          List.map_cons, List.sum_cons, size, UInt32.add_comm, UInt32.add_sub_cancel]
    · show contents blocks' (process.table.erase oldPtr) = _
      rw [contents_exchange keyed exchange referenced, Contents.remove, if_neg null]
      funext address
      by_cases same : address = oldPtr
      · rw [same, Function.update_self, contents, AList.lookup_erase]; rfl
      · rw [Function.update_of_ne same, contents, contents, AList.lookup_erase_ne same]

theorem insertNew_spec {blocks : Store Block} {process : MPProcess} (coherent : Coherent blocks process.table)
    (info : MIInfo) (stack : StackPtr) :
    Step blocks process (insertNew blocks process info stack).1 (insertNew blocks process info stack).2 ∧
      contents (insertNew blocks process info stack).1 (insertNew blocks process info stack).2.table =
        (contents blocks process.table).insert info.newPtr info.size.toUInt32 stack := by
  unfold insertNew Contents.insert
  by_cases fresh : info.newPtr ≠ 0 ∧ process.table.lookup info.newPtr = none
  · rw [if_pos fresh, if_pos (by rwa [contents_eq_none coherent.keyed])]
    have exchange : blocks.Exchanges process.table.values (blocks.size :: process.table.values)
        (blocks.alloc { addr := info.newPtr, size := info.size.toUInt32, stack := stack }).1 :=
      Store.exchanges_alloc blocks process.table.values rfl
    have values : HashTable.values (process.table.insert info.newPtr blocks.size) =
        blocks.size :: process.table.values := by
      rw [HashTable.values, HashTable.entries_insert_of_lookup fresh.2]; rfl
    -- the new block's index is past the end of the store, so no entry of the table is it
    have old : ∀ b ∈ process.table.values, b ≠ blocks.size := by
      intro b member same
      obtain ⟨address, found⟩ := HashTable.mem_values_iff.mp member
      obtain ⟨block, live, _⟩ := coherent.keyed address b found
      exact absurd (Store.lt_size_of_get live) (by simp [same])
    have referenced : ∀ b ∈ process.table.values, 0 < (blocks.alloc
        ({ addr := info.newPtr, size := info.size.toUInt32, stack := stack } : Block)).1.refs b := by
      intro b member
      rw [Store.refs_alloc, if_neg (old b member)]
      exact Store.refs_pos_of_held coherent.held member
    have allocated := Store.get_alloc blocks
      ({ addr := info.newPtr, size := info.size.toUInt32, stack := stack } : Block) blocks.size
    rw [if_pos rfl] at allocated
    refine ⟨⟨?_, ?_, ?_⟩, ?_⟩
    · show Store.Exchanges _ process.table.values (HashTable.values (process.table.insert info.newPtr blocks.size)) _
      rw [values]; exact exchange
    · show Coherent _ (process.table.insert info.newPtr blocks.size)
      refine coherent.exchange (by rw [values]; exact exchange) ?_ ?_
      · intro address b found
        by_cases same : address = info.newPtr
        · subst same
          rw [AList.lookup_insert] at found
          cases found
          exact ⟨_, allocated, rfl⟩
        · rw [AList.lookup_insert_ne same] at found
          exact coherent.keyed.exchange exchange referenced address b found
      · rw [AList.lookup_insert_ne (Ne.symm fresh.1)]; exact coherent.nonNull
    · intro accounts
      refine ⟨?_, ?_⟩
      · show process.nAllocations + 1 = UInt32.ofNat (process.table.insert info.newPtr blocks.size).entries.length
        rw [HashTable.entries_insert_of_lookup fresh.2, List.length_cons, UInt32.ofNat_add, accounts.number]
        rfl
      · show process.bytesUsed + info.size.toUInt32 =
          (List.map _ (HashTable.values (process.table.insert info.newPtr blocks.size))).sum
        rw [values, List.map_cons, List.sum_cons, sizeOf_exchange coherent.keyed exchange referenced,
          accounts.bytes, UInt32.add_comm]
        simp [sizeOf, allocated, MPProcess.held]
    · show contents _ (process.table.insert info.newPtr blocks.size) = _
      funext address
      by_cases same : address = info.newPtr
      · subst same
        simp [contents, allocated]
      · have kept := congrFun (contents_exchange coherent.keyed exchange referenced) address
        simp only [contents] at kept ⊢
        rw [AList.lookup_insert_ne same, Function.update_of_ne same]
        exact kept
  -- a NULL or an address that is listed already: the source drops the report
  · rw [if_neg fresh, if_neg (by rwa [contents_eq_none coherent.keyed])]
    exact ⟨Step.of_same coherent rfl rfl rfl, rfl⟩

/-! ## The command that is due -/

/-- The operations that arrive on a connection that is already registered. -/
def IsReport : MIOperation → Prop
  | .new | .fork | .clone | .exec => False
  | .malloc | .realloc | .free | .time | .exit | .other _ _ => True

/-- The effect of a due command on what the table says; `seqno` is the one after it. -/
def Contents.apply (contents : Contents) (seqno : UInt32) (info : MIInfo) (stack : StackPtr) : Contents :=
  match info.operation with
  | .exit => contents
  | .time => contents.report 0 seqno.toUInt64 1 stack
  | _ => contents.report info.oldPtr info.newPtr info.size.toUInt32 stack

/-- Commands applied one after the other, the first of them when the process is at `seqno`. -/
def Contents.applyAll (contents : Contents) (seqno : UInt32) : List Command → Contents
  | [] => contents
  | command :: commands =>
    (contents.apply (seqno + 1) command.info command.stack).applyAll (seqno + 1) commands

/-- Commands change nothing else of a process. -/
def SameElse (process process' : MPProcess) : Prop :=
  process' = { process with
    seqno := process'.seqno
    bytesUsed := process'.bytesUsed
    nAllocations := process'.nAllocations
    blockTable := process'.blockTable
    commandQueue := process'.commandQueue
    dumps := process'.dumps }

theorem SameElse.refl (process : MPProcess) : SameElse process process := rfl

theorem SameElse.trans {first second third : MPProcess} (left : SameElse first second) (right : SameElse second third) :
    SameElse first third := by
  unfold SameElse at left right ⊢
  rw [left] at right
  exact right

theorem SameElse.stackStash {process process' : MPProcess} (same : SameElse process process') :
    process'.stackStash = process.stackStash := by rw [same]

theorem removeOld_sameElse {blocks blocks' : Store Block} {process process' : MPProcess} {oldPtr : Addr} {stack : StackPtr}
    (removed : removeOld blocks process oldPtr stack = .ok (blocks', process')) :
    SameElse process process' ∧ process'.seqno = process.seqno := by
  unfold removeOld at removed
  split at removed
  · split at removed
    · cases removed; exact ⟨rfl, rfl⟩
    · split at removed
      · cases removed
      · cases unreferenced : blockUnref blocks _ with
        | error _ => rw [unreferenced] at removed; cases removed
        | ok _ => rw [unreferenced] at removed; cases removed; exact ⟨rfl, rfl⟩
  · cases removed; exact ⟨rfl, rfl⟩

theorem insertNew_sameElse (blocks : Store Block) (process : MPProcess) (info : MIInfo) (stack : StackPtr) :
    SameElse process (insertNew blocks process info stack).2 ∧
      (insertNew blocks process info stack).2.seqno = process.seqno := by
  unfold insertNew
  split <;> exact ⟨rfl, rfl⟩

theorem reportBlock_spec {blocks : Store Block} {process : MPProcess} (coherent : Coherent blocks process.table)
    (info : MIInfo) (stack : StackPtr) :
    ∃ blocks' process', reportBlock blocks process info stack = .ok (blocks', process', info) ∧
      Step blocks process blocks' process' ∧ SameElse process process' ∧ process'.seqno = process.seqno ∧
      contents blocks' process'.table =
        (contents blocks process.table).report info.oldPtr info.newPtr info.size.toUInt32 stack := by
  have made : Step blocks process blocks (getBlockTable process) := Step.of_same coherent rfl rfl rfl
  obtain ⟨blocks₁, process₁, removed, step₁, contents₁⟩ := removeOld_spec made.coherent info.oldPtr stack
  obtain ⟨step₂, contents₂⟩ := insertNew_spec step₁.coherent info stack
  obtain ⟨same₁, seqno₁⟩ := removeOld_sameElse removed
  obtain ⟨same₂, seqno₂⟩ := insertNew_sameElse blocks₁ process₁ info stack
  refine ⟨(insertNew blocks₁ process₁ info stack).1, (insertNew blocks₁ process₁ info stack).2, ?_, ?_, ?_,
    seqno₂.trans seqno₁, ?_⟩
  · simp only [reportBlock, removed]; rfl
  · exact made.trans (step₁.trans step₂)
  · have madeSame : SameElse process (getBlockTable process) := rfl
    exact madeSame.trans (same₁.trans same₂)
  · rw [contents₂, contents₁]; rfl

theorem applyCommand_spec {blocks : Store Block} {process : MPProcess} (coherent : Coherent blocks process.table)
    {info : MIInfo} (reported : IsReport info.operation) (stack : StackPtr) :
    ∃ blocks' process' info', applyCommand blocks process info stack = .ok (blocks', process', info') ∧
      Step blocks process blocks' process' ∧ SameElse process process' ∧ process'.seqno = process.seqno + 1 ∧
      contents blocks' process'.table =
        (contents blocks process.table).apply process'.seqno info stack := by
  have numbered : Step blocks process blocks { process with seqno := process.seqno + 1 } :=
    Step.of_same coherent rfl rfl rfl
  have numberedSame : SameElse process { process with seqno := process.seqno + 1 } := rfl
  -- every report shares this step; only the info passed to it differs
  have report : ∀ info : MIInfo, ∃ blocks' process', reportBlock blocks
      { process with seqno := process.seqno + 1 } info stack = .ok (blocks', process', info) ∧
      Step blocks process blocks' process' ∧ SameElse process process' ∧ process'.seqno = process.seqno + 1 ∧
      contents blocks' process'.table =
        (contents blocks process.table).report info.oldPtr info.newPtr info.size.toUInt32 stack := by
    intro info
    obtain ⟨blocks', process', ran, step, same, seqno, table⟩ :=
      reportBlock_spec numbered.coherent info stack
    exact ⟨blocks', process', ran, numbered.trans step, numberedSame.trans same, seqno, table⟩
  unfold applyCommand Contents.apply
  cases operation : info.operation with
  | new | fork | clone | exec => rw [operation] at reported; exact reported.elim
  | exit => exact ⟨_, _, _, rfl, numbered, rfl, rfl, rfl⟩
  | time =>
    -- a time mark is stored as a block of size one at the counter's value
    obtain ⟨blocks', process', ran, step, same, seqno, table⟩ :=
      report { info with oldPtr := 0, newPtr := (process.seqno + 1).toUInt64, size := 1 }
    rw [operation] at ran
    exact ⟨blocks', process', _, ran, step, same, seqno, by rw [table, seqno]; rfl⟩
  | malloc | realloc | free | other _ _ =>
    obtain ⟨blocks', process', ran, step, same, seqno, table⟩ := report info
    exact ⟨blocks', process', _, ran, step, same, seqno, table⟩

/-! ## Blocks that are not found -/

/-- What a report of `oldPtr` has written of its stack. -/
def Contents.missing (contents : Contents) (oldPtr : Addr) (stack : StackPtr) : List Dump :=
  if oldPtr ≠ 0 ∧ contents oldPtr = none then [⟨oldPtr, stack⟩] else []

def Contents.dumps (contents : Contents) (info : MIInfo) (stack : StackPtr) : List Dump :=
  match info.operation with
  | .exit | .time => []
  | _ => contents.missing info.oldPtr stack

/-- Those of commands applied one after the other, as in `applyAll`. -/
def Contents.dumpsAll (contents : Contents) (seqno : UInt32) : List Command → List Dump
  | [] => []
  | command :: commands =>
    contents.dumps command.info command.stack ++
      (contents.apply (seqno + 1) command.info command.stack).dumpsAll (seqno + 1) commands

theorem removeOld_dumps {blocks blocks' : Store Block} {process process' : MPProcess}
    (keyed : Keyed blocks process.table) {oldPtr : Addr} {stack : StackPtr}
    (removed : removeOld blocks process oldPtr stack = .ok (blocks', process')) :
    process'.dumps = process.dumps ++ (contents blocks process.table).missing oldPtr stack := by
  unfold removeOld at removed
  rw [Contents.missing]
  split at removed
  next named =>
    split at removed
    next unlisted =>
      cases removed
      rw [if_pos ⟨named, (contents_eq_none keyed).mpr unlisted⟩]
    next b listed =>
      have known : ¬ (oldPtr ≠ 0 ∧ contents blocks process.table oldPtr = none) := by
        rintro ⟨_, unlisted⟩
        rw [contents_eq_none keyed, listed] at unlisted
        cases unlisted
      rw [if_neg known, List.append_nil]
      split at removed
      next => cases removed
      next =>
        obtain ⟨_, _, removed⟩ := ok_of_bind removed
        cases removed
        rfl
  next unnamed =>
    cases removed
    rw [if_neg fun missing => unnamed missing.1, List.append_nil]

theorem insertNew_dumps (blocks : Store Block) (process : MPProcess) (info : MIInfo) (stack : StackPtr) :
    (insertNew blocks process info stack).2.dumps = process.dumps := by
  unfold insertNew
  split <;> rfl

theorem reportBlock_dumps {blocks blocks' : Store Block} {process process' : MPProcess}
    (keyed : Keyed blocks process.table) {info info' : MIInfo} {stack : StackPtr}
    (reported : reportBlock blocks process info stack = .ok (blocks', process', info')) :
    process'.dumps = process.dumps ++ (contents blocks process.table).missing info.oldPtr stack := by
  obtain ⟨⟨after, removed⟩, ran, reported⟩ := ok_of_bind reported
  cases reported
  have made : Keyed blocks (getBlockTable process).table := keyed
  exact (insertNew_dumps after removed info stack).trans (removeOld_dumps made ran)

theorem applyCommand_dumps {blocks blocks' : Store Block} {process process' : MPProcess}
    (keyed : Keyed blocks process.table) {info info' : MIInfo} {stack : StackPtr}
    (applied : applyCommand blocks process info stack = .ok (blocks', process', info')) :
    process'.dumps = process.dumps ++ (contents blocks process.table).dumps info stack := by
  have numbered : Keyed blocks { process with seqno := process.seqno + 1 }.table := keyed
  unfold applyCommand at applied
  rw [Contents.dumps]
  cases operation : info.operation with
  | new | fork | clone | exec => rw [operation] at applied; cases applied
  | exit =>
    rw [operation] at applied
    cases applied
    exact (List.append_nil _).symm
  | time =>
    -- A sample has no `old_ptr`.
    rw [operation] at applied
    exact reportBlock_dumps numbered applied
  | malloc | realloc | free | other _ _ =>
    rw [operation] at applied
    exact reportBlock_dumps numbered applied

end Memprof.Blocks
