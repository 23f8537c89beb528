import Mathlib.Data.Finset.Basic
import Memprof.Sequential
import Memprof.Verified.Calloc
import Memprof.Verified.Dumping
import Memprof.Verified.Nested

/-! # Calls that fail

The report of a `realloc` that has failed reads like that of one that has freed the
block.  The profiler forgets the block, until the program frees it or reallocates it, and
does not find it then.
-/

namespace Memprof.Sequential

open Library Blocks Delivery Isolation Threads Nested Dumping

/-- The blocks whose last `realloc` has failed. -/
def strand (stranded : Finset Addr) : Call → Finset Addr
  | .malloc _ _ | .calloc _ _ _ => stranded
  | .realloc ptr size result =>
    if result = 0 ∧ size ≠ 0 ∧ ptr ≠ 0 then insert ptr stranded else stranded.erase ptr
  | .free ptr => stranded.erase ptr

def stranded (sites : List Site) : Finset Addr := (sites.map Site.call).foldl strand ∅

/-- A call about a block whose last `realloc` has failed. -/
def late (lost : Finset Addr) (site : Site) : List Dump :=
  match site.call with
  | .malloc _ _ | .calloc _ _ _ => []
  | .realloc ptr _ _ | .free ptr => if ptr ∈ lost then [⟨ptr, site.stack⟩] else []

def lateAll (lost : Finset Addr) : List Site → List Dump
  | [] => []
  | site :: sites => late lost site ++ lateAll (strand lost site.call) sites

/-- No size last requested is larger than a `Block` can tell. -/
def Fits (live : Live) : Prop := ∀ address, ∀ size ∈ live address, size < 2 ^ 32

theorem fits_start : Fits fun _ => none := by
  intro address size requested
  cases requested

theorem Fits.obtain {live : Live} (fits : Fits live) {size : ℕ} (small : size < 2 ^ 32) (result : Addr) :
    Fits (live.obtain result size) := by
  intro address other requested
  unfold Live.obtain at requested
  split at requested
  · exact fits address other requested
  by_cases same : address = result
  · rw [same, Function.update_self] at requested
    cases requested
    exact small
  · rw [Function.update_of_ne same] at requested
    exact fits address other requested

theorem Fits.release {live : Live} (fits : Fits live) (ptr : Addr) : Fits (live.release ptr) := by
  intro address other requested
  by_cases same : address = ptr
  · rw [same, Live.release, Function.update_self] at requested
    cases requested
  · rw [Live.release, Function.update_of_ne same] at requested
    exact fits address other requested

/-- A table lists what is allocated, but for the blocks that are lost. -/
structure Tracks (table : Sizes) (live : Live) (lost : Finset Addr) : Prop where
  null : live 0 = none
  allocated : ∀ ptr ∈ lost, live ptr ≠ none
  table : ∀ address, table address = if address ∈ lost then none else (live address).map UInt32.ofNat

namespace Tracks

variable {table : Sizes} {live : Live} {lost : Finset Addr}

theorem fresh (tracks : Tracks table live lost) {ptr : Addr} (free : live ptr = none) : ptr ∉ lost ∧
    table ptr = none := by
  have kept : ptr ∉ lost := fun member => tracks.allocated ptr member free
  refine ⟨kept, ?_⟩
  rw [tracks.table, if_neg kept, free]
  rfl

theorem obtain (tracks : Tracks table live lost) {result : Addr} (free : live result = none) (size : ℕ) :
    Tracks (table.insert result (.ofNat size)) (live.obtain result size) lost := by
  by_cases null : result = 0
  · rw [null, insert_null, Live.obtain, if_pos rfl]
    exact tracks
  obtain ⟨kept, absent⟩ := tracks.fresh free
  rw [Sizes.insert, if_pos ⟨null, absent⟩, Live.obtain, if_neg null]
  constructor
  · rw [Function.update_of_ne (Ne.symm null), tracks.null]
  · intro ptr member
    rw [Function.update_of_ne fun same : ptr = result => kept (same ▸ member)]
    exact tracks.allocated ptr member
  · intro address
    by_cases same : address = result
    · rw [same, Function.update_self, if_neg kept, Function.update_self]
      rfl
    · rw [Function.update_of_ne same, Function.update_of_ne same, tracks.table]

theorem release (tracks : Tracks table live lost) (ptr : Addr) :
    Tracks (table.remove ptr) (live.release ptr) (lost.erase ptr) := by
  have unnamed : table 0 = none := (tracks.fresh tracks.null).2
  constructor
  · by_cases null : (0 : Addr) = ptr
    · rw [Live.release, null, Function.update_self]
    · rw [Live.release, Function.update_of_ne null, tracks.null]
  · intro other member
    obtain ⟨different, member⟩ := Finset.mem_erase.mp member
    rw [Live.release, Function.update_of_ne different]
    exact tracks.allocated other member
  · intro address
    by_cases same : address = ptr
    · have gone : table.remove ptr ptr = none := by
        unfold Sizes.remove
        split
        next null => rw [null, unnamed]
        next => rw [Function.update_self]
      rw [same, gone, Live.release, Function.update_self, if_neg (Finset.notMem_erase ptr lost)]
      rfl
    · have kept : table.remove ptr address = table address := by
        unfold Sizes.remove
        split
        next => rfl
        next => rw [Function.update_of_ne same]
      rw [kept, tracks.table, Live.release, Function.update_of_ne same]
      simp only [Finset.mem_erase, ne_eq, same, not_false_eq_true, true_and]

/-- The block stays where it is, but is taken for released. -/
theorem lose (tracks : Tracks table live lost) {ptr : Addr} (held : live ptr ≠ none) :
    Tracks (table.remove ptr) live (insert ptr lost) := by
  have released := tracks.release ptr
  constructor
  · exact tracks.null
  · intro other member
    rcases Finset.mem_insert.mp member with rfl | member
    · exact held
    · exact tracks.allocated other member
  · intro address
    rw [released.table, Live.release]
    by_cases same : address = ptr
    · simp [same]
    · simp [same]

end Tracks

/-- A `Block` has the low half of the size, which the conversion to `int` has not touched. -/
theorem toUInt32_callocRequest (nmemb size : SizeT .lp64) :
    (UInt64.ofBitVec (callocRequest nmemb size)).toUInt32 = .ofNat (Calloc.product nmemb size) := by
  apply UInt32.toNat_inj.mp
  change (callocRequest nmemb size).toNat % 2 ^ 32 = Calloc.product nmemb size % 2 ^ 32
  rw [Calloc.toNat_callocRequest_lp64]
  split <;> omega

/-- One call and its report. -/
theorem Tracks.step {table : Sizes} {live : Live} {lost : Finset Addr} (tracks : Tracks table live lost) {call : Call}
    (possible : call.Possible live) :
    Tracks (applyReport table call.info) (call.effect live) (strand lost call) := by
  cases call with
  | malloc size result =>
    rw [Call.info, report_malloc]
    exact tracks.obtain possible size.toNat
  | calloc nmemb size result =>
    rw [Call.info, report_malloc, toUInt32_callocRequest]
    exact tracks.obtain possible (nmemb.toNat * size.toNat)
  | realloc ptr size result =>
    obtain ⟨held, answered⟩ := possible
    rw [Call.info, report_realloc, Call.effect, strand]
    by_cases failed : result = 0 ∧ size ≠ 0 ∧ ptr ≠ 0
    · obtain ⟨rfl, nonzero, named⟩ := failed
      rw [if_pos ⟨rfl, nonzero⟩, if_pos ⟨rfl, nonzero, named⟩, insert_null]
      exact tracks.lose (held.resolve_left named)
    rw [if_neg failed]
    by_cases refused : result = 0 ∧ size ≠ 0
    · have unnamed : ptr = 0 := by tauto
      rw [if_pos refused, unnamed, refused.1, remove_null, insert_null, Finset.erase_eq_of_notMem (tracks.fresh tracks.null).1]
      exact tracks
    · rw [if_neg refused]
      refine (tracks.release ptr).obtain ?_ size.toNat
      rcases answered with rfl | free
      · exact Function.update_self result none live
      · by_cases same : result = ptr
        · rw [same, Live.release, Function.update_self]
        · rw [Live.release, Function.update_of_ne same, free]
  | free ptr =>
    rw [Call.info, report_free]
    exact tracks.release ptr

/-- What the program reports is found, but for what is lost. -/
theorem Tracks.missing {table : Sizes} {live : Live} {lost : Finset Addr} (tracks : Tracks table live lost) {site : Site}
    (possible : site.call.Possible live) {command : Command} (oldPtr : command.info.oldPtr = site.call.info.oldPtr)
    (stack : command.stack = site.stack) : Nested.missing table command = late lost site := by
  obtain ⟨unlost, unnamed⟩ := tracks.fresh tracks.null
  have found (ptr : Addr) (held : ptr = 0 ∨ live ptr ≠ none) :
      (if ptr ≠ 0 ∧ table ptr = none then [(⟨ptr, site.stack⟩ : Dump)] else []) =
        if ptr ∈ lost then [⟨ptr, site.stack⟩] else [] := by
    by_cases null : ptr = 0
    · rw [null, if_neg unlost, if_neg fun named => named.1 rfl]
    · have listed : table ptr = none ↔ ptr ∈ lost := by
        rw [tracks.table]
        by_cases member : ptr ∈ lost
        · simp [member]
        · simp [member, held.resolve_left null]
      simp only [ne_eq, null, not_false_eq_true, true_and, listed]
  rw [Nested.missing, oldPtr, stack, late]
  cases call : site.call with
  | malloc _ _ | calloc _ _ _ => exact if_neg fun named => named.1 rfl
  | realloc ptr _ _ =>
    rw [call] at possible
    exact found ptr possible.1
  | free ptr =>
    rw [call] at possible
    exact found ptr possible

/-- What holds after each report: so far all have been sent, in their order. -/
structure Reported (program : Program) (lost : Finset Addr) (dumps : List Dump) : Prop where
  tracks : Tracks ((program.sent.map Command.info).foldl applyReport fun _ => none) program.live lost
  numbered : Successive 0 program.sent
  counted : program.seqno = .ofNat program.sent.length
  allocations : ∀ command ∈ program.sent, IsAllocation command.info
  missing : missingAll (fun _ => none) program.sent = dumps

theorem reported_start : Reported {} ∅ [] where
  tracks := ⟨rfl, by simp, fun _ => rfl⟩
  numbered := trivial
  counted := rfl
  allocations _ member := by cases member
  missing := rfl

theorem Call.allocation (call : Call) : IsAllocation call.info := by
  cases call with
  | malloc _ _ | calloc _ _ _ => exact .inl rfl
  | realloc _ _ _ => exact .inr (.inl rfl)
  | free _ => exact .inr (.inr rfl)

theorem Reported.step {program later : Program} {lost : Finset Addr} {dumps : List Dump}
    (reported : Reported program lost dumps) {site : Site} (made : program.step site = some later) :
    Reported later (strand lost site.call) (dumps ++ late lost site) := by
  unfold Program.step at made
  split at made
  next possible =>
    obtain ⟨info, numbered, made⟩ := Option.bind_eq_some_iff.mp made
    cases made
    have carries : Carries ⟨info, site.stack⟩ site.call.info ∧ info.seqno = program.seqno := by
      unfold numberReport at numbered
      split at numbered <;> cases numbered
      exact ⟨⟨rfl, rfl, rfl, rfl⟩, rfl⟩
    constructor
    · rw [List.map_append, List.foldl_append, List.map_singleton, List.foldl_cons, List.foldl_nil, carries.1.report]
      exact reported.tracks.step possible
    · rw [successive_append, UInt32.zero_add]
      exact ⟨reported.numbered, by rw [carries.2, reported.counted], trivial⟩
    · rw [reported.counted, List.length_append, UInt32.ofNat_add]
      rfl
    · intro command member
      rcases List.mem_append.mp member with before | member
      · exact reported.allocations command before
      · rw [List.mem_singleton.mp member]
        exact carries.1.allocation site.call.allocation
    · rw [missingAll_append, reported.missing, missingAll, missingAll, List.append_nil,
        reported.tracks.missing possible carries.1.2.1 rfl]
  next => cases made

theorem Reported.run {program later : Program} {lost : Finset Addr} {dumps : List Dump}
    (reported : Reported program lost dumps) {sites : List Site} (ran : program.run sites = some later) :
    Reported later ((sites.map Site.call).foldl strand lost) (dumps ++ lateAll lost sites) := by
  induction sites generalizing program lost dumps with
  | nil =>
    cases ran
    rwa [lateAll, List.append_nil]
  | cons site sites inductionHypothesis =>
    obtain ⟨next, made, ran⟩ := Option.bind_eq_some_iff.mp ran
    rw [lateAll, ← List.append_assoc]
    exact inductionHypothesis (reported.step made) ran

/-- The reports are applied and leave a table of what is allocated, in the sizes last
requested, if and only if every block whose `realloc` has failed has since been freed or
reallocated, and the stacks of the calls that came to such a block can be written. -/
theorem table_eq_live_iff {sites : List Site} {program : Program} (ran : Program.run {} sites = some program)
    (fits : Fits program.live) (files : ℕ → Files) (frames : StackPtr → List Addr) (written : MapReader × CString) :
    (∃ blocks process written', feedWriting files frames (({}, {}), written) program.sent =
        .ok ((blocks, process), written') ∧ process.commandQueue = [] ∧
      ∀ address, (sizes blocks process.table address).map UInt32.toNat = program.live address) ↔
    stranded sites = ∅ ∧ ∃ written', writeDumps files frames 0 written (lateAll ∅ sites) = .ok written' := by
  have reported := reported_start.run ran
  have coherent : Coherent ({} : Store Block) ({} : MPProcess).table := coherent_empty fun _ _ live => (nomatch live)
  obtain ⟨blocks, process, fed, idle, _, table, dumps⟩ := feed_sizes coherent rfl reported.numbered reported.allocations
  have start : sizes ({} : Store Block) ({} : MPProcess).table = fun _ => none := rfl
  rw [start] at table dumps
  have tracks : Tracks _ program.live (stranded sites) := reported.tracks
  rw [← table] at tracks
  have recorded : process.dumps.drop ([] : List Dump).length = lateAll ∅ sites := by
    rw [dumps, reported.missing]
    rfl
  constructor
  · rintro ⟨blocks', process', written', fedWriting, _, same⟩
    obtain ⟨fed', wrote⟩ := feedWriting_eq_ok.mp fedWriting
    cases fed.symm.trans fed'
    refine ⟨Finset.eq_empty_of_forall_notMem fun ptr lost => tracks.allocated ptr lost ?_, written', ?_⟩
    · rw [← same, tracks.table, if_pos lost]
      rfl
    · rwa [← recorded]
  · rintro ⟨none, written', wrote⟩
    refine ⟨blocks, process, written', feedWriting_eq_ok.mpr ⟨fed, by rwa [← recorded] at wrote⟩, idle, fun address => ?_⟩
    rw [tracks.table, none, if_neg (Finset.notMem_empty address)]
    cases requested : program.live address with
    | none => rfl
    | some size =>
      rw [Option.map_some, Option.map_some, UInt32.toNat_ofNat', Nat.mod_eq_of_lt (fits address size requested)]

def retrying : List Site :=
  [⟨.malloc 8 16, 1, 3, none⟩, ⟨.calloc 3 4 32, 1, 3, none⟩, ⟨.realloc 16 4096 0, 1, 3, none⟩,
    ⟨.realloc 16 64 48, 1, 3, some ⟨0, 0⟩⟩, ⟨.realloc 32 0 0, 1, 3, none⟩, ⟨.free 0, 1, 3, none⟩]

/-- A block moves after its `realloc` has failed once, and another one is freed by `realloc`. -/
theorem table_eq_live_iff_retried : ∃ program, Program.run {} retrying = some program ∧
    lateAll ∅ retrying = [⟨16, some ⟨0, 0⟩⟩] ∧
    ∃ blocks process written,
      feedWriting (fun _ => blankFiles) framesOnce (({}, {}), {}, []) program.sent =
        .ok ((blocks, process), written) ∧ process.commandQueue = [] ∧
      ∀ address, (sizes blocks process.table address).map UInt32.toNat = program.live address := by
  let program : Program := (Program.run {} retrying).getD {}
  have ran : Program.run {} retrying = some program := rfl
  have fits : Fits program.live :=
    (((((fits_start.obtain (by decide) 16).obtain (by decide) 32).release 16).obtain (by decide) 48).release 32).release 0
  exact ⟨program, ran, by decide, (table_eq_live_iff ran fits (fun _ => blankFiles) framesOnce _).mpr ⟨by decide, _, rfl⟩⟩

/-- A block whose `realloc` fails is forgotten while the program goes on using it. -/
theorem failed_realloc_lost : ¬ ∀ (sites : List Site) (program : Program), Program.run {} sites = some program →
    Fits program.live → ∀ (files : ℕ → Files) (frames : StackPtr → List Addr) (written : MapReader × CString),
      ∃ blocks process written', feedWriting files frames (({}, {}), written) program.sent =
        .ok ((blocks, process), written') ∧ process.commandQueue = [] ∧
      ∀ address, (sizes blocks process.table address).map UInt32.toNat = program.live address := by
  intro claim
  let sites : List Site := [⟨.malloc 8 16, 1, 3, none⟩, ⟨.realloc 16 4096 0, 1, 3, none⟩]
  let program : Program := (Program.run {} sites).getD {}
  have ran : Program.run {} sites = some program := rfl
  have fits : Fits program.live := fits_start.obtain (by decide) 16
  have held := claim sites program ran fits (fun _ => blankFiles) framesOnce ({}, [])
  exact absurd ((table_eq_live_iff ran fits _ _ _).mp held).1 (by decide)

end Memprof.Sequential
