import Memprof.Verified.Locating
import Memprof.Verified.MapsFile

/-! # Mappings that are looked up before they are there

`locate_map` keeps a page in which it found nothing for bad, and does not look at the file
again for an address in it.  A mapping that comes to lie there later is found only if the maps
have been read since for the sake of another page.
-/

namespace Memprof.Lookups

open Library MapsFile

/-! ## Runs -/

/-- The file lists an executable mapping that contains the address. -/
def Listed (contents : MapsContents) (addr : Addr) : Prop :=
  ∃ line ∈ contents.lines, line.Executable ∧ .ofNat line.start.value ≤ addr ∧ addr < .ofNat line.end_.value

/-- A call of `locate_map`, and what the files are by then. -/
structure Call where
  files : Files
  contents : MapsContents
  addr : Addr

def Call.Listed (call : Call) : Prop := Lookups.Listed call.contents call.addr

/-- The files with the lines that `fgets` makes of `/proc/PID/maps`. -/
def Call.kernel (call : Call) : Files := { call.files with maps := some (buffers call.contents) }

def pageOf (addr : Addr) : Addr := addr - addr % mpPageSize

/-- A call that has returned, and the caches before it. -/
structure Step where
  before : MapCache
  call : Call
  located : Option ObjectMap

/-- One call after the other, while each of them returns. -/
def runCalls : MapCache → List Call → Except Fault (List Step)
  | _, [] => .ok []
  | cache, call :: calls => do
    let (after, located) ← locateMap call.kernel cache call.addr
    let steps ← runCalls after calls
    .ok (⟨cache, call, located⟩ :: steps)

/-- What is listed is found. -/
def Step.Found (step : Step) : Prop :=
  step.call.Listed → ∃ map, step.located = some map ∧ map.addr ≤ step.call.addr ∧ step.call.addr < map.addr + map.size

/-- No map that has been read contains the address, and the file is not read again: its page
is in `bad_pages`. -/
def Step.Stale (step : Step) : Prop :=
  realLocateMap step.before.mapList step.call.addr = none ∧ pageOf step.call.addr ∈ step.before.badPages

/-- The histories that are meant: executable mappings are page aligned and only added. -/
structure Growing (calls : List Call) : Prop where
  aligned : ∀ call ∈ calls, ∀ line ∈ call.contents.lines, line.Executable →
    line.start.value % mpPageSize.toNat = 0 ∧ line.end_.value % mpPageSize.toNat = 0
  added : calls.Pairwise fun earlier later => ∀ addr, Listed earlier.contents addr → Listed later.contents addr

/-- No page is asked for before a mapping is there that contains what is asked for in it later. -/
def MappedFirst (calls : List Call) : Prop :=
  calls.Pairwise fun earlier later => pageOf earlier.addr = pageOf later.addr → later.Listed → earlier.Listed

/-! ## One call -/

variable {call : Call} {cache after : MapCache} {located : Option ObjectMap}

theorem contains_of_realLocateMap {mapList : List ObjectMap} {addr : Addr} {i : ℕ} {map : ObjectMap}
    (inside : realLocateMap mapList addr = some i) (held : mapList[i]? = some map) :
    map.addr ≤ addr ∧ addr < map.addr + map.size := by
  obtain ⟨within, contains, _⟩ := List.findIdx?_eq_some_iff_getElem.mp inside
  obtain ⟨_, rfl⟩ := List.getElem?_eq_some_iff.mp held
  exact of_decide_eq_true contains

/-- What is listed is in the maps that are read. -/
theorem realLocateMap_of_listed {mapList : List ObjectMap} (listed : call.Listed)
    (read : processReadMaps call.kernel = .ok mapList) : realLocateMap mapList call.addr ≠ none := by
  obtain ⟨line, member, executable, above, below⟩ := listed
  have first : firstMap call.kernel line ∈ mapList := by
    have folded : mapList = (buffers call.contents).reverse.flatMap (processReadMap call.kernel []) ++ [] := by
      rw [← foldl_processReadMap]
      exact (Except.ok.inj read).symm
    have made := processReadMap_first call.kernel line
    rw [if_pos executable] at made
    rw [folded, List.append_nil, List.mem_flatMap]
    refine ⟨line.chars.take 1022, List.mem_reverse.mpr ?_, by rw [made]; simp⟩
    exact List.mem_flatMap.mpr ⟨line, member, by simp⟩
  intro missed
  have outside := List.findIdx?_eq_none_iff.mp missed _ first
  have whole : (firstMap call.kernel line).addr + (firstMap call.kernel line).size = .ofNat line.end_.value := by
    rw [UInt64.add_comm]
    exact UInt64.sub_add_cancel _ _
  have inside : (firstMap call.kernel line).addr ≤ call.addr ∧
      call.addr < (firstMap call.kernel line).addr + (firstMap call.kernel line).size := by
    rw [whole]
    exact ⟨above, below⟩
  exact absurd (decide_eq_true inside) (by rw [outside]; decide)

/-- A call that is not stale finds what is listed. -/
theorem found_of_not_stale (returned : locateMap call.kernel cache call.addr = .ok (after, located))
    (fresh : ¬ (Step.mk cache call located).Stale) : (Step.mk cache call located).Found := by
  intro listed
  obtain ⟨mapList, read, outcome⟩ := Locating.locateMap_ok returned
  rcases outcome with ⟨outside, _, _⟩ | ⟨i, map, map', inside, held, prepared, rfl, _⟩
  · split at read
    next => exact absurd outside (realLocateMap_of_listed listed read)
    next known =>
      subst read
      exact absurd ⟨outside, not_not.mp fun good => known ⟨outside, good⟩⟩ fresh
  · refine ⟨map', rfl, ?_⟩
    rw [(Locating.prepared_ok prepared).1]
    exact contains_of_realLocateMap inside held

/-- A stale call finds nothing. -/
theorem not_found_of_stale (returned : locateMap call.kernel cache call.addr = .ok (after, located))
    (stale : (Step.mk cache call located).Stale) : located = none := by
  obtain ⟨outside, bad⟩ := stale
  obtain ⟨mapList, read, outcome⟩ := Locating.locateMap_ok returned
  rw [if_neg fun rereads => rereads.2 bad] at read
  subst read
  rcases outcome with ⟨_, nothing, _⟩ | ⟨i, _, _, inside, _, _, _, _⟩
  · exact nothing
  · cases outside.symm.trans inside

theorem prepareFound_badPages {files : Files} {i : ℕ} (found : prepareFound files cache i = .ok (after, located)) :
    after.badPages = cache.badPages := by
  unfold prepareFound at found
  split at found
  next => cases found
  next =>
    split at found
    next =>
      cases found
      rfl
    next =>
      obtain ⟨_, _, found⟩ := ok_of_bind found
      cases found
      rfl

/-- A page that becomes bad has just been asked for, and what was asked for was not listed. -/
theorem badPages_ok (returned : locateMap call.kernel cache call.addr = .ok (after, located)) {page : Addr}
    (bad : page ∈ after.badPages) : page ∈ cache.badPages ∨ page = pageOf call.addr ∧ ¬ call.Listed := by
  unfold locateMap at returned
  split at returned
  next => exact .inl (prepareFound_badPages returned ▸ bad)
  next =>
    dsimp only at returned
    split at returned
    next =>
      cases returned
      exact .inl bad
    next =>
      obtain ⟨mapList, read, returned⟩ := ok_of_bind returned
      split at returned
      next => exact .inl (prepareFound_badPages returned ▸ bad)
      next missed =>
        cases returned
        rcases List.mem_cons.mp bad with same | earlier
        · exact .inr ⟨same, fun listed => realLocateMap_of_listed listed read missed⟩
        · exact .inl earlier

/-! ## All of the calls -/

theorem runCalls_cons {calls : List Call} {steps : List Step} (ran : runCalls cache (call :: calls) = .ok steps) :
    ∃ after located others, locateMap call.kernel cache call.addr = .ok (after, located) ∧
      runCalls after calls = .ok others ∧ steps = ⟨cache, call, located⟩ :: others := by
  rw [runCalls] at ran
  obtain ⟨⟨after, located⟩, returned, ran⟩ := ok_of_bind ran
  obtain ⟨others, rest, ran⟩ := ok_of_bind ran
  cases ran
  exact ⟨after, located, others, returned, rest, rfl⟩

theorem step_returned {calls : List Call} {cache : MapCache} {steps : List Step}
    (ran : runCalls cache calls = .ok steps) :
    ∀ step ∈ steps, ∃ after, locateMap step.call.kernel step.before step.call.addr = .ok (after, step.located) := by
  induction calls generalizing cache steps with
  | nil =>
    cases ran
    simp
  | cons call calls inductionHypothesis =>
    obtain ⟨after, located, others, returned, rest, rfl⟩ := runCalls_cons ran
    intro step member
    rcases List.mem_cons.mp member with rfl | later
    · exact ⟨after, returned⟩
    · exact inductionHypothesis rest step later

/-- No page of a call to come is bad while what the call asks for is listed by then. -/
theorem fresh_of_mappedFirst {calls : List Call} {cache : MapCache} {steps : List Step}
    (ran : runCalls cache calls = .ok steps) (mapped : MappedFirst calls)
    (good : ∀ call ∈ calls, call.Listed → pageOf call.addr ∉ cache.badPages) :
    ∀ step ∈ steps, step.call.Listed → pageOf step.call.addr ∉ step.before.badPages := by
  induction calls generalizing cache steps with
  | nil =>
    cases ran
    simp
  | cons call calls inductionHypothesis =>
    obtain ⟨after, located, others, returned, rest, rfl⟩ := runCalls_cons ran
    obtain ⟨first, mappedRest⟩ := List.pairwise_cons.mp mapped
    intro step member
    rcases List.mem_cons.mp member with rfl | later
    · exact good call (by simp)
    · refine inductionHypothesis rest mappedRest ?_ step later
      intro other isOther listed bad
      rcases badPages_ok returned bad with earlier | ⟨same, unlisted⟩
      · exact good other (by simp [isOther]) listed earlier
      · exact unlisted (first other isOther same.symm listed)

/-- In every run: what is listed is found in each call exactly if no call for something listed
is stale, and none is if every page has its mapping before it is asked for. -/
theorem listed_found_iff {calls : List Call} {steps : List Step} (ran : runCalls {} calls = .ok steps) :
    ((∀ step ∈ steps, step.Found) ↔ ∀ step ∈ steps, step.call.Listed → ¬ step.Stale) ∧
      (MappedFirst calls → ∀ step ∈ steps, step.Found) := by
  have exact : (∀ step ∈ steps, step.Found) ↔ ∀ step ∈ steps, step.call.Listed → ¬ step.Stale := by
    constructor
    · intro found step member listed stale
      obtain ⟨after, returned⟩ := step_returned ran step member
      obtain ⟨map, located, _⟩ := found step member listed
      cases located.symm.trans (not_found_of_stale returned stale)
    · intro fresh step member listed
      obtain ⟨after, returned⟩ := step_returned ran step member
      exact found_of_not_stale returned (fresh step member listed) listed
  refine ⟨exact, fun mapped => exact.mpr fun step member listed stale => ?_⟩
  exact fresh_of_mappedFirst ran mapped (fun _ _ _ => List.not_mem_nil) step member listed stale.2

/-! ## Two lookups of one page -/

/-- `00400000-0040b000 r-xp 00000000 08:01 42` -/
def textLine : KernelLine where
  toMapsLine := { spacedLine.toMapsLine with path := none }
  short := spacedLine.short
  begins := nofun

/-- The page at `0x400000`, with the mapping or before it is there. -/
def asked (lines : List KernelLine)
    (ascending : lines.Pairwise fun line line' => line.start.value < line'.start.value) :
    Call := ⟨noFiles, ⟨lines, ascending⟩, 0x400000⟩

def askedEarly : Call := asked [] List.Pairwise.nil

def askedLate : Call := asked [textLine] (List.pairwise_singleton _ _)

theorem listed_late : askedLate.Listed := ⟨textLine, by simp [askedLate, asked], by decide, by decide, by decide⟩

/-- `00600000-0060b000 r-xp 00000000 08:01 42` -/
def addedLine : KernelLine where
  toMapsLine := { textLine.toMapsLine with
    start := MapsFormat.higherLine.start
    end_ := MapsFormat.higherLine.end_ }
  short := by decide
  begins := nofun

/-- One mapping is found, then an address outside of all, and then in a mapping that has been
added in the meantime. -/
def askedBetween : List Call :=
  [askedLate, { askedLate with addr := 0x800000 },
    ⟨noFiles, ⟨[textLine, addedLine], List.pairwise_pair.mpr (by decide)⟩, 0x600000⟩]

theorem listed_found_iff_late : ∃ steps, runCalls {} askedBetween = .ok steps ∧
    steps.map (fun step => step.located.map fun map => map.addr) = [some 0x400000, none, some 0x600000] ∧
    ∀ step ∈ steps, step.Found := by
  obtain ⟨steps, ran, located⟩ : ∃ steps, runCalls {} askedBetween = .ok steps ∧
      steps.map (fun step => step.located.map fun map => map.addr) = [some 0x400000, none, some 0x600000] :=
    exists_ok_of_any (by decide +kernel)
  have pages : (askedBetween.map fun call => pageOf call.addr).Nodup := by decide +kernel
  have mapped : MappedFirst askedBetween :=
    (List.pairwise_map.mp pages).imp fun different same => absurd same different
  exact ⟨steps, ran, located, (listed_found_iff ran).2 mapped⟩

/-- Asked for early, the page is bad from then on. -/
theorem listed_unfound : ¬ ∀ calls steps, Growing calls → runCalls {} calls = .ok steps →
    ∀ step ∈ steps, step.Found := by
  intro claim
  have growing : Growing [askedEarly, askedLate] := by
    refine ⟨?_, List.pairwise_pair.mpr fun addr ⟨_, member, _⟩ => absurd member List.not_mem_nil⟩
    intro call member line isLine _
    rcases List.mem_pair.mp member with rfl | rfl
    · cases isLine
    · rw [List.mem_singleton.mp isLine]
      decide
  have ran : runCalls {} [askedEarly, askedLate] =
      .ok [⟨{}, askedEarly, none⟩, ⟨{ badPages := [0x400000] }, askedLate, none⟩] := rfl
  obtain ⟨_, located, _⟩ := claim _ _ growing ran _ (List.mem_cons_of_mem _ List.mem_cons_self) listed_late
  cases located

end Memprof.Lookups
