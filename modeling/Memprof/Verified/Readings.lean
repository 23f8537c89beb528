import Memprof.Verified.Locating
import Memprof.Verified.Nameless

/-! # One reading of the maps

The symbols of a profile are compared as pointers, and every reading of the maps makes new
ones.  A profile in which the maps are not read again once something was made of a symbol is
a profile of one reading, with one row for each function of it.
-/

namespace Memprof.Readings

open Library Serving CallTree FlatProfile Nameless Locating

/-! ## The lookups of a profile -/

section Lookups

variable {σ τ : Type} (locate : τ → Addr → Option σ × τ) (name : σ → String) (skipFuncs : List String)

/-- The addresses that `profile_create` looks up, and whether what it is told matters: with
no functions to skip, all frames are kept whatever they are. -/
def lookups : τ → List (List Addr × UInt32) → List (Addr × Bool)
  | _, [] => []
  | maps, trace :: rest =>
    let (stack, middle) := keepAddresses locate name skipFuncs maps [] trace.1
    let (_, later) := findSymbols locate middle stack
    trace.1.map (·, decide (skipFuncs ≠ [])) ++ (stack.map (·, true) ++ lookups later rest)

/-- What is known of the maps after some lookups. -/
def afterLookups (maps : τ) (asked : List (Addr × Bool)) : τ :=
  asked.foldl (fun maps asked => (locate maps asked.1).2) maps

theorem afterLookups_keep (maps : τ) (stack frames : List Addr) (used : Bool) :
    afterLookups locate maps (frames.map (·, used)) = (keepAddresses locate name skipFuncs maps stack frames).2 := by
  induction frames generalizing maps stack with
  | nil => rfl
  | cons address rest inductionHypothesis => exact inductionHypothesis _ _

theorem afterLookups_find (maps : τ) (stack : List Addr) (used : Bool) :
    afterLookups locate maps (stack.map (·, used)) = (findSymbols locate maps stack).2 := by
  induction stack generalizing maps with
  | nil => rfl
  | cons address rest inductionHypothesis => exact inductionHypothesis _

end Lookups

section Steady

variable {π : Type} (fuel : ℕ) (files : ℕ → Files) (place : NameOf → π)

/-- The maps are not read again once something was made of what a lookup told. -/
def Steady : Bool → Option MapReader → List (Addr × Bool) → Prop
  | _, _, [] => True
  | used, maps, (addr, uses) :: rest =>
    (used = true → ∀ reader ∈ maps, ¬ reader.cache.Rereads addr) ∧
      Steady (used || uses) (locateCharPtr fuel files place maps addr).2 rest

instance : (used : Bool) → (maps : Option MapReader) → (asked : List (Addr × Bool)) →
    Decidable (Steady fuel files place used maps asked)
  | _, _, [] => isTrue trivial
  | used, maps, (addr, uses) :: rest =>
    have : Decidable (Steady fuel files place (used || uses) (locateCharPtr fuel files place maps addr).2 rest) :=
      instDecidableSteady _ _ rest
    inferInstanceAs (Decidable (_ ∧ _))

variable {fuel files place}

theorem steady_append {used : Bool} {maps : Option MapReader} {asked asked' : List (Addr × Bool)} :
    Steady fuel files place used maps (asked ++ asked') ↔ Steady fuel files place used maps asked ∧
      Steady fuel files place (used || asked.any Prod.snd) (afterLookups (locateCharPtr fuel files place) maps asked)
        asked' := by
  induction asked generalizing used maps with
  | nil => simp [Steady, afterLookups]
  | cons lookup asked inductionHypothesis =>
    obtain ⟨addr, uses⟩ := lookup
    rw [List.cons_append, Steady, Steady, inductionHypothesis, List.any_cons, Bool.or_assoc, and_assoc]
    rfl

/-- What a lookup tells of an address, if the maps say so. -/
def told (answer : Addr → Except Fault (Option (CharPtr π))) (addr : Addr) : Option (CharPtr π) :=
  (answer addr).toOption.join

variable {answer : Addr → Except Fault (Option (CharPtr π))} {maps : Option MapReader} {ended : MapReader} {used : Bool}

/-- From here on the maps answer as they do in the end. -/
def Settled (fuel : ℕ) (files : ℕ → Files) (place : NameOf → π) (answer : Addr → Except Fault (Option (CharPtr π)))
    (used : Bool) (maps : Option MapReader) : Prop :=
  used = true → ∃ reader, maps = some reader ∧ reader.answer fuel files place = answer

theorem locate_of_locateCharPtr {addr : Addr} {next : MapReader}
    (left : (locateCharPtr fuel files place maps addr).2 = some next) :
    ∃ reader, maps = some reader ∧
      reader.locate fuel files place addr = .ok (next, (locateCharPtr fuel files place maps addr).1) := by
  cases maps with
  | none => cases left
  | some reader =>
    refine ⟨reader, rfl, ?_⟩
    simp only [locateCharPtr] at left ⊢
    cases ran : reader.locate fuel files place addr with
    | error fault =>
      rw [ran] at left
      cases left
    | ok result =>
      rw [ran] at left
      cases left
      rfl

/-- A lookup after which the maps are settled. -/
theorem settled_of_lookup {addr : Addr} {uses : Bool}
    (quiet : used = true → ∀ reader ∈ maps, ¬ reader.cache.Rereads addr)
    (settled : Settled fuel files place answer (used || uses) (locateCharPtr fuel files place maps addr).2) :
    Settled fuel files place answer used maps ∧
      ((used || uses) = true → (locateCharPtr fuel files place maps addr).1 = told answer addr) := by
  constructor
  · intro isUsed
    obtain ⟨next, left, same⟩ := settled (by rw [isUsed, Bool.true_or])
    obtain ⟨reader, rfl, ran⟩ := locate_of_locateCharPtr left
    obtain ⟨_, after⟩ := locate_ok ran
    rw [if_neg (quiet isUsed reader rfl)] at after
    exact ⟨reader, rfl, after.symm.trans same⟩
  · intro isUsed
    obtain ⟨next, left, same⟩ := settled isUsed
    obtain ⟨reader, rfl, ran⟩ := locate_of_locateCharPtr left
    obtain ⟨here, _⟩ := locate_ok ran
    rw [same] at here
    rw [told, here]
    rfl

theorem settled_of_find {stack : List Addr}
    (steady : Steady fuel files place used maps (stack.map (·, true)))
    (settled : Settled fuel files place answer (used || (stack.map (·, true)).any Prod.snd)
      (findSymbols (locateCharPtr fuel files place) maps stack).2) :
    Settled fuel files place answer used maps ∧
      (findSymbols (locateCharPtr fuel files place) maps stack).1 = stack.map (told answer) := by
  induction stack generalizing maps used with
  | nil => exact ⟨by simpa [findSymbols] using settled, rfl⟩
  | cons addr stack inductionHypothesis =>
    obtain ⟨quiet, steady⟩ := steady
    rw [List.map_cons, List.any_cons, ← Bool.or_assoc] at settled
    obtain ⟨settledNext, found⟩ := inductionHypothesis steady settled
    obtain ⟨settledHere, here⟩ := settled_of_lookup quiet settledNext
    refine ⟨settledHere, ?_⟩
    simp only [findSymbols, found, here (Bool.or_true used), List.map_cons]

/-- The frames that are kept, if they are what `answer` says. -/
def keptFrames (skipFuncs : List String) (answer : Addr → Except Fault (Option (CharPtr π))) (frames : List Addr) :
    List Addr :=
  (frames.filter fun frame => !(told answer frame).any (CharPtr.name · ∈ skipFuncs)).reverse

theorem settled_of_keep {skipFuncs : List String} {stack frames : List Addr}
    (steady : Steady fuel files place used maps (frames.map (·, decide (skipFuncs ≠ []))))
    (settled : Settled fuel files place answer (used || (frames.map (·, decide (skipFuncs ≠ []))).any Prod.snd)
      (keepAddresses (locateCharPtr fuel files place) CharPtr.name skipFuncs maps stack frames).2) :
    Settled fuel files place answer used maps ∧
      (keepAddresses (locateCharPtr fuel files place) CharPtr.name skipFuncs maps stack frames).1 =
        keptFrames skipFuncs answer frames ++ stack := by
  induction frames generalizing maps used stack with
  | nil => exact ⟨by simpa [keepAddresses] using settled, rfl⟩
  | cons addr frames inductionHypothesis =>
    obtain ⟨quiet, steady⟩ := steady
    rw [List.map_cons, List.any_cons, ← Bool.or_assoc] at settled
    obtain ⟨settledNext, kept⟩ := @inductionHypothesis _ _
      (if (locateCharPtr fuel files place maps addr).1.any (CharPtr.name · ∈ skipFuncs) then stack else addr :: stack)
      steady settled
    obtain ⟨settledHere, here⟩ := settled_of_lookup quiet settledNext
    refine ⟨settledHere, ?_⟩
    -- Without functions to skip it does not matter what the frame is.
    have skips : (locateCharPtr fuel files place maps addr).1.any (CharPtr.name · ∈ skipFuncs) =
        (told answer addr).any (CharPtr.name · ∈ skipFuncs) := by
      by_cases skipped : skipFuncs = []
      · subst skipped
        cases (locateCharPtr fuel files place maps addr).1 <;> cases told answer addr <;> simp
      · rw [here (by simp [skipped])]
    refine kept.trans ?_
    rw [skips, keptFrames, keptFrames, List.filter_cons]
    cases (told answer addr).any (CharPtr.name · ∈ skipFuncs) <;> simp

theorem settled_of_traces {skipFuncs : List String} {traces : List (List Addr × UInt32)}
    (steady : Steady fuel files place used maps (lookups (locateCharPtr fuel files place) CharPtr.name skipFuncs maps traces))
    (settled : ∃ reader, (findTraces (locateCharPtr fuel files place) CharPtr.name skipFuncs maps traces).2 = some reader ∧
      reader.answer fuel files place = answer) :
    Settled fuel files place answer used maps ∧
      (findTraces (locateCharPtr fuel files place) CharPtr.name skipFuncs maps traces).1 =
        traces.map fun trace => ((keptFrames skipFuncs answer trace.1).map (told answer), trace.2) := by
  induction traces generalizing maps used with
  | nil => exact ⟨fun _ => settled, rfl⟩
  | cons trace traces inductionHypothesis =>
    simp only [lookups, steady_append] at steady
    rw [afterLookups_keep (locateCharPtr fuel files place) CharPtr.name skipFuncs maps [] trace.1] at steady
    rw [afterLookups_find] at steady
    obtain ⟨steadyKeep, steadyFind, steadyRest⟩ := steady
    obtain ⟨settledRest, found⟩ := inductionHypothesis steadyRest settled
    obtain ⟨settledFind, symbols⟩ := settled_of_find steadyFind settledRest
    obtain ⟨settledKeep, kept⟩ := settled_of_keep steadyKeep settledFind
    refine ⟨settledKeep, ?_⟩
    rw [List.append_nil] at kept
    simp only [findTraces, findTrace]
    rw [found, symbols, kept, List.map_cons]

/-! ## No fault goes unnoticed -/

theorem findSymbols_none (stack : List Addr) :
    findSymbols (locateCharPtr fuel files place) none stack = (stack.map fun _ => none, none) := by
  induction stack with
  | nil => rfl
  | cons addr stack inductionHypothesis =>
    simp only [findSymbols, locateCharPtr, inductionHypothesis, List.map_cons]

/-- After a fault all frames are kept. -/
theorem keepAddresses_none (skipFuncs : List String) (stack frames : List Addr) :
    keepAddresses (locateCharPtr fuel files place) CharPtr.name skipFuncs none stack frames =
      (frames.reverse ++ stack, none) := by
  induction frames generalizing stack with
  | nil => rfl
  | cons addr frames inductionHypothesis =>
    refine (inductionHypothesis (addr :: stack)).trans ?_
    rw [List.reverse_cons, List.append_assoc, List.singleton_append]

theorem exists_reader_of_find {reader : MapReader} {stack : List Addr}
    (names : none ∉ (findSymbols (locateCharPtr fuel files place) (some reader) stack).1) :
    ∃ next, (findSymbols (locateCharPtr fuel files place) (some reader) stack).2 = some next ∧
      (reader.InForce fuel files place → next.InForce fuel files place) := by
  induction stack generalizing reader with
  | nil => exact ⟨reader, rfl, id⟩
  | cons addr stack inductionHypothesis =>
    cases ran : reader.locate fuel files place addr with
    | error fault =>
      simp [findSymbols, locateCharPtr, ran] at names
    | ok result =>
      obtain ⟨middle, ptr⟩ := result
      simp only [findSymbols, locateCharPtr, ran, List.mem_cons, not_or] at names ⊢
      obtain ⟨next, left, inForce⟩ := inductionHypothesis names.2
      exact ⟨next, left, fun start => inForce (inForce_of_locate ran start)⟩

/-- A frame that is not found stays in the stack. -/
theorem exists_reader_of_keep {skipFuncs : List String} {reader : MapReader} {stack frames : List Addr} :
    (∃ next, (keepAddresses (locateCharPtr fuel files place) CharPtr.name skipFuncs (some reader) stack frames).2 =
        some next ∧ (reader.InForce fuel files place → next.InForce fuel files place)) ∨
      ∃ addr rest, keepAddresses (locateCharPtr fuel files place) CharPtr.name skipFuncs (some reader) stack frames =
        (addr :: rest, none) := by
  induction frames generalizing reader stack with
  | nil => exact .inl ⟨reader, rfl, id⟩
  | cons addr frames inductionHypothesis =>
    simp only [keepAddresses]
    cases ran : reader.locate fuel files place addr with
    | error fault =>
      right
      simp only [locateCharPtr, ran, Option.any_none, Bool.false_eq_true, if_false, keepAddresses_none]
      obtain ⟨head, rest, spelled⟩ := List.exists_cons_of_ne_nil
        (show frames.reverse ++ addr :: stack ≠ [] from List.append_ne_nil_of_right_ne_nil _ (List.cons_ne_nil _ _))
      exact ⟨head, rest, by rw [spelled]⟩
    | ok result =>
      obtain ⟨middle, ptr⟩ := result
      simp only [locateCharPtr, ran]
      rcases @inductionHypothesis middle (if ptr.any (CharPtr.name · ∈ skipFuncs) then stack else addr :: stack) with
        ⟨next, left, inForce⟩ | stopped
      · exact .inl ⟨next, left, fun start => inForce (inForce_of_locate ran start)⟩
      · exact .inr stopped

/-- Where all frames of a profile have names, all of its lookups came to an end. -/
theorem exists_reader {skipFuncs : List String} {reader : MapReader} {traces : List (List Addr × UInt32)}
    (names : ∀ sample ∈ (findTraces (locateCharPtr fuel files place) CharPtr.name skipFuncs (some reader) traces).1,
      none ∉ sample.1) :
    ∃ next, (findTraces (locateCharPtr fuel files place) CharPtr.name skipFuncs (some reader) traces).2 = some next ∧
      (reader.InForce fuel files place → next.InForce fuel files place) := by
  induction traces generalizing reader with
  | nil => exact ⟨reader, rfl, id⟩
  | cons trace traces inductionHypothesis =>
    simp only [findTraces, findTrace, List.forall_mem_cons] at names ⊢
    obtain ⟨here, rest⟩ := names
    rcases @exists_reader_of_keep _ fuel files place skipFuncs reader [] trace.1 with
      ⟨middle, kept, inForceKept⟩ | ⟨addr, stack, stopped⟩
    · rw [kept] at here rest ⊢
      obtain ⟨later, found, inForceFound⟩ := exists_reader_of_find here
      rw [found] at rest ⊢
      obtain ⟨next, left, inForce⟩ := inductionHypothesis rest
      exact ⟨next, left, fun start => inForce (inForceFound (inForceKept start))⟩
    · rw [stopped, findSymbols_none] at here
      simp at here

/-! ## One profile -/

theorem told_eq_some {addr : Addr} {ptr : CharPtr π} : told answer addr = some ptr ↔ answer addr = .ok (some ptr) := by
  unfold told
  cases answer addr with
  | error fault => simp [Except.toOption]
  | ok found => simp [Except.toOption]

/-- Frames that all have names are kept as the functions they are in. -/
theorem map_told_keptFrames {skipFuncs : List String} {symbolOf : Addr → CharPtr π} {frames : List Addr}
    (named : ∀ frame ∈ frames, told answer frame = some (symbolOf frame)) :
    (keptFrames skipFuncs answer frames).map (told answer) =
      (keptStack CharPtr.name skipFuncs (frames.map symbolOf)).map some := by
  have kept : frames.filter (fun frame => !(told answer frame).any (CharPtr.name · ∈ skipFuncs)) =
      frames.filter ((fun symbol => decide (CharPtr.name symbol ∉ skipFuncs)) ∘ symbolOf) := by
    apply List.filter_congr
    intro frame member
    rw [named frame member]
    simp
  rw [keptFrames, keptStack, kept, List.filter_map, List.map_reverse, List.map_reverse, List.map_map]
  congr 1
  apply List.map_congr_left
  intro frame member
  exact named frame (List.mem_of_mem_filter member)

/-- A frame without a name is kept. -/
theorem told_ne_none {skipFuncs : List String} {frames : List Addr} {symbols : List (CharPtr π)}
    (spelled : symbols.map some = (keptFrames skipFuncs answer frames).map (told answer)) {frame : Addr}
    (member : frame ∈ frames) : told answer frame ≠ none := by
  intro nameless
  have kept : frame ∈ keptFrames skipFuncs answer frames := by
    simp [keptFrames, member, nameless]
  have absent : none ∈ symbols.map some := by
    rw [spelled, ← nameless]
    exact List.mem_map_of_mem kept
  simp at absent

theorem named_injective {σ : Type} : Function.Injective (named : Sample σ → Sample (Option σ)) := by
  intro left right same
  have symbols : left.1.map some = right.1.map some := congrArg Prod.fst same
  have sizes : left.2 = right.2 := congrArg (fun sample : Sample (Option σ) => sample.2) same
  exact Prod.ext (List.map_injective_iff.mpr (Option.some_injective σ) symbols) sizes

/-- Samples that are what `answer` says are those of the functions it names. -/
theorem exists_symbolOf {skipFuncs : List String} {traces : List (List Addr × UInt32)}
    {samples : List (Sample (CharPtr π))}
    (fixed : samples.map named =
      traces.map fun trace => ((keptFrames skipFuncs answer trace.1).map (told answer), trace.2)) (fallback : CharPtr π) :
    ∃ symbolOf : Addr → CharPtr π, (∀ frame, IsFrame traces frame → answer frame = .ok (some (symbolOf frame))) ∧
      samples = keptSamples CharPtr.name skipFuncs symbolOf traces := by
  have isNamed : ∀ frame, IsFrame traces frame → told answer frame = some ((told answer frame).getD fallback) := by
    rintro frame ⟨trace, member, occurs⟩
    have here : ((keptFrames skipFuncs answer trace.1).map (told answer), trace.2) ∈ samples.map named := by
      rw [fixed]
      exact List.mem_map_of_mem member
    obtain ⟨sample, _, same⟩ := List.mem_map.mp here
    obtain ⟨ptr, isTold⟩ := Option.ne_none_iff_exists'.mp (told_ne_none (congrArg Prod.fst same) occurs)
    rw [isTold, Option.getD_some]
  refine ⟨fun frame => (told answer frame).getD fallback, fun frame isFrame => told_eq_some.mp (isNamed frame isFrame), ?_⟩
  apply List.map_injective_iff.mpr named_injective
  rw [fixed, keptSamples, List.map_map]
  apply List.map_congr_left
  intro trace member
  rw [map_told_keptFrames fun frame occurs => isNamed frame ⟨trace, member, occurs⟩]
  rfl

variable [DecidableEq π]

/-- A call of `profile_create` for a process that holds blocks with `traces`. -/
structure ProfileCall where
  world : World
  process : MPProcess
  traces : List (List Addr × UInt32)
  skipFuncs : List String

/-- The call returns `profile`. -/
def Makes (fuel : ℕ) (files : ℕ → Files) (place : NameOf → π) (p : ProcId) (maps : Option MapReader)
    (call : ProfileCall) (profile : Profile (CharPtr π)) (maps' : Option MapReader) : Prop :=
  call.world.process p = .ok call.process ∧
    List.Forall₂ (Recorded call.world) call.process.held call.traces ∧
    ∃ later, profileCreate (locateCharPtr fuel files place) CharPtr.name maps call.world p call.skipFuncs =
      .ok (later, maps', profile)

/-- During the call the maps are not read again once something was made of a symbol. -/
def KeepsReading (fuel : ℕ) (files : ℕ → Files) (place : NameOf → π) (maps : Option MapReader)
    (call : ProfileCall) : Prop :=
  Steady fuel files place false maps
    (lookups (locateCharPtr fuel files place) CharPtr.name call.skipFuncs maps call.traces.reverse)

instance (fuel : ℕ) (files : ℕ → Files) (place : NameOf → π) (maps : Option MapReader) (call : ProfileCall) :
    Decidable (KeepsReading fuel files place maps call) := by
  unfold KeepsReading
  infer_instance

/-- The functions that the frames are in have different names, but for those that are skipped. -/
def NamesApart (fuel : ℕ) (files : ℕ → Files) (place : NameOf → π) (call : ProfileCall)
    (maps : Option MapReader) : Prop :=
  ∀ reader ∈ maps, ∀ left right, IsFrame call.traces left → IsFrame call.traces right →
    ∀ ptr ptr', reader.answer fuel files place left = .ok (some ptr) →
      reader.answer fuel files place right = .ok (some ptr') → ptr.name = ptr'.name →
        ptr.name ∉ call.skipFuncs → ptr = ptr'

omit [DecidableEq π] in
/-- Frames whose names are different are enough. -/
theorem namesApart_of_nodup {fuel : ℕ} {files : ℕ → Files} {place : NameOf → π} {call : ProfileCall}
    {maps : Option MapReader} {frames : List Addr} (all : ∀ frame, IsFrame call.traces frame → frame ∈ frames)
    (distinct : ∀ reader ∈ maps,
      (frames.map fun frame => (told (reader.answer fuel files place) frame).map CharPtr.name).Nodup) :
    NamesApart fuel files place call maps := by
  intro reader isReader left right isLeft isRight ptr ptr' isPtr isPtr' same _
  have equal : left = right := by
    refine List.inj_on_of_nodup_map (distinct reader isReader) (all left isLeft) (all right isRight) ?_
    simp only [told, isPtr, isPtr', Except.toOption, Option.join_some, Option.map_some, same]
  rw [equal, isPtr'] at isPtr
  cases isPtr
  rfl

/-- A call that returns, and meets both conditions. -/
def Orderly (fuel : ℕ) (files : ℕ → Files) (place : NameOf → π) (p : ProcId) (maps : Option MapReader)
    (call : ProfileCall) (profile : Profile (CharPtr π)) (maps' : Option MapReader) : Prop :=
  Makes fuel files place p maps call profile maps' ∧ KeepsReading fuel files place maps call ∧
    NamesApart fuel files place call maps'

/-- All frames are what one reading of the maps says, the functions have the totals and
selfs of these symbols, and there is one row for each name. -/
def OneRow (fuel : ℕ) (files : ℕ → Files) (place : NameOf → π) (call : ProfileCall)
    (profile : Profile (CharPtr π)) : Prop :=
  ∃ reads symbolOf,
    (∀ frame, IsFrame call.traces frame →
      nameIn fuel files place reads (mapsOfReading files reads) frame = .ok (some (symbolOf frame))) ∧
    Flat profile (keptSamples CharPtr.name call.skipFuncs symbolOf call.traces) ∧
    (profile.functions.map fun func => (funcSymbol profile func).map CharPtr.name).Nodup

theorem nodup_names {profile : Profile (CharPtr π)} {skipFuncs : List String} {symbolOf : Addr → CharPtr π}
    {traces : List (List Addr × UInt32)} (flat : Flat profile (keptSamples CharPtr.name skipFuncs symbolOf traces))
    (apart : ∀ left right, IsFrame traces left → IsFrame traces right → (symbolOf left).name = (symbolOf right).name →
      (symbolOf left).name ∉ skipFuncs → symbolOf left = symbolOf right) :
    (profile.functions.map fun func => (funcSymbol profile func).map CharPtr.name).Nodup := by
  have frameOf : ∀ symbol ∈ profile.functions.map (funcSymbol profile), ∃ frame, IsFrame traces frame ∧
      symbol = some (symbolOf frame) ∧ (symbolOf frame).name ∉ skipFuncs := by
    intro symbol member
    obtain ⟨func, memberFunc, rfl⟩ := List.mem_map.mp member
    obtain ⟨ptr, isNamed, _⟩ := flat.counts func memberFunc
    rw [isNamed] at member ⊢
    obtain ⟨sample, memberSample, occurs⟩ := (flat.listed ptr).mp member
    obtain ⟨trace, memberTrace, rfl⟩ := List.mem_map.mp memberSample
    obtain ⟨here, kept⟩ := List.mem_filter.mp (List.mem_reverse.mp occurs)
    obtain ⟨frame, memberFrame, rfl⟩ := List.mem_map.mp here
    exact ⟨frame, ⟨trace, memberTrace, memberFrame⟩, rfl, of_decide_eq_true kept⟩
  have mapped : (profile.functions.map fun func => (funcSymbol profile func).map CharPtr.name) =
      (profile.functions.map (funcSymbol profile)).map (Option.map CharPtr.name) := by
    rw [List.map_map]
    rfl
  rw [mapped]
  refine flat.distinct.map_on ?_
  intro left memberLeft right memberRight same
  obtain ⟨frame, isFrame, rfl, kept⟩ := frameOf left memberLeft
  obtain ⟨frame', isFrame', rfl, _⟩ := frameOf right memberRight
  rw [apart frame frame' isFrame isFrame' (Option.some.inj same) kept]

/-- An orderly call makes a profile of one reading. -/
theorem oneRow_of_orderly {p : ProcId} {start : MapReader} (inForce : start.InForce fuel files place)
    {call : ProfileCall} {profile : Profile (CharPtr π)} {maps' : Option MapReader}
    (orderly : Orderly fuel files place p (some start) call profile maps') :
    OneRow fuel files place call profile ∧ ∃ next, maps' = some next ∧ next.InForce fuel files place := by
  obtain ⟨⟨found, recorded, _, returned⟩, keeps, apart⟩ := orderly
  obtain ⟨samples, paths, spelled, profiled⟩ := names_of_create found recorded returned
  have names : ∀ sample ∈ (findTraces (locateCharPtr fuel files place) CharPtr.name call.skipFuncs (some start)
      call.traces.reverse).1, none ∉ sample.1 := by
    rw [spelled]
    exact names_named samples
  obtain ⟨next, left, stays⟩ := exists_reader names
  obtain ⟨_, fixed⟩ := settled_of_traces keeps ⟨next, left, rfl⟩
  rw [spelled] at left fixed
  obtain ⟨symbolOf, answers, rfl⟩ := exists_symbolOf fixed ⟨place none, unknownMap⟩
  have answered : ∀ frame, IsFrame call.traces frame →
      next.answer fuel files place frame = .ok (some (symbolOf frame)) :=
    fun frame ⟨trace, member, occurs⟩ => answers frame ⟨trace, List.mem_reverse.mpr member, occurs⟩
  obtain ⟨reads, reading⟩ := stays inForce
  have flat := (profiled.perm ((List.reverse_perm call.traces).map _)).flat
  refine ⟨⟨reads, symbolOf, fun frame isFrame => ?_, flat, nodup_names flat ?_⟩, next, left, reads, reading⟩
  · rw [← reading, answered frame isFrame]
  · intro frame frame' isFrame isFrame' same kept
    exact apart next left frame frame' isFrame isFrame' _ _ (answered frame isFrame) (answered frame' isFrame') same kept

/-- For every sequence of profiles of a process, each of which keeps its reading of the maps
and has functions with different names: each has one row for each name and the totals of
one reading. -/
theorem oneRow_of_run {p : ProcId} {start : MapReader} (inForce : start.InForce fuel files place)
    {calls : List ProfileCall} {profiles : List (Profile (CharPtr π))} {maps' : Option MapReader}
    (run : Threaded (Orderly fuel files place p) (some start) calls profiles maps') :
    List.Forall₂ (OneRow fuel files place) calls profiles := by
  generalize begins : some start = maps at run
  induction run generalizing start with
  | nil => exact .nil
  | cons first _ inductionHypothesis =>
    subst begins
    obtain ⟨row, next, rfl, inForceNext⟩ := oneRow_of_orderly inForce first
    exact .cons row (inductionHypothesis inForceNext rfl)

end Steady

/-! ## A program with one function -/

/-- `1000-2000 r-xp 00000000 08:01 7 /a`, with `f` at its beginning. -/
def program : Files where
  maps := some ["1000-2000 r-xp 00000000 08:01 7 /a\n".toList]
  locateInode _ _ _ := none
  stat _ := none
  exe := none
  readBfd _ := some [{ isFunction := true, sectionName := ".text".toList, value := 0, name := ['f'] }]
  demangle name := name

/-- `f` is in `/a` and `g` in `/b`. -/
def neighbours : Files where
  __ := program
  maps := some ["1000-2000 r-xp 00000000 08:01 7 /a
".toList, "3000-4000 r-xp 00000000 08:01 8 /b
".toList]
  readBfd map := some [{
    isFunction := true
    sectionName := ".text".toList
    value := 0
    name := if map.name = some "/a".toList then ['f'] else ['g'] }]

/-- Something outside of all mappings allocated a block, `g` did, and `f` did for `g`. -/
def insider : World where
  blocks := ⟨[some { addr := 16, size := 8, stack := some ⟨0, 2⟩ }, some { addr := 32, size := 8, stack := some ⟨0, 0⟩ },
    some { addr := 64, size := 8, stack := some ⟨0, 1⟩ }]⟩
  stashes := ⟨[some { nodes := [{ address := 12288 }, { address := 4096, parent := some 0 }, { address := 36864 }] }]⟩
  processes := [{ blockTable := some ((∅ : BlockTable).insert 16 0 |>.insert 32 1 |>.insert 64 2) }]

def insiderCall : ProfileCall where
  world := insider
  process := { blockTable := some ((∅ : BlockTable).insert 16 0 |>.insert 32 1 |>.insert 64 2) }
  traces := [([4096, 12288], 8), ([12288], 8), ([36864], 8)]
  skipFuncs := []

theorem insider_recorded : List.Forall₂ (Recorded insider) insiderCall.process.held insiderCall.traces := by
  let nodes : List StackNode := [{ address := 12288 }, { address := 4096, parent := some 0 }, { address := 36864 }]
  have g : Stash.Trace nodes (some 0) [12288] := @Stash.Trace.cons _ 0 { address := 12288 } _ rfl .nil
  have f : Stash.Trace nodes (some 1) [4096, 12288] :=
    @Stash.Trace.cons _ 1 { address := 4096, parent := some 0 } _ rfl g
  have outside : Stash.Trace nodes (some 2) [36864] := @Stash.Trace.cons _ 2 { address := 36864 } _ rfl .nil
  exact .cons ⟨_, rfl, ⟨_, rfl, f⟩, rfl⟩ (.cons ⟨_, rfl, ⟨_, rfl, g⟩, rfl⟩ (.cons ⟨_, rfl, ⟨_, rfl, outside⟩, rfl⟩ .nil))

/-- What is outside is asked first, and then nothing is read again. -/
theorem insider_orderly {maps : Option MapReader}
    (names : ∀ sample ∈ (findTraces (locateCharPtr 9 (fun _ => neighbours) id) CharPtr.name [] maps
      insiderCall.traces.reverse).1, none ∉ sample.1)
    (keeps : KeepsReading 9 (fun _ => neighbours) id maps insiderCall)
    (distinct : ∀ reader ∈ (findTraces (locateCharPtr 9 (fun _ => neighbours) id) CharPtr.name [] maps
      insiderCall.traces.reverse).2, ([4096, 12288, 36864].map fun frame =>
        (told (reader.answer 9 (fun _ => neighbours) id) frame).map CharPtr.name).Nodup) :
    ∃ profile, Orderly 9 (fun _ => neighbours) id 0 maps insiderCall profile
      (findTraces (locateCharPtr 9 (fun _ => neighbours) id) CharPtr.name [] maps insiderCall.traces.reverse).2 := by
  have found : insider.process 0 = .ok insiderCall.process := rfl
  obtain ⟨_, profile, _, _, returned, _⟩ := create_of_names found insider_recorded names
  refine ⟨profile, ⟨found, insider_recorded, _, returned⟩, keeps, namesApart_of_nodup ?_ distinct⟩
  rintro frame ⟨trace, member, occurs⟩
  have among : ∀ trace ∈ insiderCall.traces, trace.1 ⊆ [4096, 12288, 36864] := by simp [insiderCall]
  exact among trace member occurs

set_option synthInstance.maxSize 1000 in
/-- Two profiles of `f` and `g`: only the first one reads the maps. -/
theorem oneRow_of_run_insider : ∃ profiles maps',
    Threaded (Orderly 9 (fun _ => neighbours) id 0) (some {}) [insiderCall, insiderCall] profiles maps' ∧
    List.Forall₂ (OneRow 9 (fun _ => neighbours) id) [insiderCall, insiderCall] profiles := by
  obtain ⟨profile, first⟩ := @insider_orderly (some {}) (by decide +kernel) (by decide +kernel) (by decide +kernel)
  obtain ⟨profile', second⟩ :=
    @insider_orderly (findTraces (locateCharPtr 9 (fun _ => neighbours) id) CharPtr.name [] (some {})
      insiderCall.traces.reverse).2 (by decide +kernel) (by decide +kernel) (by decide +kernel)
  have run := Threaded.cons first (.cons second .nil)
  exact ⟨_, _, run, oneRow_of_run (inForce_empty 0 []) run⟩

/-- `f` allocated two blocks, and between them something outside of all mappings did. -/
def outsider : World where
  blocks := ⟨[some { addr := 16, size := 8, stack := some ⟨0, 0⟩ }, some { addr := 32, size := 8, stack := some ⟨0, 1⟩ },
    some { addr := 64, size := 8, stack := some ⟨0, 0⟩ }]⟩
  stashes := ⟨[some { nodes := [{ address := 4096 }, { address := 36864 }] }]⟩
  processes := [{ blockTable := some ((∅ : BlockTable).insert 16 0 |>.insert 32 1 |>.insert 64 2) }]

def outsiderCall : ProfileCall where
  world := outsider
  process := { blockTable := some ((∅ : BlockTable).insert 16 0 |>.insert 32 1 |>.insert 64 2) }
  traces := [([4096], 8), ([36864], 8), ([4096], 8)]
  skipFuncs := []

theorem outsider_recorded : List.Forall₂ (Recorded outsider) outsiderCall.process.held outsiderCall.traces := by
  have inside : Stash.Trace [{ address := 4096 }, { address := 36864 }] (some 0) [4096] :=
    @Stash.Trace.cons _ 0 { address := 4096 } _ rfl .nil
  have outside : Stash.Trace [{ address := 4096 }, { address := 36864 }] (some 1) [36864] :=
    @Stash.Trace.cons _ 1 { address := 36864 } _ rfl .nil
  exact .cons ⟨_, rfl, ⟨_, rfl, inside⟩, rfl⟩ (.cons ⟨_, rfl, ⟨_, rfl, outside⟩, rfl⟩
    (.cons ⟨_, rfl, ⟨_, rfl, inside⟩, rfl⟩ .nil))

set_option synthInstance.maxSize 1000 in
/-- The second lookup of `f` finds another string. -/
theorem found_outsider : (findTraces (locateCharPtr 0 (fun _ => program) id) CharPtr.name [] (some {})
    outsiderCall.traces.reverse).1 =
      [([some ⟨some (1, 0, some 0), ['f']⟩], 8), ([some ⟨none, unknownMap⟩], 8),
        ([some ⟨some (2, 0, some 0), ['f']⟩], 8)] := by
  decide +kernel

/-- The profile has two rows for `f`. -/
theorem rereading_splits : ∃ profile maps',
    Makes 0 (fun _ => program) id 0 (some {}) outsiderCall profile maps' ∧
      ¬ OneRow 0 (fun _ => program) id outsiderCall profile := by
  have names : ∀ sample ∈ (findTraces (locateCharPtr 0 (fun _ => program) id) CharPtr.name [] (some {})
      outsiderCall.traces.reverse).1, none ∉ sample.1 := by
    rw [found_outsider]
    simp
  have found : outsider.process 0 = .ok outsiderCall.process := rfl
  obtain ⟨_, profile, _, samples, returned, spelled, profiled⟩ := create_of_names found outsider_recorded names
  refine ⟨profile, _, ⟨found, outsider_recorded, _, returned⟩, ?_⟩
  rintro ⟨_, _, _, _, distinct⟩
  have rows := rows_of_flat profiled.flat
  rw [spelled, found_outsider] at rows
  obtain ⟨func, member, symbol⟩ := List.mem_map.mp ((rows.listed (some ⟨some (1, 0, some 0), ['f']⟩)).mpr (by simp))
  obtain ⟨func', member', symbol'⟩ := List.mem_map.mp ((rows.listed (some ⟨some (2, 0, some 0), ['f']⟩)).mpr (by simp))
  have same : func = func' := List.inj_on_of_nodup_map distinct member member' (by rw [symbol, symbol']; rfl)
  rw [same, symbol'] at symbol
  cases symbol

end Memprof.Readings
