import Memprof.Locating
import Memprof.Verified.Callers
import Memprof.Verified.DescendantTree

/-! # Frames without a name

Every frame of a block is looked up when its stack is made, and those that are kept again
when the stack is added.  The first loop does without a name; the second one has no node for
it and stops.
-/

namespace Memprof.Nameless

open Library Library.Forest Serving CallTree FlatProfile Callers Descendants

variable {σ τ : Type}

/-! ## The lookups -/

section Lookups

variable (locate : τ → Addr → Option σ × τ) (name : σ → String) (skipFuncs : List String)

/-- What is found for some frames, one after the other. -/
def findSymbols : τ → List Addr → List (Option σ) × τ
  | maps, [] => ([], maps)
  | maps, address :: rest =>
    let (symbol, maps) := locate maps address
    let (symbols, maps) := findSymbols maps rest
    (symbol :: symbols, maps)

/-- The frames of a trace that are not skipped, put in front of `stack`. -/
def keepAddresses : τ → List Addr → List Addr → List Addr × τ
  | maps, stack, [] => (stack, maps)
  | maps, stack, address :: rest =>
    let (symbol, maps) := locate maps address
    keepAddresses maps (if symbol.any (name · ∈ skipFuncs) then stack else address :: stack) rest

/-- What is found for the frames of a trace when its stack is added. -/
def findTrace (maps : τ) (trace : List Addr × UInt32) : Sample (Option σ) × τ :=
  let (stack, maps) := keepAddresses locate name skipFuncs maps [] trace.1
  let (symbols, maps) := findSymbols locate maps stack
  ((symbols, trace.2), maps)

def findTraces : τ → List (List Addr × UInt32) → List (Sample (Option σ)) × τ
  | maps, [] => ([], maps)
  | maps, trace :: rest =>
    let (sample, maps) := findTrace locate name skipFuncs maps trace
    let (samples, maps) := findTraces maps rest
    (sample :: samples, maps)

end Lookups

/-- A sample all frames of which have a name. -/
def named (sample : Sample σ) : Sample (Option σ) := (sample.1.map some, sample.2)

section Profiles

variable {locate : τ → Addr → Option σ × τ} {name : σ → String} {skipFuncs : List String}

theorem located_iff {maps maps' : τ} {stack : List StackNode} {symbols : List σ} :
    Threaded (Located locate) maps stack symbols maps' ↔
      findSymbols locate maps (stack.map StackNode.address) = (symbols.map some, maps') := by
  have listed : List.Forall₂ (fun element address => StackNode.address element = address) stack
      (stack.map StackNode.address) := by
    rw [List.forall₂_map_right_iff]
    exact List.forall₂_same.mpr fun _ _ => rfl
  refine threaded_iff_run locate (fun _ => rfl) (fun _ _ _ => rfl) ?_ listed
  rintro maps element _ symbol maps' rfl
  exact Iff.rfl

theorem any_lookup_skipHash (name : σ → String) (skipFuncs : List String) (symbol : Option σ) :
    (symbol.any fun symbol => ((skipHash skipFuncs).lookup (name symbol)).isSome) =
      symbol.any (name · ∈ skipFuncs) := by
  cases symbol with
  | none => rfl
  | some symbol =>
    rw [Option.any_some, Option.any_some, Bool.eq_iff_iff, lookup_skipHash, decide_eq_true_eq]

/-- The loop of `block_create_stack_list`. -/
theorem keepFrames_eq {stash : StackStash} {list : List ℕ} {frames : List Addr}
    (listing : List.Forall₂ (fun i address => ∃ node : StackNode, stash.nodes[i]? = some node ∧ node.address = address)
      list frames) (maps : τ) (stack : List StackNode) :
    ∃ stack', list.foldlM (keepFrame locate name (skipHash skipFuncs) stash) (stack, maps) =
        .ok (stack', (keepAddresses locate name skipFuncs maps (stack.map StackNode.address) frames).2) ∧
      stack'.map StackNode.address =
        (keepAddresses locate name skipFuncs maps (stack.map StackNode.address) frames).1 := by
  induction listing generalizing maps stack with
  | nil => exact ⟨stack, rfl, rfl⟩
  | @cons i address list frames here _ inductionHypothesis =>
    obtain ⟨node, held, rfl⟩ := here
    rw [List.foldlM_cons, keepFrame_eq held, any_lookup_skipHash, ok_bind, keepAddresses]
    obtain ⟨stack', ran, kept⟩ := inductionHypothesis (locate maps node.address).2
      (if (locate maps node.address).1.any (name · ∈ skipFuncs) then stack else node :: stack)
    have spelled : (if (locate maps node.address).1.any (name · ∈ skipFuncs) then stack else node :: stack).map
        StackNode.address = if (locate maps node.address).1.any (name · ∈ skipFuncs) then stack.map StackNode.address
          else node.address :: stack.map StackNode.address := by
      split <;> rfl
    rw [spelled] at ran kept
    exact ⟨stack', ran, kept⟩

theorem createStackList_eq {stashes : Store StackStash} {block : Block} {frames : List Addr}
    (trace : StackTrace stashes block.stack frames) (maps : τ) :
    ∃ stack, blockCreateStackList locate name stashes (skipHash skipFuncs) maps block =
        .ok (stack, (keepAddresses locate name skipFuncs maps [] frames).2) ∧
      stack.map StackNode.address = (keepAddresses locate name skipFuncs maps [] frames).1 := by
  obtain ⟨stash, list, listing, loop⟩ := exists_keepFrames trace
  obtain ⟨stack, ran, kept⟩ := @keepFrames_eq _ _ locate name skipFuncs _ _ _ listing maps []
  exact ⟨stack, (loop maps).trans ran, kept⟩

/-- A block is added as the sample that is found for its trace. -/
theorem adds_iff {stashes : Store StackStash} {block : Block} {trace : List Addr × UInt32}
    (traced : BlockTrace stashes block trace) {maps maps' : τ} {sample : Sample σ} :
    Adds locate name stashes (skipHash skipFuncs) maps block sample maps' ↔
      findTrace locate name skipFuncs maps trace = (named sample, maps') := by
  obtain ⟨frames, size⟩ := trace
  obtain ⟨traced, rfl⟩ := traced
  obtain ⟨stack, ran, kept⟩ := @createStackList_eq _ _ locate name skipFuncs _ _ _ traced maps
  simp only [findTrace, ← kept, named, Prod.mk.injEq]
  constructor
  · rintro ⟨_, _, created, located, weighs⟩
    rw [ran] at created
    cases created
    have found := located_iff.mp located
    exact ⟨⟨by rw [found], weighs.symm⟩, by rw [found]⟩
  · rintro ⟨⟨found, weighs⟩, ended⟩
    exact ⟨_, _, ran, located_iff.mpr (Prod.ext found ended), weighs.symm⟩

theorem addsAll_iff {stashes : Store StackStash} {blocks : List Block} {traces : List (List Addr × UInt32)}
    (traced : List.Forall₂ (BlockTrace stashes) blocks traces) {maps maps' : τ} {samples : List (Sample σ)} :
    Threaded (Adds locate name stashes (skipHash skipFuncs)) maps blocks samples maps' ↔
      findTraces locate name skipFuncs maps traces = (samples.map named, maps') := by
  refine threaded_iff_run (findTrace locate name skipFuncs) (fun _ => rfl) (fun _ _ _ => rfl) ?_ traced
  intro maps block trace sample maps' first
  exact adds_iff first

theorem names_named (samples : List (Sample σ)) : ∀ sample ∈ samples.map named, none ∉ sample.1 := by
  intro sample member
  obtain ⟨_, _, rfl⟩ := List.mem_map.mp member
  simp [named]

/-- Samples without a nameless frame are those of some symbols. -/
theorem exists_named {samples : List (Sample (Option σ))} (names : ∀ sample ∈ samples, none ∉ sample.1) :
    ∃ samples' : List (Sample σ), samples'.map named = samples := by
  have spell : ∀ stack : List (Option σ), none ∉ stack → ∃ symbols : List σ, symbols.map some = stack := by
    intro stack
    induction stack with
    | nil => exact fun _ => ⟨[], rfl⟩
    | cons symbol stack inductionHypothesis =>
      intro absent
      obtain ⟨isNamed, rest⟩ := not_or.mp (List.mem_cons.not.mp absent)
      obtain ⟨symbols, rfl⟩ := inductionHypothesis rest
      obtain ⟨symbol, rfl⟩ := Option.ne_none_iff_exists'.mp (Ne.symm isNamed)
      exact ⟨symbol :: symbols, rfl⟩
  induction samples with
  | nil => exact ⟨[], rfl⟩
  | cons sample samples inductionHypothesis =>
    obtain ⟨rest, spelled⟩ := inductionHypothesis fun other member => names other (by simp [member])
    obtain ⟨symbols, here⟩ := spell sample.1 (names sample (by simp))
    exact ⟨(symbols, sample.2) :: rest, by rw [List.map_cons, spelled, named, here]⟩

/-! ## The profile -/

/-- One row for every symbol of the samples, and one for the frames without a name. -/
structure Rows [DecidableEq σ] (profile : Profile σ) (samples : List (Sample (Option σ))) : Prop where
  distinct : (profile.functions.map (funcSymbol profile)).Nodup
  listed : ∀ symbol, symbol ∈ profile.functions.map (funcSymbol profile) ↔ ∃ sample ∈ samples, symbol ∈ sample.1
  counts : ∀ func ∈ profile.functions,
    func.self = weight samples (fun stack => stack.getLast? = some (funcSymbol profile func)) ∧
    func.total = weight samples (fun stack => funcSymbol profile func ∈ stack)

variable [DecidableEq σ]

omit [DecidableEq σ] in
theorem weight_named (samples : List (Sample σ)) (property : List (Option σ) → Prop) [DecidablePred property] :
    weight (samples.map named) property = weight samples fun stack => property (stack.map some) := by
  simp only [weight, List.map_map]
  rfl

theorem rows_of_flat {profile : Profile σ} {samples : List (Sample σ)} (flat : Flat profile samples) :
    Rows profile (samples.map named) where
  distinct := flat.distinct
  listed symbol := by
    cases symbol with
    | some symbol =>
      rw [flat.listed]
      constructor
      · rintro ⟨sample, member, occurs⟩
        exact ⟨_, List.mem_map_of_mem member, List.mem_map_of_mem occurs⟩
      · rintro ⟨_, member, occurs⟩
        obtain ⟨sample, memberSample, rfl⟩ := List.mem_map.mp member
        exact ⟨sample, memberSample, (List.mem_map_of_injective (Option.some_injective σ)).mp occurs⟩
    | none =>
      refine iff_of_false (fun member => ?_) (by simp [named])
      obtain ⟨func, memberFunc, unnamed⟩ := List.mem_map.mp member
      obtain ⟨symbol, isNamed, _⟩ := flat.counts func memberFunc
      rw [unnamed] at isNamed
      cases isNamed
  counts func member := by
    obtain ⟨symbol, isNamed, self, total⟩ := flat.counts func member
    rw [isNamed, weight_named, weight_named, self, total]
    refine ⟨weight_congr fun sample _ => ?_, weight_congr fun sample _ => ?_⟩
    · rw [List.getLast?_map, Option.map_eq_some_iff]
      simp
    · simp

/-- What profiling has to come to for the samples: the profile is made, and whatever is
asked of it is answered. -/
def Completes (locate : τ → Addr → Option σ × τ) (name : σ → String) (maps : τ) (world : World) (p : ProcId)
    (skipFuncs : List String) (samples : List (Sample (Option σ))) : Prop :=
  ∃ later maps' profile, profileCreate locate name maps world p skipFuncs = .ok (later, maps', profile) ∧
    Rows profile samples ∧ ∀ func ∈ profile.functions,
      (∃ callers, profileFuncCreateCallerList profile func = .ok callers) ∧
        ∃ tree, profileFuncCreateDescendantTree profile func = .ok tree

/-- The samples of a profile that is made have no nameless frame. -/
theorem names_of_create {world later : World} {p : ProcId} {process : MPProcess} (found : world.process p = .ok process)
    {traces : List (List Addr × UInt32)} (recorded : List.Forall₂ (Recorded world) process.held traces)
    {locate : τ → Addr → Option σ × τ} {name : σ → String} {maps maps' : τ} {skipFuncs : List String}
    {profile : Profile σ} (returned : profileCreate locate name maps world p skipFuncs = .ok (later, maps', profile)) :
    ∃ samples paths, findTraces locate name skipFuncs maps traces.reverse = (samples.map named, maps') ∧
      Profiled profile paths samples := by
  obtain ⟨blocks, listed, traced⟩ := addBlocksToList_ok recorded
  obtain ⟨_, _, samples, paths, found', listed', adds, profiled⟩ := adds_of_create returned
  rw [found] at found'
  cases found'
  rw [listed] at listed'
  cases listed'
  exact ⟨samples, paths, (addsAll_iff traced).mp adds, profiled⟩

/-- If all frames have names, the profile of their symbols is made. -/
theorem create_of_names {world : World} {p : ProcId} {process : MPProcess} (found : world.process p = .ok process)
    {traces : List (List Addr × UInt32)} (recorded : List.Forall₂ (Recorded world) process.held traces)
    {locate : τ → Addr → Option σ × τ} {name : σ → String} {maps : τ} {skipFuncs : List String}
    (names : ∀ sample ∈ (findTraces locate name skipFuncs maps traces.reverse).1, none ∉ sample.1) :
    ∃ later profile paths samples, profileCreate locate name maps world p skipFuncs =
        .ok (later, (findTraces locate name skipFuncs maps traces.reverse).2, profile) ∧
      samples.map named = (findTraces locate name skipFuncs maps traces.reverse).1 ∧
        Profiled profile paths samples := by
  obtain ⟨blocks, listed, traced⟩ := addBlocksToList_ok recorded
  obtain ⟨samples, spelled⟩ := exists_named names
  have adds := (addsAll_iff traced).mpr (Prod.ext spelled.symm rfl)
  obtain ⟨profile, paths, returned, profiled⟩ := profileCreate_ok found listed adds
  exact ⟨_, profile, paths, samples, returned, spelled, profiled⟩

/-- Profiling completes, with a row for the frames without a name, exactly if there are none. -/
theorem completes_iff {world : World} {p : ProcId} {process : MPProcess} (found : world.process p = .ok process)
    {traces : List (List Addr × UInt32)} (recorded : List.Forall₂ (Recorded world) process.held traces)
    (locate : τ → Addr → Option σ × τ) (name : σ → String) (maps : τ) (skipFuncs : List String) :
    Completes locate name maps world p skipFuncs (findTraces locate name skipFuncs maps traces.reverse).1 ↔
      ∀ sample ∈ (findTraces locate name skipFuncs maps traces.reverse).1, none ∉ sample.1 := by
  constructor
  · rintro ⟨_, _, profile, returned, _⟩
    obtain ⟨samples, _, spelled, _⟩ := names_of_create found recorded returned
    rw [spelled]
    exact names_named samples
  · intro names
    obtain ⟨_, profile, paths, samples, returned, spelled, profiled⟩ := create_of_names found recorded names
    refine ⟨_, _, profile, returned, spelled ▸ rows_of_flat profiled.flat, fun func member => ?_⟩
    rw [profiled.functions] at member
    obtain ⟨entry, here, rfl⟩ := List.mem_map.mp member
    obtain ⟨callers, created, _⟩ := callerList_ok profiled here
    obtain ⟨tree, _, built, _⟩ := descendantTree_ok profiled here
    exact ⟨⟨callers, created⟩, ⟨tree, built⟩⟩

end Profiles

/-- `f` that calls itself. -/
theorem completes_iff_recursing :
    Completes locateStart nameStart () recursing 0 [] (findTraces locateStart nameStart [] () recursingTraces.reverse).1 ↔
      ∀ sample ∈ (findTraces locateStart nameStart [] () recursingTraces.reverse).1, none ∉ sample.1 := by
  exact completes_iff recursing_found recursing_recorded locateStart nameStart () []

/-- The target runs code in a mapping of its own: `1000-2000 r-xp 00000000 00:00 0`. -/
def generated : Files where
  maps := some ["1000-2000 r-xp 00000000 00:00 0\n".toList]
  locateInode _ _ _ := none
  stat _ := none
  exe := none
  readBfd _ := none
  demangle name := name

/-- A block was allocated there. -/
def generatedWorld : World where
  blocks := ⟨[some { addr := 16, size := 24, stack := some ⟨0, 0⟩ }]⟩
  stashes := ⟨[some { nodes := [{ address := 4096 }] }]⟩
  processes := [{ blockTable := some ((∅ : BlockTable).insert 16 0) }]

/-- `process_locate_symbol` returns `NULL` for its frame, and no profile is made. -/
theorem generated_stops :
    (findTraces (locateCharPtr 0 (fun _ => generated) id) CharPtr.name [] (some {}) [([4096], 24)]).1 = [([none], 24)] ∧
      ¬ Completes (locateCharPtr 0 (fun _ => generated) id) CharPtr.name (some {}) generatedWorld 0 []
        (findTraces (locateCharPtr 0 (fun _ => generated) id) CharPtr.name [] (some {}) [([4096], 24)]).1 := by
  have nameless : (findTraces (locateCharPtr 0 (fun _ => generated) id) CharPtr.name [] (some {})
      [([4096], 24)]).1 = [([none], 24)] := rfl
  refine ⟨nameless, ?_⟩
  rintro ⟨_, _, _, returned, _⟩
  have found : generatedWorld.process 0 = .ok { blockTable := some ((∅ : BlockTable).insert 16 0) } := rfl
  have trace : Stash.Trace [{ address := 4096 }] (some 0) [4096] := @Stash.Trace.cons _ 0 { address := 4096 } _ rfl .nil
  have recorded : List.Forall₂ (Recorded generatedWorld) [0] [([4096], 24)] :=
    .cons ⟨_, rfl, ⟨_, rfl, trace⟩, rfl⟩ .nil
  obtain ⟨samples, _, spelled, _⟩ := names_of_create found recorded returned
  rw [show [([4096], 24)].reverse = [(([4096] : List Addr), (24 : UInt32))] from rfl] at spelled
  rw [spelled] at nameless
  cases samples with
  | nil => cases nameless
  | cons sample samples => simp [named] at nameless

end Memprof.Nameless
