import Memprof.Verified.DescendantTree

/-! # From a leaf up to its top

`add_leaf_to_tree` climbs from a leaf until it is above the node that the leaves were listed
below, and stops at `NULL` as well.  The paths of the nodes show that there is always a way
up to the node, so that the second test never ends the loop before the first one does.
-/

namespace Memprof.Descendants

open Library Library.Forest CallTree FlatProfile

variable {σ : Type}

/-- The loop of `add_leaf_to_tree` without its test for `NULL`. -/
def leafTraceUntested (forest : Forest (ProfileNode σ)) (stop : Option ℕ) :
    ℕ → Option ℕ → List (ProfileNode σ) → Except Fault (List (ProfileNode σ))
  | _, none, trace => if none = stop then .ok trace else .error .nullDereference
  | fuel, some i, trace =>
    if some i = stop then .ok trace
    else
      match fuel with
      | 0 => .error .brokenChain
      | fuel + 1 => do
        let node ← fetch forest i
        leafTraceUntested forest stop fuel node.parent (node :: trace)

theorem leafTrace_stop (forest : Forest (ProfileNode σ)) (stop : Option ℕ) (fuel : ℕ) (trace : List (ProfileNode σ)) :
    leafTrace forest stop fuel stop trace = .ok trace ∧ leafTraceUntested forest stop fuel stop trace = .ok trace := by
  cases stop with
  | none => cases fuel <;> exact ⟨rfl, if_pos rfl⟩
  | some i => cases fuel <;> exact ⟨if_pos rfl, if_pos rfl⟩

/-- Where the loop does not need the test it makes no difference. -/
theorem leafTrace_of_untested {forest : Forest (ProfileNode σ)} {stop : Option ℕ} {fuel : ℕ} {start : Option ℕ}
    {trace later : List (ProfileNode σ)} (returned : leafTraceUntested forest stop fuel start trace = .ok later) :
    leafTrace forest stop fuel start trace = .ok later := by
  induction fuel generalizing start trace with
  | zero =>
    by_cases ended : start = stop
    · subst ended
      rw [(leafTrace_stop forest start 0 trace).2] at returned
      rw [(leafTrace_stop forest start 0 trace).1, returned]
    · cases start with
      | none =>
        rw [leafTraceUntested, if_neg ended] at returned
        cases returned
      | some i =>
        rw [leafTraceUntested, if_neg ended] at returned
        cases returned
  | succ fuel inductionHypothesis =>
    by_cases ended : start = stop
    · subst ended
      rw [(leafTrace_stop forest start _ trace).2] at returned
      rw [(leafTrace_stop forest start _ trace).1, returned]
    · cases start with
      | none =>
        rw [leafTraceUntested, if_neg ended] at returned
        cases returned
      | some i =>
        rw [leafTraceUntested, if_neg ended] at returned
        obtain ⟨node, held, returned⟩ := ok_of_bind returned
        rw [leafTrace, if_neg ended]
        simp only [held, ok_bind]
        exact inductionHypothesis returned

/-- The loop takes the nodes of a way up to `top`, and no more. -/
theorem leafTraceUntested_segment {forest : Forest (ProfileNode σ)}
    (older : Older forest.nodes ProfileNode.parent) {t : ℕ} {top : ProfileNode σ}
    (held : forest.nodes[t]? = some top) {i : ℕ} {climb : List ℕ}
    (segment : Segment forest.nodes ProfileNode.parent t i climb) {fuel : ℕ} (enough : i < fuel)
    (trace : List (ProfileNode σ)) :
    ∃ nodes : List (ProfileNode σ), nodes.map some = climb.map (forest.nodes[·]?) ∧
      leafTraceUntested forest top.parent fuel (some i) trace = .ok (nodes.reverse ++ trace) := by
  -- The loop ends at a node older than all it meets.
  have notStop : ∀ {j}, t ≤ j → some j ≠ top.parent := by
    intro j after isStop
    exact absurd (older t top j held isStop.symm) (Nat.not_lt.mpr after)
  induction segment generalizing fuel trace with
  | single _ =>
    obtain ⟨fuel, rfl⟩ : ∃ fewer, fuel = fewer + 1 := ⟨fuel - 1, by omega⟩
    refine ⟨[top], by simp [held], ?_⟩
    rw [leafTraceUntested, if_neg (notStop (Nat.le_refl t))]
    simp only [fetch, held, ok_bind, leafTrace_stop]
    rfl
  | @cons i j node rest heldI linked onward inductionHypothesis =>
    have before := older i node j heldI linked
    obtain ⟨fuel, rfl⟩ : ∃ fewer, fuel = fewer + 1 := ⟨fuel - 1, by omega⟩
    obtain ⟨nodes, spelled, ran⟩ := @inductionHypothesis fuel (by omega) (node :: trace)
    refine ⟨node :: nodes, by rw [List.map_cons, List.map_cons, spelled, heldI], ?_⟩
    rw [leafTraceUntested, if_neg (notStop (Nat.le_of_lt (Nat.lt_of_le_of_lt (onward.last_le older) before)))]
    simp only [fetch, heldI, ok_bind, linked, ran, List.reverse_cons, List.append_assoc, List.singleton_append]

section ReachesTop

variable [DecidableEq σ] {forest : Forest (ProfileNode σ)} {paths : List (List σ)}

/-- The links lead from `leaf` up to `t`, and the nodes on this way, from the top down, are the
trace that is added for the leaf, with or without the test for `NULL`. -/
def ReachesTop (forest : Forest (ProfileNode σ)) (t leaf : ℕ) : Prop :=
  ∃ (climb : List ℕ) (top node : ProfileNode σ) (trace : List (ProfileNode σ)),
    Segment forest.nodes ProfileNode.parent t leaf climb ∧
    forest.nodes[t]? = some top ∧ forest.nodes[leaf]? = some node ∧
    trace.map some = climb.reverse.map (forest.nodes[·]?) ∧
    trace.head? = some top ∧ trace.getLast? = some node ∧
    leafTrace forest top.parent forest.nodes.length (some leaf) [] = .ok trace ∧
    leafTraceUntested forest top.parent forest.nodes.length (some leaf) [] = .ok trace ∧
    ∀ tree, addLeafToTree forest top tree leaf = addTraceToTree tree trace node.self

theorem reachesTop (indexed : Indexed forest paths) {t leaf : ℕ} {upper : List σ} (above : paths[t]? = some upper)
    (isLeaf : IsLeaf forest paths upper leaf) : ReachesTop forest t leaf := by
  obtain ⟨node, here, held, _, at_leaf, below⟩ := isLeaf
  obtain ⟨top, heldTop⟩ := indexed.node_of_path above
  obtain ⟨climb, segment⟩ := indexed.exists_segment above at_leaf below
  obtain ⟨nodes, spelled, ran⟩ :=
    leafTraceUntested_segment indexed.older heldTop segment (List.getElem?_eq_some_iff.mp held).1 []
  rw [List.append_nil] at ran
  obtain ⟨first, last⟩ := segment.ends
  have ranTested := leafTrace_of_untested ran
  refine ⟨climb, top, node, nodes.reverse, segment, heldTop, held, ?_, ?_, ?_, ranTested, ran, fun tree => ?_⟩
  · rw [List.map_reverse, spelled, List.map_reverse]
  · have ended : (nodes.map some).getLast? = some (some top) := by
      rw [spelled, List.getLast?_map, last, Option.map_some, heldTop]
    rw [List.head?_reverse]
    simpa using ended
  · have began : (nodes.map some).head? = some (some node) := by
      rw [spelled, List.head?_map, first, Option.map_some, held]
    rw [List.getLast?_reverse]
    simpa using began
  · simp only [addLeafToTree, ranTested, ok_bind, fetch, held]

/-- The links lead from `leaf` up to `t`, and it has something of its own. -/
def IsLeafBelow (forest : Forest (ProfileNode σ)) (t leaf : ℕ) : Prop :=
  ∃ climb node, Segment forest.nodes ProfileNode.parent t leaf climb ∧ forest.nodes[leaf]? = some node ∧ 0 < node.self

omit [DecidableEq σ] in
theorem isLeaf_iff_below (indexed : Indexed forest paths) {t : ℕ} {upper : List σ} (above : paths[t]? = some upper)
    {leaf : ℕ} : IsLeaf forest paths upper leaf ↔ IsLeafBelow forest t leaf := by
  constructor
  · rintro ⟨node, here, held, positive, at_leaf, below⟩
    obtain ⟨climb, segment⟩ := indexed.exists_segment above at_leaf below
    exact ⟨climb, node, segment, held, positive⟩
  · rintro ⟨climb, node, segment, held, positive⟩
    obtain ⟨path, at_leaf, below⟩ := indexed.prefix_of_segment above segment
    exact ⟨node, path, held, positive, at_leaf, below⟩

/-- In a profile every leaf that is listed below a node of a function has its way up to it, and
all that are below it are listed. -/
theorem leaves_reach_top {τ : Type} {locate : τ → Addr → Option σ × τ} {name : σ → String} {skipFuncs : List String}
    {world later : World} {p : ProcId} {maps maps' : τ} {profile : Profile σ}
    (returned : profileCreate locate name maps world p skipFuncs = .ok (later, maps', profile)) {func : ProfileFunc}
    (member : func ∈ profile.functions) :
    ∃ chain, walk profile.forest.nodes ProfileNode.next profile.forest.nodes.length func.node = some chain ∧
      ∀ t ∈ chain, ∃ leaves, nodeListLeaves profile.forest profile.forest.nodes.length t [] = .ok leaves ∧
        (∀ leaf, leaf ∈ leaves ↔ IsLeafBelow profile.forest t leaf) ∧
        ∀ leaf ∈ leaves, ReachesTop profile.forest t leaf := by
  obtain ⟨samples, paths, profiled⟩ := profiled_of_create returned
  have indexed := profiled.tree.indexed
  rw [profiled.functions] at member
  obtain ⟨⟨symbol, i⟩, listed, rfl⟩ := List.mem_map.mp member
  obtain ⟨list, chain, listing⟩ := profiled.tree.chains symbol
  rw [HashTable.mem_entries_iff.mp listed] at chain
  refine ⟨list, walk_eq chain chain.length_le, fun t memberT => ?_⟩
  obtain ⟨top, held, _⟩ := (listing t).mp memberT
  have above := indexed.path t top held
  obtain ⟨leaves, ran, _, members⟩ := nodeListLeaves_ok indexed (Nat.le_add_left _ _) above []
  rw [List.append_nil] at ran
  exact ⟨leaves, ran, fun leaf => (members leaf).trans (isLeaf_iff_below indexed above),
    fun leaf memberLeaf => reachesTop indexed above ((members leaf).mp memberLeaf)⟩

/-- `f` that calls itself, and what it allocated either way. -/
theorem leaves_reach_top_recursing : ∃ later maps' profile func,
    profileCreate locateStart nameStart () recursing 0 [] = .ok (later, maps', profile) ∧ func ∈ profile.functions ∧
    walk profile.forest.nodes ProfileNode.next profile.forest.nodes.length func.node = some [2, 1] ∧
    nodeListLeaves profile.forest profile.forest.nodes.length 1 [] = .ok [2, 1] ∧
    ReachesTop profile.forest 1 1 ∧ ReachesTop profile.forest 1 2 := by
  obtain ⟨⟨later, maps', profile⟩, returned, first, walked, listed⟩ :
      ∃ created, profileCreate locateStart nameStart () recursing 0 [] = .ok created ∧
        created.2.2.functions.head?.isSome = true ∧
        (created.2.2.functions.head?.map fun func =>
          walk created.2.2.forest.nodes ProfileNode.next created.2.2.forest.nodes.length func.node) =
            some (some [2, 1]) ∧
        (nodeListLeaves created.2.2.forest created.2.2.forest.nodes.length 1 []).toOption = some [2, 1] :=
    exists_ok_of_any (by decide +kernel)
  obtain ⟨func, isFirst⟩ := Option.isSome_iff_exists.mp first
  rw [isFirst] at walked
  have chained := Option.some.inj walked
  have leaves := ok_of_toOption listed
  have member : func ∈ profile.functions := List.mem_of_head? isFirst
  obtain ⟨chain, walked', reached⟩ := leaves_reach_top returned member
  cases chained.symm.trans walked'
  obtain ⟨all, listed', _, tops⟩ := reached 1 (by simp)
  cases leaves.symm.trans listed'
  exact ⟨later, maps', profile, func, returned, member, chained, leaves, tops 1 (by simp), tops 2 (by simp)⟩

end ReachesTop

end Memprof.Descendants
