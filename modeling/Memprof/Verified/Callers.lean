import Memprof.Verified.FlatProfile

/-! # The callers of a function

A node of a function is called by the last symbol of the path before it, or by none.  The
topmost pair of a node has the shortest path that ends with the same two symbols, so every
stack in which a caller calls the function begins with the path of one topmost pair.
-/

namespace Memprof.Callers

open Library Library.Forest Serving CallTree FlatProfile

variable {σ : Type} [DecidableEq σ]

/-! ## The topmost pair -/

/-- `outer` is the shortest path to `symbol` in `whole` after which `symbol` has the caller `key`. -/
structure Topmost (symbol : σ) (key : Option σ) (whole outer : List σ) : Prop where
  below : outer ++ [symbol] <+: whole
  called : outer.getLast? = key
  shortest : ∀ other, other ++ [symbol] <+: whole → other.getLast? = key → outer.length ≤ other.length

omit [DecidableEq σ] in
/-- In one stack there is one. -/
theorem Topmost.unique {symbol : σ} {key : Option σ} {whole whole' stack outer outer' : List σ}
    (topmost : Topmost symbol key whole outer) (topmost' : Topmost symbol key whole' outer')
    (below : outer ++ [symbol] <+: stack) (below' : outer' ++ [symbol] <+: stack) : outer = outer' := by
  -- The shorter one of the two is a candidate in the whole of the other.
  have noLonger : ∀ {short long shortWhole longWhole : List σ}, Topmost symbol key shortWhole short →
      Topmost symbol key longWhole long → short ++ [symbol] <+: long ++ [symbol] → short = long := by
    intro short long shortWhole longWhole topmostShort topmostLong within
    have least := topmostLong.shortest short (within.trans topmostLong.below) topmostShort.called
    have same := within.eq_of_length_le (by simp only [List.length_append, List.length_singleton]; omega)
    exact List.append_cancel_right same
  cases List.prefix_or_prefix_of_prefix below below' with
  | inl within => exact noLonger topmost topmost' within
  | inr within => exact (noLonger topmost' topmost within).symm

section Nodes

variable {profile : Profile σ} {paths : List (List σ)}

/-- Who calls the node at `i`. -/
def callerKey (paths : List (List σ)) (i : ℕ) : Option σ := (paths.getD i []).dropLast.getLast?

omit [DecidableEq σ] in
theorem callerKey_eq {i : ℕ} {outer : List σ} {symbol : σ} (here : paths[i]? = some (outer ++ [symbol])) :
    callerKey paths i = outer.getLast? := by
  have spelled : paths.getD i [] = outer ++ [symbol] := pathOf_some here
  rw [callerKey, spelled, List.dropLast_concat]

omit [DecidableEq σ] in
theorem getLast?_pathOf (indexed : Indexed profile.forest paths) {p : ℕ} {parent : ProfileNode σ}
    (held : profile.forest.nodes[p]? = some parent) : (pathOf paths (some p)).getLast? = some parent.symbol := by
  rw [pathOf_some (indexed.path p parent held), List.getLast?_concat]
  rfl

omit [DecidableEq σ] in
/-- The caller of a node is its parent. -/
theorem callerKey_parent (indexed : Indexed profile.forest paths) {i : ℕ} {node : ProfileNode σ}
    (held : profile.forest.nodes[i]? = some node) :
    callerKey paths i = (pathOf paths node.parent).getLast? :=
  callerKey_eq (indexed.path i node held)

omit [DecidableEq σ] in
theorem exists_parent (indexed : Indexed profile.forest paths) {i p : ℕ} {node : ProfileNode σ}
    (held : profile.forest.nodes[i]? = some node) (isParent : node.parent = some p) :
    ∃ parent, profile.forest.nodes[p]? = some parent :=
  ⟨_, List.getElem?_eq_getElem (indexed.parent_lt held p isParent)⟩

theorem topPair_none (forest : Forest (ProfileNode σ)) (symbol : σ) (fuel : ℕ) (top : Option ℕ × ℕ) :
    topPair forest symbol fuel none top = .ok top := by
  cases fuel <;> rfl

/-- Every call of `symbol` by `caller` on `whole` lies on `path`, or is no higher than the
one below `outer`. -/
def Compared (symbol caller : σ) (whole path outer : List σ) : Prop :=
  ∀ other, other ++ [symbol] <+: whole → other.getLast? = some caller →
    other ++ [symbol] <+: path ∨ outer.length ≤ other.length

omit [DecidableEq σ] in
/-- On a path of one symbol there is no caller. -/
theorem Compared.topmost {symbol caller : σ} {whole path outer : List σ}
    (compared : Compared symbol caller whole path outer) (short : path.length ≤ 1)
    (below : outer ++ [symbol] <+: whole) (called : outer.getLast? = some caller) :
    Topmost symbol (some caller) whole outer := by
  refine ⟨below, called, fun other within calledOther => ?_⟩
  refine (compared other within calledOther).resolve_left fun inside => ?_
  have fits := inside.length_le
  rw [List.length_append, List.length_singleton] at fits
  have empty : other = [] := List.length_eq_zero_iff.mp (by omega)
  rw [empty] at calledOther
  cases calledOther

omit [DecidableEq σ] in
/-- A call further up takes the place of the one that was the highest. -/
theorem compared_of_call {symbol : σ} {whole path : List σ} (below : path ++ [symbol] <+: whole) (caller : σ) :
    Compared symbol caller whole path path := by
  intro other within _
  cases List.prefix_or_prefix_of_prefix within below with
  | inr longer =>
    have fits := longer.length_le
    simp only [List.length_append, List.length_singleton] at fits
    exact .inr (by omega)
  | inl inner =>
    cases List.prefix_concat_iff.mp inner with
    | inl equal => exact .inr (by rw [List.append_cancel_right equal])
    | inr inner => exact .inl inner

omit [DecidableEq σ] in
theorem Compared.above {symbol caller label : σ} {whole path outer : List σ}
    (compared : Compared symbol caller whole (path ++ [label]) outer)
    (different : ¬ (label = symbol ∧ path.getLast? = some caller)) : Compared symbol caller whole path outer := by
  intro other within calledOther
  refine (compared other within calledOther).imp_left fun inside => ?_
  cases List.prefix_concat_iff.mp inside with
  | inl equal =>
    obtain ⟨equalOuter, equalSymbol⟩ := List.append_inj' equal rfl
    rw [equalOuter] at calledOther
    exact absurd ⟨(List.singleton_inj.mp equalSymbol).symm, calledOther⟩ different
  | inr inner => exact inner

/-- The loop goes up from `start`; what is not above it has been compared with the best
pair so far. -/
theorem topPair_ok (indexed : Indexed profile.forest paths) {symbol caller : σ} {whole : List σ} {fuel : ℕ}
    {start : Option ℕ} (enough : ∀ n ∈ start, n < fuel) (inside : ∀ n ∈ start, n < profile.forest.nodes.length)
    (above : pathOf paths start <+: whole) {t i : ℕ} {callee : ProfileNode σ} {outer : List σ}
    (held : profile.forest.nodes[i]? = some callee) (isParent : callee.parent = some t)
    (here : paths[i]? = some (outer ++ [symbol])) (below : outer ++ [symbol] <+: whole)
    (called : outer.getLast? = some caller) (compared : Compared symbol caller whole (pathOf paths start) outer) :
    ∃ j best top, topPair profile.forest symbol fuel start (some t, i) = .ok (best.parent, j) ∧
      profile.forest.nodes[j]? = some best ∧ paths[j]? = some (top ++ [symbol]) ∧
      Topmost symbol (some caller) whole top := by
  induction fuel generalizing start t i callee outer with
  | zero =>
    cases start with
    | some n => exact absurd (enough n rfl) (Nat.not_lt_zero n)
    | none =>
      exact ⟨i, callee, outer, by rw [topPair_none, isParent], held, here, compared.topmost (Nat.zero_le 1) below called⟩
  | succ fuel inductionHypothesis =>
    cases start with
    | none =>
      exact ⟨i, callee, outer, by rw [topPair_none, isParent], held, here, compared.topmost (Nat.zero_le 1) below called⟩
    | some n =>
      obtain ⟨node, heldN⟩ : ∃ node, profile.forest.nodes[n]? = some node :=
        ⟨_, List.getElem?_eq_getElem (inside n rfl)⟩
      have pathN : pathOf paths (some n) = pathOf paths node.parent ++ [node.symbol] :=
        pathOf_some (indexed.path n node heldN)
      rw [pathN] at above compared
      cases isParentN : node.parent with
      | none =>
        rw [isParentN] at compared
        refine ⟨i, callee, outer, ?_, held, here, compared.topmost (Nat.le_refl 1) below called⟩
        simp only [topPair, fetch, heldN, ok_bind, isParentN, isParent]
      | some p =>
        obtain ⟨parent, heldP⟩ := exists_parent indexed heldN isParentN
        obtain ⟨topCaller, heldT⟩ := exists_parent indexed held isParent
        have lastT : topCaller.symbol = caller := by
          have spelled : pathOf paths callee.parent = outer := (indexed.split held here).2
          rw [isParent] at spelled
          rw [← spelled, getLast?_pathOf indexed heldT] at called
          exact Option.some.inj called
        have enoughP : ∀ m ∈ some p, m < fuel := by
          rintro m ⟨⟩
          have := enough n rfl
          have older : p < n := indexed.older n node p heldN isParentN
          omega
        have insideP : ∀ m ∈ some p, m < profile.forest.nodes.length := by
          rintro m ⟨⟩
          exact indexed.parent_lt heldN p isParentN
        rw [isParentN] at above compared
        have aboveP : pathOf paths (some p) <+: whole := (List.prefix_append _ _).trans above
        simp only [topPair, fetch, heldN, ok_bind, isParentN, heldP, heldT, lastT]
        by_cases same : node.symbol = symbol ∧ parent.symbol = caller
        · -- The pair of this node is above all that were compared.
          rw [if_pos same]
          rw [same.1] at above
          have hereN : paths[n]? = some (pathOf paths (some p) ++ [symbol]) := by
            rw [← same.1, ← isParentN]
            exact indexed.path n node heldN
          have calledN : (pathOf paths (some p)).getLast? = some caller := by
            rw [getLast?_pathOf indexed heldP, same.2]
          exact inductionHypothesis enoughP insideP aboveP heldN isParentN hereN above calledN
            (compared_of_call above caller)
        · rw [if_neg same]
          refine inductionHypothesis enoughP insideP aboveP held isParent here below called (compared.above ?_)
          rwa [getLast?_pathOf indexed heldP, Option.some.injEq]

/-- The topmost pair for the node at `i`. -/
theorem topPair_node (indexed : Indexed profile.forest paths) {i : ℕ} {node : ProfileNode σ}
    (held : profile.forest.nodes[i]? = some node) :
    ∃ j best top, topPair profile.forest node.symbol profile.forest.nodes.length node.parent (node.parent, i) =
        .ok (best.parent, j) ∧
      profile.forest.nodes[j]? = some best ∧ paths[j]? = some (top ++ [node.symbol]) ∧
      Topmost node.symbol (callerKey paths i) (paths.getD i []) top := by
  have here := indexed.path i node held
  have spelled : paths.getD i [] = pathOf paths node.parent ++ [node.symbol] := pathOf_some here
  rw [callerKey_parent indexed held, spelled]
  cases isParent : node.parent with
  | none =>
    rw [isParent] at spelled
    refine ⟨i, node, [], by rw [topPair_none, isParent], held, ?_, List.prefix_rfl, rfl, fun _ _ _ => Nat.zero_le _⟩
    rw [here]
    show some (pathOf paths node.parent ++ [node.symbol]) = _
    rw [isParent]
    rfl
  | some p =>
    obtain ⟨parent, heldP⟩ := exists_parent indexed held isParent
    have inside : ∀ n ∈ some p, n < profile.forest.nodes.length := by
      rintro n ⟨⟩
      exact indexed.parent_lt held p isParent
    have hereP : paths[i]? = some (pathOf paths (some p) ++ [node.symbol]) := by
      rw [← isParent]
      exact here
    rw [getLast?_pathOf indexed heldP]
    exact topPair_ok indexed inside inside (List.prefix_append _ _) held isParent hereP List.prefix_rfl
      (getLast?_pathOf indexed heldP) (compared_of_call List.prefix_rfl _)

end Nodes

/-! ## The entries that are made -/

section Entries

variable {forest : Forest (ProfileNode σ)} {paths : List (List σ)}

/-- The entries when the nodes in `done` have been met: the caller of each one, and the
node it points at. -/
structure Made (forest : Forest (ProfileNode σ)) (paths : List (List σ)) (done : List ℕ) (callers : Callers σ)
    (heads : List (Option σ × Option ℕ)) : Prop where
  result : callers.result = heads.map fun head => { node := head.2 }
  distinct : (heads.map Prod.fst).Nodup
  keys : ∀ key, key ∈ heads.map Prod.fst ↔ ∃ i ∈ done, callerKey paths i = key
  symbols : ∀ (caller : σ) (entry : ℕ), callers.callersBySymbol.lookup caller = some entry ↔
    (heads.map Prod.fst)[entry]? = some (some caller)
  spontaneous : ∀ (entry : ℕ), callers.spontaneous = some entry ↔ (heads.map Prod.fst)[entry]? = some none
  nodes : ∀ head ∈ heads, (head.2.bind fun p => forest.nodes[p]?.map ProfileNode.symbol) = head.1
  bare : ∀ head ∈ heads, head.1 = none ↔ head.2 = none

theorem made_start (forest : Forest (ProfileNode σ)) (paths : List (List σ)) : Made forest paths [] {} [] where
  result := rfl
  distinct := List.nodup_nil
  keys _ := by simp
  symbols _ _ := by simp
  spontaneous _ := by simp
  nodes _ member := by cases member
  bare _ member := by cases member

variable {done : List ℕ} {callers : Callers σ} {heads : List (Option σ × Option ℕ)}

/-- A node whose caller has its entry. -/
theorem Made.again (made : Made forest paths done callers heads) {i : ℕ}
    (known : callerKey paths i ∈ heads.map Prod.fst) : Made forest paths (done ++ [i]) callers heads where
  result := made.result
  distinct := made.distinct
  keys key := by
    rw [made.keys] at known ⊢
    obtain ⟨j, member, same⟩ := known
    constructor
    · rintro ⟨k, memberK, called⟩
      exact ⟨k, List.mem_append_left _ memberK, called⟩
    · rintro ⟨k, memberK, called⟩
      cases List.mem_append.mp memberK with
      | inl old => exact ⟨k, old, called⟩
      | inr fresh =>
        rw [List.mem_singleton.mp fresh] at called
        exact ⟨j, member, same.trans called⟩
  symbols := made.symbols
  spontaneous := made.spontaneous
  nodes := made.nodes
  bare := made.bare

omit [DecidableEq σ] in
theorem keys_concat {i : ℕ} (known : ∀ key, key ∈ heads.map Prod.fst ↔ ∃ j ∈ done, callerKey paths j = key)
    (node : Option ℕ) (key : Option σ) :
    key ∈ (heads ++ [(callerKey paths i, node)]).map Prod.fst ↔ ∃ j ∈ done ++ [i], callerKey paths j = key := by
  rw [List.map_append, List.mem_append, known]
  constructor
  · rintro (⟨j, member, called⟩ | fresh)
    · exact ⟨j, List.mem_append_left _ member, called⟩
    · exact ⟨i, by simp, (List.mem_singleton.mp fresh).symm⟩
  · rintro ⟨j, member, called⟩
    cases List.mem_append.mp member with
    | inl old => exact .inl ⟨j, old, called⟩
    | inr fresh =>
      rw [List.mem_singleton.mp fresh] at called
      exact .inr (by simp [called])

/-- A new entry, with its key in one of the two tables. -/
theorem Made.concat (made : Made forest paths done callers heads) {i : ℕ} {key : Option σ} {node : Option ℕ}
    (called : callerKey paths i = key) (fresh : key ∉ heads.map Prod.fst)
    (labelled : (node.bind fun p => forest.nodes[p]?.map ProfileNode.symbol) = key) (bare : key = none ↔ node = none)
    {later : Callers σ} (result : later.result = callers.result ++ [{ node := node }])
    (symbols : ∀ (caller : σ) (entry : ℕ), later.callersBySymbol.lookup caller = some entry ↔
      (heads.map Prod.fst ++ [key])[entry]? = some (some caller))
    (spontaneous : ∀ (entry : ℕ), later.spontaneous = some entry ↔ (heads.map Prod.fst ++ [key])[entry]? = some none) :
    Made forest paths (done ++ [i]) later (heads ++ [(key, node)]) where
  result := by
    rw [result, made.result, List.map_append]
    rfl
  distinct := by
    rw [List.map_append]
    exact (List.nodup_append.mpr ⟨made.distinct, List.nodup_singleton _, by
      rintro known member _ (_ | ⟨_, ⟨⟩⟩) rfl
      exact fresh member⟩)
  keys known := by
    rw [← called]
    exact keys_concat made.keys node known
  symbols caller entry := by
    rw [List.map_append, List.map_singleton]
    exact symbols caller entry
  spontaneous entry := by
    rw [List.map_append, List.map_singleton]
    exact spontaneous entry
  nodes head member := by
    cases List.mem_append.mp member with
    | inl old => exact made.nodes head old
    | inr last =>
      rw [List.mem_singleton.mp last]
      exact labelled
  bare head member := by
    cases List.mem_append.mp member with
    | inl old => exact made.bare head old
    | inr last =>
      rw [List.mem_singleton.mp last]
      exact bare

theorem Made.count (made : Made forest paths done callers heads) :
    callers.result.length = (heads.map Prod.fst).length := by
  rw [made.result]
  simp

/-- A new entry for a node below `p`. -/
theorem Made.below (made : Made forest paths done callers heads) {i p : ℕ} {parent : ProfileNode σ}
    (held : forest.nodes[p]? = some parent) (called : callerKey paths i = some parent.symbol)
    (fresh : some parent.symbol ∉ heads.map Prod.fst) :
    Made forest paths (done ++ [i]) { callers with
      result := callers.result ++ [{ node := some p }]
      callersBySymbol := callers.callersBySymbol.insert parent.symbol callers.result.length }
      (heads ++ [(some parent.symbol, some p)]) := by
  refine made.concat called fresh (by simp [held]) (by simp) rfl (fun caller entry => ?_) (fun entry => ?_)
  · rw [getElem?_concat_iff, made.count]
    by_cases same : caller = parent.symbol
    · subst same
      have absent : (heads.map Prod.fst)[entry]? ≠ some (some parent.symbol) := fun here =>
        fresh (List.mem_of_getElem? here)
      rw [or_iff_right absent, AList.lookup_insert]
      simp [eq_comm]
    · rw [AList.lookup_insert_ne same, made.symbols]
      simp [Ne.symm same]
  · rw [getElem?_concat_iff]
    simp [made.spontaneous]

/-- The entry for a root. -/
theorem Made.outermost (made : Made forest paths done callers heads) {i : ℕ} (called : callerKey paths i = none)
    (fresh : none ∉ heads.map Prod.fst) :
    Made forest paths (done ++ [i]) { callers with
      result := callers.result ++ [{ node := none }]
      spontaneous := some callers.result.length } (heads ++ [(none, none)]) := by
  refine made.concat called fresh rfl (by simp) rfl (fun caller entry => ?_) (fun entry => ?_)
  · rw [getElem?_concat_iff, made.symbols]
    simp
  · have absent : (heads.map Prod.fst)[entry]? ≠ some none := fun here => fresh (List.mem_of_getElem? here)
    rw [getElem?_concat_iff, made.count, or_iff_right absent]
    simp [eq_comm]

theorem Made.lookup_eq_none (made : Made forest paths done callers heads) (caller : σ) :
    callers.callersBySymbol.lookup caller = none ↔ some caller ∉ heads.map Prod.fst := by
  rw [Option.eq_none_iff_forall_ne_some]
  constructor
  · intro absent member
    obtain ⟨entry, here⟩ := List.mem_iff_getElem?.mp member
    exact absent entry ((made.symbols caller entry).mpr here)
  · intro absent entry found
    exact absent (List.mem_of_getElem? ((made.symbols caller entry).mp found))

theorem Made.spontaneous_eq_none (made : Made forest paths done callers heads) :
    callers.spontaneous = none ↔ none ∉ heads.map Prod.fst := by
  rw [Option.eq_none_iff_forall_ne_some]
  constructor
  · intro absent member
    obtain ⟨entry, here⟩ := List.mem_iff_getElem?.mp member
    exact absent entry ((made.spontaneous entry).mpr here)
  · intro absent entry found
    exact absent (List.mem_of_getElem? ((made.spontaneous entry).mp found))

end Entries

section Loops

variable {profile : Profile σ} {paths : List (List σ)} {samples : List (Sample σ)} {done : List ℕ} {callers : Callers σ}
  {heads : List (Option σ × Option ℕ)}

theorem addCaller_ok (indexed : Indexed profile.forest paths) (made : Made profile.forest paths done callers heads)
    {i : ℕ} {node : ProfileNode σ} (held : profile.forest.nodes[i]? = some node) :
    ∃ callers' heads', addCaller profile.forest callers i = .ok callers' ∧
      Made profile.forest paths (done ++ [i]) callers' heads' := by
  have called := callerKey_parent indexed held
  simp only [addCaller, fetch, held, ok_bind]
  cases isParent : node.parent with
  | some p =>
    obtain ⟨parent, heldP⟩ := exists_parent indexed held isParent
    rw [isParent, getLast?_pathOf indexed heldP] at called
    simp only [heldP, ok_bind, Option.isNone_iff_eq_none, made.lookup_eq_none]
    by_cases known : some parent.symbol ∈ heads.map Prod.fst
    · rw [if_neg (not_not_intro known)]
      exact ⟨callers, heads, rfl, made.again (by rw [called]; exact known)⟩
    · rw [if_pos known]
      exact ⟨_, _, rfl, made.below heldP called known⟩
  | none =>
    rw [isParent] at called
    simp only [Option.isNone_iff_eq_none, made.spontaneous_eq_none]
    by_cases known : none ∈ heads.map Prod.fst
    · rw [if_neg (not_not_intro known)]
      exact ⟨callers, heads, rfl, made.again (by rw [called]; exact known)⟩
    · rw [if_pos known]
      exact ⟨_, _, rfl, made.outermost called known⟩

theorem addCallers_ok (indexed : Indexed profile.forest paths) {list : List ℕ}
    (held : ∀ i ∈ list, ∃ node, profile.forest.nodes[i]? = some node)
    (made : Made profile.forest paths done callers heads) :
    ∃ callers' heads', list.foldlM (addCaller profile.forest) callers = .ok callers' ∧
      Made profile.forest paths (done ++ list) callers' heads' := by
  induction list generalizing done callers heads with
  | nil =>
    rw [List.append_nil]
    exact ⟨callers, heads, rfl, made⟩
  | cons i list inductionHypothesis =>
    obtain ⟨node, heldI⟩ := held i (by simp)
    obtain ⟨next, headsNext, ran, madeNext⟩ := addCaller_ok indexed made heldI
    obtain ⟨callers', heads', ranRest, made'⟩ :=
      inductionHypothesis (fun j member => held j (by simp [member])) madeNext
    rw [List.append_assoc, List.singleton_append] at made'
    rw [List.foldlM_cons, ran, ok_bind]
    exact ⟨callers', heads', ranRest, made'⟩

/-- The entry for a node is that of its caller. -/
theorem callerOf_ok (indexed : Indexed profile.forest paths) (made : Made profile.forest paths done callers heads)
    {i : ℕ} {node : ProfileNode σ} (held : profile.forest.nodes[i]? = some node) (member : i ∈ done) :
    ∃ entry, callerOf profile.forest callers node = .ok entry ∧
      (heads.map Prod.fst)[entry]? = some (callerKey paths i) := by
  have called := callerKey_parent indexed held
  obtain ⟨entry, here⟩ := List.mem_iff_getElem?.mp ((made.keys (callerKey paths i)).mpr ⟨i, member, rfl⟩)
  refine ⟨entry, ?_, here⟩
  cases isParent : node.parent with
  | some p =>
    obtain ⟨parent, heldP⟩ := exists_parent indexed held isParent
    rw [isParent, getLast?_pathOf indexed heldP] at called
    rw [called] at here
    simp only [callerOf, isParent, fetch, heldP, ok_bind, (made.symbols parent.symbol entry).mpr here]
  | none =>
    rw [isParent] at called
    rw [called] at here
    have listed : (heads.map Prod.fst)[entry]? = some none := here
    simp only [callerOf, isParent, (made.spontaneous entry).mpr listed]

/-! ## What they are charged -/

theorem modify_heads {β : Type} (distinct : (heads.map Prod.fst).Nodup) {entry : ℕ} {key : Option σ}
    (here : (heads.map Prod.fst)[entry]? = some key) (value : Option σ × Option ℕ → β) (update : β → β) :
    (heads.map value).modify entry update =
      heads.map fun head => if head.1 = key then update (value head) else value head := by
  apply List.ext_getElem?
  intro other
  rw [List.getElem?_modify, List.getElem?_map, List.getElem?_map]
  cases held : heads[other]? with
  | none => rfl
  | some head =>
    have there : (heads.map Prod.fst)[other]? = some head.1 := by rw [List.getElem?_map, held]; rfl
    by_cases same : entry = other
    · subst same
      rw [here] at there
      simp [Option.some.inj there]
    · have different : head.1 ≠ key := by
        intro equal
        rw [equal] at there
        obtain ⟨insideE, atE⟩ := List.getElem?_eq_some_iff.mp here
        obtain ⟨insideO, atO⟩ := List.getElem?_eq_some_iff.mp there
        exact same (distinct.getElem_inj_iff.mp (atE.trans atO.symm))
      simp [same, different]

/-- The stack ends at the node at `i`, which `key` has called. -/
def Ends (paths : List (List σ)) (key : Option σ) (i : ℕ) (stack : List σ) : Prop :=
  callerKey paths i = key ∧ paths.getD i [] = stack

/-- The stack goes through the topmost pair of the node at `i`, whose lower node is `pair i`. -/
def Passes (paths : List (List σ)) (pair : ℕ → ℕ) (key : Option σ) (i : ℕ) (stack : List σ) : Prop :=
  callerKey paths i = key ∧ paths.getD (pair i) [] <+: stack

instance (paths : List (List σ)) (key : Option σ) (i : ℕ) : DecidablePred (Ends paths key i) :=
  fun _ => inferInstanceAs (Decidable (_ ∧ _))

instance (paths : List (List σ)) (pair : ℕ → ℕ) (key : Option σ) (i : ℕ) : DecidablePred (Passes paths pair key i) :=
  fun _ => inferInstanceAs (Decidable (_ ∧ _))

/-- An entry when the nodes in `done` have been charged. -/
def charged (samples : List (Sample σ)) (paths : List (List σ)) (pair : ℕ → ℕ) (done : List ℕ)
    (head : Option σ × Option ℕ) : ProfileFunc where
  node := head.2
  total := weight samples fun stack => ∃ i ∈ done, Passes paths pair head.1 i stack
  self := weight samples fun stack => ∃ i ∈ done, Ends paths head.1 i stack

/-- `pair i` is the lower node of the topmost pair of the node at `i`. -/
structure IsPair (forest : Forest (ProfileNode σ)) (paths : List (List σ)) (symbol : σ) (pair : ℕ → ℕ) (i : ℕ)
    (node best : ProfileNode σ) (top : List σ) : Prop where
  held : forest.nodes[i]? = some node
  labelled : node.symbol = symbol
  ran : topPair forest node.symbol forest.nodes.length node.parent (node.parent, i) = .ok (best.parent, pair i)
  best : forest.nodes[pair i]? = some best
  path : paths[pair i]? = some (top ++ [symbol])
  topmost : Topmost symbol (callerKey paths i) (paths.getD i []) top

structure Charged (samples : List (Sample σ)) (paths : List (List σ)) (forest : Forest (ProfileNode σ)) (pair : ℕ → ℕ)
    (heads : List (Option σ × Option ℕ)) (done : List ℕ) (state : List ProfileFunc × HashTable (Option ℕ) Unit) :
    Prop where
  result : state.1 = heads.map (charged samples paths pair done)
  marked : ∀ caller, (state.2.lookup caller).isSome = true ↔
    ∃ i ∈ done, ∃ best, forest.nodes[pair i]? = some best ∧ best.parent = caller

variable {symbol : σ} {pair : ℕ → ℕ} {i : ℕ}

/-- Nodes of one symbol with one parent are one. -/
theorem IsPair.eq_of_parent {node node' best best' : ProfileNode σ} {top top' : List σ} {j : ℕ}
    (indexed : Indexed profile.forest paths) (isPair : IsPair profile.forest paths symbol pair i node best top)
    (isPair' : IsPair profile.forest paths symbol pair j node' best' top') (same : best.parent = best'.parent) :
    top = top' ∧ pair i = pair j := by
  have upper : pathOf paths best.parent = top := (indexed.split isPair.best isPair.path).2
  have upper' : pathOf paths best'.parent = top' := (indexed.split isPair'.best isPair'.path).2
  rw [← same, upper] at upper'
  have path' := isPair'.path
  rw [← upper'] at path'
  exact ⟨upper', indexed.injective isPair.path path'⟩

omit [DecidableEq σ] in
theorem exists_concat_iff {property : ℕ → Prop} : (∃ j ∈ done ++ [i], property j) ↔
    (∃ j ∈ done, property j) ∨ property i := by
  constructor
  · rintro ⟨j, member, holds⟩
    cases List.mem_append.mp member with
    | inl old => exact .inl ⟨j, old, holds⟩
    | inr fresh => exact .inr (List.mem_singleton.mp fresh ▸ holds)
  · rintro (⟨j, member, holds⟩ | holds)
    · exact ⟨j, List.mem_append_left _ member, holds⟩
    · exact ⟨i, by simp, holds⟩

omit [DecidableEq σ] in
theorem weight_exists_apart (property : ℕ → List σ → Prop) [∀ j, DecidablePred (property j)]
    (apart : ∀ stack, property i stack → ¬ ∃ j ∈ done, property j stack) :
    weight samples (fun stack => ∃ j ∈ done ++ [i], property j stack) =
      weight samples (fun stack => ∃ j ∈ done, property j stack) + weight samples (property i) := by
  rw [← weight_or fun sample _ both => apart sample.1 both.2 both.1]
  exact weight_congr fun sample _ => exists_concat_iff

omit [DecidableEq σ] in
theorem weight_exists_known (property : ℕ → List σ → Prop) [∀ j, DecidablePred (property j)]
    (known : ∀ stack, property i stack → ∃ j ∈ done, property j stack) :
    weight samples (fun stack => ∃ j ∈ done ++ [i], property j stack) =
      weight samples (fun stack => ∃ j ∈ done, property j stack) :=
  weight_congr fun sample _ => exists_concat_iff.trans (or_iff_left_of_imp (known sample.1))

theorem charged_self (indexed : Indexed profile.forest paths) (fresh : i ∉ done)
    (inside : ∀ j ∈ i :: done, ∃ path, paths[j]? = some path) (head : Option σ × Option ℕ) :
    (charged samples paths pair (done ++ [i]) head).self =
      if head.1 = callerKey paths i then (charged samples paths pair done head).self + weight samples (paths.getD i [] = ·)
      else (charged samples paths pair done head).self := by
  by_cases same : head.1 = callerKey paths i
  · rw [if_pos same]
    refine (weight_exists_apart (Ends paths head.1) ?_).trans ?_
    · rintro stack ⟨_, atI⟩ ⟨j, member, _, atJ⟩
      obtain ⟨path, here⟩ := inside i (by simp)
      obtain ⟨path', there⟩ := inside j (by simp [member])
      have spelled : paths.getD i [] = path := pathOf_some here
      have spelled' : paths.getD j [] = path' := pathOf_some there
      rw [← spelled', atJ, ← atI, spelled] at there
      exact fresh (indexed.injective here there ▸ member)
    · congr 1
      exact weight_congr fun sample _ => and_iff_right same.symm
  · rw [if_neg same]
    exact weight_exists_known (Ends paths head.1) fun stack holds => absurd holds.1.symm same

/-- A pair that was charged before adds nothing, and another one is apart from those. -/
theorem charged_total (indexed : Indexed profile.forest paths) {node best : ProfileNode σ} {top : List σ}
    (isPair : IsPair profile.forest paths symbol pair i node best top)
    (pairs : ∀ j ∈ done, ∃ node best top, IsPair profile.forest paths symbol pair j node best top)
    (head : Option σ × Option ℕ) [Decidable (∃ j ∈ done, ∃ other, profile.forest.nodes[pair j]? = some other ∧
      other.parent = best.parent)] :
    (charged samples paths pair (done ++ [i]) head).total =
      if head.1 = callerKey paths i ∧ ¬ ∃ j ∈ done, ∃ other, profile.forest.nodes[pair j]? = some other ∧
          other.parent = best.parent then
        (charged samples paths pair done head).total + weight samples (paths.getD (pair i) [] <+: ·)
      else (charged samples paths pair done head).total := by
  by_cases same : head.1 = callerKey paths i
  · by_cases known : ∃ j ∈ done, ∃ other, profile.forest.nodes[pair j]? = some other ∧ other.parent = best.parent
    · rw [if_neg fun both => both.2 known]
      refine weight_exists_known (Passes paths pair head.1) ?_
      rintro stack ⟨called, below⟩
      obtain ⟨j, member, other, heldOther, parent⟩ := known
      obtain ⟨nodeJ, bestJ, topJ, isPairJ⟩ := pairs j member
      rw [isPairJ.best] at heldOther
      cases heldOther
      obtain ⟨sameTop, samePair⟩ := isPairJ.eq_of_parent indexed isPair parent
      have calledJ : callerKey paths j = callerKey paths i := by
        rw [← isPairJ.topmost.called, ← isPair.topmost.called, sameTop]
      exact ⟨j, member, calledJ.trans called, by rw [samePair]; exact below⟩
    · rw [if_pos ⟨same, known⟩]
      refine (weight_exists_apart (Passes paths pair head.1) ?_).trans ?_
      · rintro stack ⟨calledI, belowI⟩ ⟨j, member, calledJ, belowJ⟩
        obtain ⟨nodeJ, bestJ, topJ, isPairJ⟩ := pairs j member
        have spelledI : paths.getD (pair i) [] = top ++ [symbol] := pathOf_some isPair.path
        have spelledJ : paths.getD (pair j) [] = topJ ++ [symbol] := pathOf_some isPairJ.path
        rw [spelledI] at belowI
        rw [spelledJ] at belowJ
        have topmostJ := isPairJ.topmost
        rw [calledJ, ← calledI] at topmostJ
        have sameTop := topmostJ.unique isPair.topmost belowJ belowI
        have pathJ := isPairJ.path
        rw [sameTop] at pathJ
        have samePair := indexed.injective pathJ isPair.path
        exact known ⟨j, member, best, by rw [samePair]; exact isPair.best, rfl⟩
      · congr 1
        exact weight_congr fun sample _ => and_iff_right same.symm
  · rw [if_neg fun both => same both.1]
    exact weight_exists_known (Passes paths pair head.1) fun stack holds => absurd holds.1.symm same

/-- The self of a node is added where it is not zero. -/
theorem modify_self (distinct : (heads.map Prod.fst).Nodup) {entry : ℕ} {key : Option σ}
    (here : (heads.map Prod.fst)[entry]? = some key) (value : Option σ × Option ℕ → ProfileFunc) (size : UInt32) :
    (if 0 < size then (heads.map value).modify entry fun caller => { caller with self := caller.self + size }
      else heads.map value) =
      heads.map fun head => if head.1 = key then { value head with self := (value head).self + size } else value head := by
  by_cases positive : 0 < size
  · rw [if_pos positive, modify_heads distinct here]
  · have nothing : size = 0 := by
      rw [UInt32.lt_iff_toNat_lt] at positive
      exact UInt32.toNat.inj (by simpa using positive)
    rw [if_neg positive, nothing]
    apply List.map_congr_left
    intro head _
    rw [UInt32.add_zero, ite_self]

/-- After the node at `i`, the caller of its topmost pair is marked as well. -/
theorem IsPair.marked_concat {node best : ProfileNode σ} {top : List σ}
    (isPair : IsPair profile.forest paths symbol pair i node best top) (caller : Option ℕ) :
    (∃ j ∈ done ++ [i], ∃ other, profile.forest.nodes[pair j]? = some other ∧ other.parent = caller) ↔
      (∃ j ∈ done, ∃ other, profile.forest.nodes[pair j]? = some other ∧ other.parent = caller) ∨
        best.parent = caller := by
  rw [exists_concat_iff]
  simp only [isPair.best, Option.some.injEq, exists_eq_left']

/-- What the node at `i` adds to an entry. -/
theorem charged_concat (tree : Tree profile paths samples samples) {node best : ProfileNode σ} {top : List σ}
    (isPair : IsPair profile.forest paths symbol pair i node best top)
    (pairs : ∀ j ∈ done, ∃ node best top, IsPair profile.forest paths symbol pair j node best top) (fresh : i ∉ done)
    (head : Option σ × Option ℕ) [Decidable (∃ j ∈ done, ∃ other, profile.forest.nodes[pair j]? = some other ∧
      other.parent = best.parent)] :
    charged samples paths pair (done ++ [i]) head =
      { node := head.2
        total := if head.1 = callerKey paths i ∧ ¬ ∃ j ∈ done, ∃ other, profile.forest.nodes[pair j]? = some other ∧
            other.parent = best.parent then (charged samples paths pair done head).total + best.total
          else (charged samples paths pair done head).total
        self := if head.1 = callerKey paths i then (charged samples paths pair done head).self + node.self
          else (charged samples paths pair done head).self } := by
  have self : node.self = weight samples (paths.getD i [] = ·) := by
    have path := tree.indexed.path i node isPair.held
    have spelled : paths.getD i [] = _ := pathOf_some path
    rw [spelled]
    exact (tree.counts i node _ isPair.held path).self
  have total : best.total = weight samples (paths.getD (pair i) [] <+: ·) := by
    have spelled : paths.getD (pair i) [] = _ := pathOf_some isPair.path
    rw [spelled]
    exact (tree.counts (pair i) best _ isPair.best isPair.path).total
  have inside : ∀ j ∈ i :: done, ∃ path, paths[j]? = some path := by
    rintro j (_ | ⟨_, old⟩)
    · exact ⟨_, tree.indexed.path i node isPair.held⟩
    · obtain ⟨nodeJ, _, _, isPairJ⟩ := pairs j old
      exact ⟨_, tree.indexed.path j nodeJ isPairJ.held⟩
  rw [self, total, ← charged_self tree.indexed fresh inside, ← charged_total tree.indexed isPair pairs]
  rfl

theorem chargeCaller_ok (tree : Tree profile paths samples samples) {all : List ℕ}
    (made : Made profile.forest paths all callers heads) (subset : ∀ j ∈ done, j ∈ all)
    (pairs : ∀ j ∈ all, ∃ node best top, IsPair profile.forest paths symbol pair j node best top) (member : i ∈ all)
    (fresh : i ∉ done) {state : List ProfileFunc × HashTable (Option ℕ) Unit}
    (before : Charged samples paths profile.forest pair heads done state) :
    ∃ later, chargeCaller profile.forest callers state i = .ok later ∧
      Charged samples paths profile.forest pair heads (done ++ [i]) later := by
  classical
  obtain ⟨node, best, top, isPair⟩ := pairs i member
  obtain ⟨entry, owner, here⟩ := callerOf_ok tree.indexed made isPair.held member
  have step := charged_concat tree isPair (fun j memberJ => pairs j (subset j memberJ)) fresh
  have known : (state.2.lookup best.parent).isSome = true ↔
      ∃ j ∈ done, ∃ other, profile.forest.nodes[pair j]? = some other ∧ other.parent = best.parent :=
    before.marked best.parent
  simp only [chargeCaller, fetch, isPair.held, ok_bind, owner, isPair.ran, isPair.best]
  by_cases marked : (state.2.lookup best.parent).isSome = true
  · have notNone : ¬ (state.2.lookup best.parent).isNone = true := by
      rw [Option.isNone_iff_eq_none, ← Option.not_isSome_iff_eq_none]
      exact not_not_intro marked
    rw [if_neg notNone]
    refine ⟨_, rfl, ?_, ?_⟩
    · simp only [before.result]
      rw [modify_self made.distinct here]
      apply List.map_congr_left
      intro head _
      have again : ¬ (head.1 = callerKey paths i ∧ ¬ ∃ j ∈ done, ∃ other,
          profile.forest.nodes[pair j]? = some other ∧ other.parent = best.parent) := fun both => both.2 (known.mp marked)
      rw [step head, if_neg again]
      split <;> rfl
    · intro caller
      rw [before.marked, isPair.marked_concat]
      exact (or_iff_left_of_imp fun same => same ▸ known.mp marked).symm
  · have isNone : (state.2.lookup best.parent).isNone = true := by simpa using marked
    rw [if_pos isNone]
    refine ⟨_, rfl, ?_, ?_⟩
    · simp only [before.result]
      rw [modify_heads made.distinct here, modify_self made.distinct here]
      apply List.map_congr_left
      intro head _
      rw [step head]
      by_cases same : head.1 = callerKey paths i
      · rw [if_pos same, if_pos same, if_pos ⟨same, fun again => marked (known.mpr again)⟩, if_pos same]
        rfl
      · rw [if_neg same, if_neg same, if_neg fun both => same both.1, if_neg same]
        rfl
    · intro caller
      rw [isPair.marked_concat, ← before.marked]
      by_cases same : caller = best.parent
      · rw [same, AList.lookup_insert]
        simp
      · rw [AList.lookup_insert_ne same]
        exact (or_iff_left (Ne.symm same)).symm

theorem chargeCallers_ok (tree : Tree profile paths samples samples) {all : List ℕ}
    (made : Made profile.forest paths all callers heads)
    (pairs : ∀ j ∈ all, ∃ node best top, IsPair profile.forest paths symbol pair j node best top) {list : List ℕ}
    (split : done ++ list = all) (distinct : all.Nodup) {state : List ProfileFunc × HashTable (Option ℕ) Unit}
    (before : Charged samples paths profile.forest pair heads done state) :
    ∃ later, list.foldlM (chargeCaller profile.forest callers) state = .ok later ∧
      Charged samples paths profile.forest pair heads all later := by
  induction list generalizing done state with
  | nil =>
    rw [List.append_nil] at split
    exact ⟨state, rfl, split ▸ before⟩
  | cons i list inductionHypothesis =>
    have subset : ∀ j ∈ done, j ∈ all := fun j old => split ▸ List.mem_append_left _ old
    have member : i ∈ all := split ▸ List.mem_append_right _ (by simp)
    have fresh : i ∉ done := by
      intro old
      rw [← split] at distinct
      exact (List.nodup_append.mp distinct).2.2 i old i (by simp) rfl
    obtain ⟨next, ran, chargedNext⟩ := chargeCaller_ok tree made subset pairs member fresh before
    have splitNext : (done ++ [i]) ++ list = all := by rw [List.append_assoc]; exact split
    obtain ⟨later, ranRest, chargedLater⟩ := inductionHypothesis splitNext chargedNext
    rw [List.foldlM_cons, ran, ok_bind]
    exact ⟨later, ranRest, chargedLater⟩

end Loops

/-! ## The caller list -/

/-- In `stack` the function is called by `key`, or by nothing. -/
def Calls (symbol : σ) (key : Option σ) (stack : List σ) : Prop :=
  ∃ outer, outer ++ [symbol] <+: stack ∧ outer.getLast? = key

omit [DecidableEq σ] in
theorem calls_some {symbol caller : σ} {stack : List σ} : Calls symbol (some caller) stack ↔
    [caller, symbol] <:+: stack := by
  constructor
  · rintro ⟨outer, ⟨inner, spelled⟩, last⟩
    obtain ⟨upper, rfl⟩ := List.getLast?_eq_some_iff.mp last
    exact ⟨upper, inner, by rw [← spelled]; simp⟩
  · rintro ⟨upper, inner, spelled⟩
    exact ⟨upper ++ [caller], ⟨inner, by rw [← spelled]; simp⟩, by simp⟩

omit [DecidableEq σ] in
theorem calls_none {symbol : σ} {stack : List σ} : Calls symbol none stack ↔ stack.head? = some symbol := by
  constructor
  · rintro ⟨outer, ⟨inner, spelled⟩, last⟩
    rw [List.getLast?_eq_none_iff.mp last] at spelled
    rw [← spelled]
    rfl
  · intro first
    obtain ⟨inner, spelled⟩ := List.head?_eq_some_iff.mp first
    exact ⟨[], ⟨inner, spelled.symm⟩, rfl⟩

omit [DecidableEq σ] in
theorem ends_some {symbol caller : σ} {stack : List σ} :
    (∃ outer, stack = outer ++ [symbol] ∧ outer.getLast? = some caller) ↔ [caller, symbol] <:+ stack := by
  constructor
  · rintro ⟨outer, rfl, last⟩
    obtain ⟨upper, rfl⟩ := List.getLast?_eq_some_iff.mp last
    exact ⟨upper, by simp⟩
  · rintro ⟨upper, rfl⟩
    exact ⟨upper ++ [caller], by simp, by simp⟩

omit [DecidableEq σ] in
theorem ends_none {symbol : σ} {stack : List σ} :
    (∃ outer, stack = outer ++ [symbol] ∧ outer.getLast? = none) ↔ stack = [symbol] := by
  constructor
  · rintro ⟨outer, rfl, last⟩
    rw [List.getLast?_eq_none_iff.mp last]
    rfl
  · rintro rfl
    exact ⟨[], rfl, rfl⟩

section CallerList

variable {profile : Profile σ} {paths : List (List σ)} {samples : List (Sample σ)} {symbol : σ} {list : List ℕ}

theorem exists_caller_iff (profiled : Profiled profile paths samples)
    (listing : ∀ i, i ∈ list ↔ ∃ outer, paths[i]? = some (outer ++ [symbol])) (key : Option σ) :
    (∃ i ∈ list, callerKey paths i = key) ↔ ∃ sample ∈ samples, Calls symbol key sample.1 := by
  constructor
  · rintro ⟨i, member, rfl⟩
    obtain ⟨outer, here⟩ := (listing i).mp member
    obtain ⟨_, sample, memberSample, below⟩ := (profiled.covers _).mp (List.mem_of_getElem? here)
    exact ⟨sample, memberSample, outer, below, (callerKey_eq here).symm⟩
  · rintro ⟨sample, member, outer, below, last⟩
    obtain ⟨i, here⟩ := List.mem_iff_getElem?.mp ((profiled.covers _).mpr ⟨by simp, sample, member, below⟩)
    exact ⟨i, (listing i).mpr ⟨outer, here⟩, (callerKey_eq here).trans last⟩

theorem exists_passes_iff (profiled : Profiled profile paths samples)
    (listing : ∀ i, i ∈ list ↔ ∃ outer, paths[i]? = some (outer ++ [symbol])) {pair : ℕ → ℕ}
    (pairs : ∀ i ∈ list, ∃ node best top, IsPair profile.forest paths symbol pair i node best top) (key : Option σ)
    {sample : Sample σ} (member : sample ∈ samples) :
    (∃ i ∈ list, Passes paths pair key i sample.1) ↔ Calls symbol key sample.1 := by
  constructor
  · rintro ⟨i, memberI, called, below⟩
    obtain ⟨_, _, top, isPair⟩ := pairs i memberI
    have spelled : paths.getD (pair i) [] = _ := pathOf_some isPair.path
    rw [spelled] at below
    exact ⟨top, below, isPair.topmost.called.trans called⟩
  · rintro ⟨outer, below, last⟩
    obtain ⟨i, here⟩ := List.mem_iff_getElem?.mp ((profiled.covers _).mpr ⟨by simp, sample, member, below⟩)
    have memberI := (listing i).mpr ⟨outer, here⟩
    obtain ⟨_, _, top, isPair⟩ := pairs i memberI
    have spelled : paths.getD (pair i) [] = _ := pathOf_some isPair.path
    have spelledI : paths.getD i [] = _ := pathOf_some here
    refine ⟨i, memberI, (callerKey_eq here).trans last, ?_⟩
    rw [spelled]
    have above := isPair.topmost.below
    rw [spelledI] at above
    exact above.trans below

theorem exists_ends_iff (profiled : Profiled profile paths samples)
    (listing : ∀ i, i ∈ list ↔ ∃ outer, paths[i]? = some (outer ++ [symbol])) (key : Option σ) {sample : Sample σ}
    (member : sample ∈ samples) :
    (∃ i ∈ list, Ends paths key i sample.1) ↔ ∃ outer, sample.1 = outer ++ [symbol] ∧ outer.getLast? = key := by
  constructor
  · rintro ⟨i, memberI, called, same⟩
    obtain ⟨outer, here⟩ := (listing i).mp memberI
    have spelled : paths.getD i [] = _ := pathOf_some here
    exact ⟨outer, by rw [← same, spelled], (callerKey_eq here).symm.trans called⟩
  · rintro ⟨outer, same, last⟩
    have below : outer ++ [symbol] <+: sample.1 := by rw [same]
    obtain ⟨i, here⟩ := List.mem_iff_getElem?.mp ((profiled.covers _).mpr ⟨by simp, sample, member, below⟩)
    have spelled : paths.getD i [] = _ := pathOf_some here
    exact ⟨i, (listing i).mpr ⟨outer, here⟩, (callerKey_eq here).trans last, by rw [spelled, same]⟩

/-- One entry for every caller of the function and one without a node if the function is
outermost, with the samples in which the caller calls it in the total of the entry and
those which end with the call in its self. -/
structure CallerList (profile : Profile σ) (samples : List (Sample σ)) (symbol : σ) (func : ProfileFunc)
    (callers : List ProfileFunc) : Prop where
  distinct : (callers.map (funcSymbol profile)).Nodup
  listed : ∀ caller, some caller ∈ callers.map (funcSymbol profile) ↔ ∃ sample ∈ samples, [caller, symbol] <:+: sample.1
  spontaneous : (∃ entry ∈ callers, entry.node = none) ↔ ∃ sample ∈ samples, sample.1.head? = some symbol
  named : ∀ entry ∈ callers, funcSymbol profile entry = none ↔ entry.node = none
  called : ∀ entry ∈ callers, ∀ caller, funcSymbol profile entry = some caller →
    entry.total = weight samples (fun stack => [caller, symbol] <:+: stack) ∧
    entry.self = weight samples (fun stack => [caller, symbol] <:+ stack)
  outermost : ∀ entry ∈ callers, entry.node = none →
    entry.total = weight samples (fun stack => stack.head? = some symbol) ∧
    entry.self = weight samples (fun stack => stack = [symbol])
  selfs : (callers.map ProfileFunc.self).sum = func.self

/-- A sample that ends with the function is counted in the entry of its caller. -/
theorem sum_selfs (profiled : Profiled profile paths samples)
    (listing : ∀ i, i ∈ list ↔ ∃ outer, paths[i]? = some (outer ++ [symbol])) {callers : Callers σ}
    {heads : List (Option σ × Option ℕ)} (made : Made profile.forest paths list callers heads) (pair : ℕ → ℕ) :
    ((heads.map (charged samples paths pair list)).map ProfileFunc.self).sum =
      weight samples (fun stack => stack.getLast? = some symbol) := by
  rw [List.map_map, ← List.sum_toFinset _ (List.Nodup.of_map _ made.distinct)]
  show ∑ head ∈ heads.toFinset, weight samples (fun stack => ∃ i ∈ list, Ends paths head.1 i stack) = _
  apply sum_weight
  · intro sample member ended
    obtain ⟨outer, same⟩ := List.getLast?_eq_some_iff.mp ended
    obtain ⟨j, memberJ, endsJ⟩ := (exists_ends_iff profiled listing outer.getLast? member).mpr ⟨outer, same, rfl⟩
    obtain ⟨head, memberHead, keyed⟩ := List.mem_map.mp ((made.keys outer.getLast?).mpr ⟨j, memberJ, endsJ.1⟩)
    refine ⟨head, List.mem_toFinset.mpr memberHead, ⟨j, memberJ, by rw [keyed]; exact endsJ⟩, ?_⟩
    rintro other memberOther there
    obtain ⟨outer', same', last⟩ := (exists_ends_iff profiled listing other.1 member).mp there
    rw [same] at same'
    rw [← List.append_cancel_right same', ← keyed] at last
    exact List.inj_on_of_nodup_map made.distinct (List.mem_toFinset.mp memberOther) memberHead last.symm
  · rintro sample member head _ ends
    obtain ⟨outer, same, _⟩ := (exists_ends_iff profiled listing head.1 member).mp ends
    rw [same, List.getLast?_concat]

theorem charged_callerList (profiled : Profiled profile paths samples)
    (listing : ∀ i, i ∈ list ↔ ∃ outer, paths[i]? = some (outer ++ [symbol])) {pair : ℕ → ℕ}
    (pairs : ∀ i ∈ list, ∃ node best top, IsPair profile.forest paths symbol pair i node best top)
    {callers : Callers σ} {heads : List (Option σ × Option ℕ)} (made : Made profile.forest paths list callers heads)
    {func : ProfileFunc} (self : func.self = weight samples (fun stack => stack.getLast? = some symbol)) :
    CallerList profile samples symbol func (heads.map (charged samples paths pair list)) := by
  have symbols : ∀ head ∈ heads, funcSymbol profile (charged samples paths pair list head) = head.1 := made.nodes
  have mapped : (heads.map (charged samples paths pair list)).map (funcSymbol profile) = heads.map Prod.fst := by
    rw [List.map_map]
    exact List.map_congr_left symbols
  have total : ∀ head, ∀ {calls : List σ → Prop} [DecidablePred calls],
      (∀ stack, Calls symbol head.1 stack ↔ calls stack) →
      (charged samples paths pair list head).total = weight samples calls := by
    intro head calls _ same
    show weight samples (fun stack => ∃ i ∈ list, Passes paths pair head.1 i stack) = _
    exact weight_congr fun sample member => (exists_passes_iff profiled listing pairs head.1 member).trans (same _)
  have own : ∀ head, ∀ {ends : List σ → Prop} [DecidablePred ends],
      (∀ stack, (∃ outer, stack = outer ++ [symbol] ∧ outer.getLast? = head.1) ↔ ends stack) →
      (charged samples paths pair list head).self = weight samples ends := by
    intro head ends _ same
    show weight samples (fun stack => ∃ i ∈ list, Ends paths head.1 i stack) = _
    exact weight_congr fun sample member => (exists_ends_iff profiled listing head.1 member).trans (same _)
  refine ⟨by rw [mapped]; exact made.distinct, ?_, ?_, ?_, ?_, ?_, ?_⟩
  · intro caller
    rw [mapped, made.keys, exists_caller_iff profiled listing]
    simp only [calls_some]
  · have bare : (∃ entry ∈ heads.map (charged samples paths pair list), entry.node = none) ↔
        none ∈ heads.map Prod.fst := by
      simp only [List.mem_map]
      constructor
      · rintro ⟨_, ⟨head, member, rfl⟩, empty⟩
        exact ⟨head, member, (made.bare head member).mpr empty⟩
      · rintro ⟨head, member, empty⟩
        exact ⟨_, ⟨head, member, rfl⟩, (made.bare head member).mp empty⟩
    rw [bare, made.keys, exists_caller_iff profiled listing]
    simp only [calls_none]
  · intro entry member
    obtain ⟨head, memberHead, rfl⟩ := List.mem_map.mp member
    rw [symbols head memberHead]
    exact made.bare head memberHead
  · intro entry member caller named
    obtain ⟨head, memberHead, rfl⟩ := List.mem_map.mp member
    rw [symbols head memberHead] at named
    exact ⟨total head fun stack => by rw [named]; exact calls_some, own head fun stack => by rw [named]; exact ends_some⟩
  · intro entry member empty
    obtain ⟨head, memberHead, rfl⟩ := List.mem_map.mp member
    have bare : head.1 = none := (made.bare head memberHead).mpr empty
    exact ⟨total head fun stack => by rw [bare]; exact calls_none, own head fun stack => by rw [bare]; exact ends_none⟩
  · rw [self]
    exact sum_selfs profiled listing made pair

theorem callerList_ok (profiled : Profiled profile paths samples) {entry : Sigma fun _ : σ => ℕ}
    (listed : entry ∈ profile.nodesBySymbol.entries) :
    ∃ callers, profileFuncCreateCallerList profile (flatFunc samples entry) = .ok callers ∧
      CallerList profile samples entry.1 (flatFunc samples entry) callers := by
  obtain ⟨symbol, i⟩ := entry
  obtain ⟨list, chain, listing⟩ := Tree.exists_nodes profiled.tree symbol
  rw [HashTable.mem_entries_iff.mp listed] at chain
  have held : ∀ j ∈ list, ∃ node, profile.forest.nodes[j]? = some node := fun j member =>
    ⟨_, List.getElem?_eq_getElem (chain.lt_length j member)⟩
  obtain ⟨made, heads, ranMade, isMade⟩ := addCallers_ok profiled.tree.indexed held (made_start profile.forest paths)
  rw [List.nil_append] at isMade
  have exists_pair : ∀ j ∈ list, ∃ pair, ∃ node best top, profile.forest.nodes[j]? = some node ∧ node.symbol = symbol ∧
      topPair profile.forest node.symbol profile.forest.nodes.length node.parent (node.parent, j) =
        .ok (best.parent, pair) ∧
      profile.forest.nodes[pair]? = some best ∧ paths[pair]? = some (top ++ [symbol]) ∧
      Topmost symbol (callerKey paths j) (paths.getD j []) top := by
    intro j member
    obtain ⟨node, heldJ⟩ := held j member
    obtain ⟨outer, here⟩ := (listing j).mp member
    have labelled : node.symbol = symbol := (profiled.tree.indexed.split heldJ here).1
    obtain ⟨pair, best, top, ran, heldBest, path, topmost⟩ := topPair_node profiled.tree.indexed heldJ
    rw [labelled] at path topmost
    exact ⟨pair, node, best, top, heldJ, labelled, ran, heldBest, path, topmost⟩
  choose! pair isPair using exists_pair
  have pairs : ∀ j ∈ list, ∃ node best top, IsPair profile.forest paths symbol pair j node best top := by
    intro j member
    obtain ⟨node, best, top, heldJ, labelled, ran, heldBest, path, topmost⟩ := isPair j member
    exact ⟨node, best, top, heldJ, labelled, ran, heldBest, path, topmost⟩
  have start : Charged samples paths profile.forest pair heads [] (made.result, ∅) := by
    refine ⟨?_, fun caller => by simp⟩
    rw [isMade.result]
    apply List.map_congr_left
    intro head _
    have nothing : ∀ {property : ℕ → List σ → Prop} [∀ j, DecidablePred (property j)],
        weight samples (fun stack => ∃ j ∈ [], property j stack) = 0 := weight_eq_zero fun _ _ => by simp
    simp only [charged, nothing]
  obtain ⟨later, ranCharged, isCharged⟩ :=
    chargeCallers_ok profiled.tree isMade pairs (List.nil_append list) chain.nodup start
  refine ⟨later.1, ?_, ?_⟩
  · have walked : walk profile.forest.nodes ProfileNode.next profile.forest.nodes.length (some i) = some list :=
      walk_eq chain chain.length_le
    simp only [profileFuncCreateCallerList, flatFunc, walked, ranMade, ok_bind, ranCharged]
  · rw [isCharged.result]
    exact charged_callerList profiled listing pairs isMade rfl

end CallerList

/-- The caller list of a function of a profile. -/
theorem profileFuncCreateCallerList_correct {τ : Type} {locate : τ → Addr → Option σ × τ} {world later : World}
    {p : ProcId} {process : MPProcess} (found : world.process p = .ok process) {traces : List (List Addr × UInt32)}
    (recorded : List.Forall₂ (Recorded world) process.held traces) {symbolOf : Addr → σ} {maps maps' : τ}
    (fixed : Fixed locate (IsFrame traces) symbolOf maps) {name : σ → String} {skipFuncs : List String}
    {profile : Profile σ} (returned : profileCreate locate name maps world p skipFuncs = .ok (later, maps', profile))
    {func : ProfileFunc} (member : func ∈ profile.functions) :
    ∃ symbol callers, funcSymbol profile func = some symbol ∧ profileFuncCreateCallerList profile func = .ok callers ∧
      CallerList profile (keptSamples name skipFuncs symbolOf traces) symbol func callers := by
  obtain ⟨_, _, paths, returned', profiled⟩ := profileCreate_recorded found recorded fixed name skipFuncs
  rw [returned] at returned'
  cases returned'
  rw [profiled.functions] at member
  obtain ⟨entry, listed, rfl⟩ := List.mem_map.mp member
  obtain ⟨callers, ran, correct⟩ := callerList_ok profiled listed
  exact ⟨entry.1, callers, profiled.funcSymbol_eq listed, ran, correct⟩

/-- `f`, which `main` and `f` call. -/
theorem profileFuncCreateCallerList_correct_recursing : ∃ later maps' profile func callers,
    profileCreate locateStart nameStart () recursing 0 [] = .ok (later, maps', profile) ∧ func ∈ profile.functions ∧
      profileFuncCreateCallerList profile func = .ok callers ∧
      CallerList profile [([1, 2], 8), ([1, 2, 2], 24)] 2 func callers := by
  obtain ⟨later, maps', profile, func, returned, member, named⟩ := exists_recursing
  obtain ⟨symbol, callers, named', ran, correct⟩ :=
    profileFuncCreateCallerList_correct recursing_found recursing_recorded (fixed_locateStart _) returned member
  rw [named] at named'
  cases named'
  rw [kept_recursing] at correct
  exact ⟨later, maps', profile, func, callers, returned, member, ran, correct⟩

end Memprof.Callers
