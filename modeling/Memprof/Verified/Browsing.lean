import Memprof.Browsing
import Memprof.Library.Sweep
import Memprof.Verified.Callers
import Memprof.Verified.DescendantRoot

/-! # A profile is browsed without leaving it

The views of the selected function show its descendant tree and its caller list, and each of
their rows leads to the one row of the function list with its symbol.  So whatever the user
does the window shows the function that is selected, unless one is selected that has nothing
of its own at or below it.  Until one is selected the views are those of an earlier profile,
whose rows may lead nowhere.
-/

namespace Memprof.Browsing

open Library Library.Forest CallTree FlatProfile Callers Descendants

variable {σ : Type}

/-! ## The descendants -/

/-- The rows for an array of nodes: the last node comes first, and what is below a node is
below its row. -/
inductive ShowsNodes (name : σ → String) (tree : ProfileDescendantTree σ) :
    List ℕ → List (Row (DescendantsRow σ)) → Prop
  | nil : ShowsNodes name tree [] []
  | cons {i : ℕ} {node : ProfileDescendantTreeNode σ} {ids : List ℕ} {below others : List (Row (DescendantsRow σ))}
      (held : tree.nodes[i]? = some node) (down : ShowsNodes name tree node.children below)
      (next : ShowsNodes name tree ids others) :
      ShowsNodes name tree (i :: ids) (others ++ [.mk (descendantsRow name node) below])

variable {name : σ → String}

/-- A row with what is put below it. -/
theorem changeAt_below {α : Type} (label : α) (below : List (Row α)) (parent : List ℕ) (store : List (Row α)) :
    Row.changeAt (below ++ ·) (parent ++ [0]) (Row.changeAt (.mk label [] :: ·) parent store) =
      Row.changeAt (.mk label below :: ·) parent store := by
  rw [Row.changeAt_append, Row.changeAt_changeAt]
  congr 1
  funext rows
  simp [Row.changeAt, Row.label, Row.rows]

theorem addNodes_ok {tree : ProfileDescendantTree σ} {ids met : List ℕ} (sweep : Sweep tree ids met) {fuel : ℕ}
    (deep : met.length ≤ fuel) : ∃ rows, ShowsNodes name tree ids rows ∧ ∀ parent store,
      ids.foldlM (addNode name tree fuel parent) store = .ok (Row.changeAt (rows ++ ·) parent store) := by
  induction sweep generalizing fuel with
  | nil => exact ⟨[], .nil, fun parent store => by simp [Row.changeAt_unchanged, pure, Except.pure]⟩
  | @cons i node ids below beside held _ _ downHypothesis nextHypothesis =>
    simp only [List.length_cons, List.length_append] at deep
    obtain ⟨fuel, rfl⟩ : ∃ fewer, fuel = fewer + 1 := ⟨fuel - 1, by omega⟩
    obtain ⟨rows, down, ranDown⟩ := @downHypothesis fuel (by omega)
    obtain ⟨others, next, ranNext⟩ := @nextHypothesis (fuel + 1) (by omega)
    refine ⟨_, .cons held down next, fun parent store => ?_⟩
    have ran : addNode name tree (fuel + 1) parent store i =
        .ok (Row.changeAt (.mk (descendantsRow name node) rows :: ·) parent store) := by
      have read : fetch tree i = .ok node := by rw [fetch, held]
      simp only [addNode, read, ok_bind]
      exact (ranDown _ _).trans (congrArg Except.ok (changeAt_below _ rows parent store))
    rw [List.foldlM_cons, ran, ok_bind, ranNext, Row.changeAt_changeAt]
    simp only [List.append_assoc, List.singleton_append]

/-- Every row is that of a node. -/
theorem ShowsNodes.mem_labels {tree : ProfileDescendantTree σ} {ids : List ℕ} {rows : List (Row (DescendantsRow σ))}
    (shows_ : ShowsNodes name tree ids rows) {above : Option (DescendantsRow σ)} {row : DescendantsRow σ}
    (member : row ∈ Row.labels above rows) : ∃ (i : ℕ) (node : ProfileDescendantTreeNode σ),
      tree.nodes[i]? = some node ∧ row = descendantsRow name node := by
  induction shows_ generalizing above with
  | nil => cases member
  | @cons i node ids below others held _ _ downHypothesis nextHypothesis =>
    rw [Row.labels, Row.links_append, Row.links_cons, List.map_append, List.mem_append, List.map_cons,
      List.mem_cons, List.map_append, List.mem_append] at member
    rcases member with other | rfl | deeper | nothing
    · exact nextHypothesis other
    · exact ⟨i, node, held, rfl⟩
    · exact downHypothesis deeper
    · cases nothing

/-! ## The function list -/

/-- The `k`-th function is that of a symbol. -/
def IsFunc (profile : Profile σ) (k : ℕ) (symbol : σ) : Prop :=
  ∃ func, profile.functions[k]? = some func ∧ funcSymbol profile func = some symbol

theorem funcNode_ok {profile : Profile σ} {func : ProfileFunc} {symbol : σ}
    (named : funcSymbol profile func = some symbol) :
    ∃ node, funcNode profile func = .ok node ∧ node.symbol = symbol := by
  obtain ⟨i, isNode, mapped⟩ := Option.bind_eq_some_iff.mp named
  obtain ⟨node, held, labelled⟩ := Option.map_eq_some_iff.mp mapped
  exact ⟨node, by simp only [funcNode, isNode, fetch, held], labelled⟩

theorem IsFunc.read {profile : Profile σ} {k : ℕ} {symbol : σ} (isFunc : IsFunc profile k symbol) :
    ∃ func node, funcAt profile k = .ok func ∧ funcNode profile func = .ok node ∧ node.symbol = symbol := by
  obtain ⟨func, held, named⟩ := isFunc
  obtain ⟨node, read, labelled⟩ := funcNode_ok named
  exact ⟨func, node, by rw [funcAt, held], read, labelled⟩

theorem funcRow_ok {profile : Profile σ} (name : σ → String) {k : ℕ} {symbol : σ} (isFunc : IsFunc profile k symbol) :
    ∃ row, funcRow name profile k = .ok row := by
  obtain ⟨func, node, readFunc, readNode, _⟩ := isFunc.read
  refine ⟨⟨name node.symbol, func.self, func.total, k⟩, ?_⟩
  simp only [funcRow, readFunc, readNode, ok_bind]

theorem funcRow_func {profile : Profile σ} {k : ℕ} {row : FuncRow} (read : funcRow name profile k = .ok row) :
    row.func = k := by
  obtain ⟨func, _, read⟩ := ok_of_bind read
  obtain ⟨node, _, read⟩ := ok_of_bind read
  cases read
  rfl

/-- A symbol has one function. -/
theorem IsFunc.symbol_eq {profile : Profile σ} {k : ℕ} {symbol other : σ} (isFunc : IsFunc profile k symbol)
    (isFunc' : IsFunc profile k other) : symbol = other := by
  obtain ⟨func, held, named⟩ := isFunc
  obtain ⟨func', held', named'⟩ := isFunc'
  rw [held, Option.some.injEq] at held'
  subst held'
  exact Option.some.inj (named.symm.trans named')

/-- Each row is that of a function, and each function has one row. -/
structure Lists (name : σ → String) (profile : Profile σ) (rows : List FuncRow) : Prop where
  read : ∀ row ∈ rows, funcRow name profile row.func = .ok row
  once : (rows.map FuncRow.func).Perm (List.range profile.functions.length)

theorem Lists.perm {profile : Profile σ} {rows rows' : List FuncRow} (lists : Lists name profile rows)
    (perm : rows'.Perm rows) : Lists name profile rows' where
  read row member := lists.read row (perm.mem_iff.mp member)
  once := (perm.map FuncRow.func).trans lists.once

theorem Lists.listed {profile : Profile σ} {rows : List FuncRow} (lists : Lists name profile rows) {k : ℕ}
    {symbol : σ} (isFunc : IsFunc profile k symbol) : ∃ row ∈ rows, row.func = k := by
  obtain ⟨func, held, _⟩ := isFunc
  have inside : k ∈ List.range profile.functions.length := List.mem_range.mpr (List.getElem?_eq_some_iff.mp held).1
  exact List.mem_map.mp (lists.once.mem_iff.mpr inside)

variable [DecidableEq σ]

/-- The search ends at a row of the symbol if there is one, and at none otherwise. -/
theorem findFunc_cases {profile : Profile σ} {rows : List FuncRow}
    (known : ∀ row ∈ rows, ∃ other, IsFunc profile row.func other) (symbol : σ) :
    (∃ k, findFunc profile symbol rows = .ok (some k) ∧ IsFunc profile k symbol) ∨
      findFunc profile symbol rows = .ok none ∧ ∀ row ∈ rows, ¬ IsFunc profile row.func symbol := by
  induction rows with
  | nil => exact .inr ⟨rfl, fun row member => by cases member⟩
  | cons row rows inductionHypothesis =>
    obtain ⟨other, isOther⟩ := known row (by simp)
    obtain ⟨func, node, readFunc, readNode, labelled⟩ := isOther.read
    simp only [findFunc, readFunc, ok_bind, readNode, labelled]
    by_cases same : other = symbol
    · rw [if_pos same]
      exact .inl ⟨row.func, rfl, same ▸ isOther⟩
    · rw [if_neg same]
      refine (inductionHypothesis fun row member => known row (by simp [member])).imp_right fun ⟨found, absent⟩ => ?_
      refine ⟨found, fun row' member isFunc => ?_⟩
      rcases List.mem_cons.mp member with rfl | later
      · exact same (isOther.symbol_eq isFunc)
      · exact absent row' later isFunc

/-! ## The functions of a profile -/

section Functions

variable {profile : Profile σ} {paths : List (List σ)} {samples : List (Sample σ)}

theorem exists_isFunc (profiled : Profiled profile paths samples) {symbol : σ}
    (occurs : ∃ sample ∈ samples, symbol ∈ sample.1) : ∃ k, IsFunc profile k symbol := by
  have member : some symbol ∈ profile.functions.map (funcSymbol profile) := by
    rw [profiled.map_funcSymbol]
    exact List.mem_map_of_mem ((profiled.mem_keys symbol).mpr occurs)
  obtain ⟨func, listed, named⟩ := List.mem_map.mp member
  obtain ⟨k, held⟩ := List.mem_iff_getElem?.mp listed
  exact ⟨k, func, held, named⟩

/-- Two functions have different symbols. -/
theorem IsFunc.unique (profiled : Profiled profile paths samples) {k l : ℕ} {symbol : σ}
    (isFunc : IsFunc profile k symbol) (isFunc' : IsFunc profile l symbol) : k = l := by
  obtain ⟨func, held, named⟩ := isFunc
  obtain ⟨func', held', named'⟩ := isFunc'
  have distinct := profiled.flat.distinct
  have inside : k < (profile.functions.map (funcSymbol profile)).length := by
    rw [List.length_map]
    exact (List.getElem?_eq_some_iff.mp held).1
  refine (List.getElem?_inj inside distinct).mp ?_
  rw [List.getElem?_map, List.getElem?_map, held, held', Option.map_some, Option.map_some, named, named']

theorem IsFunc.entry (profiled : Profiled profile paths samples) {k : ℕ} {symbol : σ}
    (isFunc : IsFunc profile k symbol) : ∃ entry ∈ profile.nodesBySymbol.entries, entry.1 = symbol ∧
      profile.functions[k]? = some (flatFunc samples entry) := by
  obtain ⟨func, held, named⟩ := isFunc
  have member := List.mem_of_getElem? held
  rw [profiled.functions] at member
  obtain ⟨entry, listed, rfl⟩ := List.mem_map.mp member
  rw [profiled.funcSymbol_eq listed] at named
  exact ⟨entry, listed, Option.some.inj named, held⟩

theorem isFunc_of_inside (profiled : Profiled profile paths samples) {k : ℕ} (inside : k < profile.functions.length) :
    ∃ symbol, IsFunc profile k symbol := by
  have held : profile.functions[k]? = some profile.functions[k] := List.getElem?_eq_getElem inside
  have member := List.mem_of_getElem? held
  generalize profile.functions[k] = func at held member
  rw [profiled.functions] at member
  obtain ⟨entry, listed, rfl⟩ := List.mem_map.mp member
  exact ⟨entry.1, _, held, profiled.funcSymbol_eq listed⟩

theorem Lists.known (profiled : Profiled profile paths samples) {name : σ → String} {rows : List FuncRow}
    (lists : Lists name profile rows) : ∀ row ∈ rows, ∃ symbol, IsFunc profile row.func symbol := by
  intro row member
  have inside := lists.once.mem_iff.mp (List.mem_map_of_mem member)
  exact isFunc_of_inside profiled (List.mem_range.mp inside)

/-- `profile_fill` lists every function, and what was selected no longer is. -/
theorem profileFill_ok (profiled : Profiled profile paths samples) (name : σ → String) (pane : ProfilePane σ) :
    ∃ rows, profileFill name profile pane = .ok { pane with profileFuncTreeView := rows, selected := none } ∧
      Lists name profile rows := by
  have each : ∀ k ∈ List.range profile.functions.length, ∃ row, funcRow name profile k = .ok row := by
    intro k member
    obtain ⟨_, isFunc⟩ := isFunc_of_inside profiled (List.mem_range.mp member)
    exact funcRow_ok name isFunc
  obtain ⟨rows, ran, members⟩ := exists_mapM_ok each
  refine ⟨rows, by rw [profileFill, ran, ok_bind], fun row member => ?_, ?_⟩
  · obtain ⟨k, _, ranRow⟩ := (members row).mp member
    rwa [funcRow_func ranRow]
  · rw [map_of_mapM (fun k row read => funcRow_func read) ran]

end Functions

/-! ## The views of a function -/

section Views

variable {profile : Profile σ} {paths : List (List σ)} {samples : List (Sample σ)}

/-- The views are those of the `k`-th function. -/
structure ShowsFunc (name : σ → String) (profile : Profile σ) (k : ℕ) (symbol : σ)
    (descendants : List (Row (DescendantsRow σ))) (callers : List (CallerRow σ)) : Prop where
  isFunc : IsFunc profile k symbol
  hasLeaf : HasLeaf profile symbol
  descends : ∃ func tree root, profile.functions[k]? = some func ∧
    profileFuncCreateDescendantTree profile func = .ok tree ∧ tree.roots = [root] ∧
    ShowsNodes name tree [root] descendants
  called : ∃ func callerList, profile.functions[k]? = some func ∧
    profileFuncCreateCallerList profile func = .ok callerList ∧
    callerList.mapM (callerRow name profile) = .ok callers

/-- Every frame of a trace has the leaf at or below it. -/
theorem hasLeaf_of_trace (tree : Tree profile paths samples samples) {symbol other : σ} {trace : Sample σ}
    (member : trace ∈ traces profile.forest paths symbol) (occurs : other ∈ trace.1) : HasLeaf profile other := by
  obtain ⟨t, _, below⟩ := List.mem_flatMap.mp member
  obtain ⟨i, leaf, rfl⟩ := List.mem_map.mp below
  obtain ⟨node, path, held, positive, spelled, _⟩ := of_decide_eq_true (List.mem_filter.mp leaf).2
  have at_i : paths.getD i [] = path := pathOf_some spelled
  rw [leafSample, at_i] at occurs
  exact ⟨path, i, node, tree.indexed.at_iff.mpr spelled, List.mem_of_mem_drop occurs, held, positive⟩

/-- Whatever is shown as a descendant has something of its own at or below it. -/
theorem hasLeaf_of_descendant (profiled : Profiled profile paths samples) {symbol : σ}
    {tree : ProfileDescendantTree σ} {known : List (List σ)}
    (rest : Rest tree known (traces profile.forest paths symbol)) {i : ℕ}
    {node : ProfileDescendantTreeNode σ} (held : tree.nodes[i]? = some node) : HasLeaf profile node.symbol := by
  have here := rest.trie.indexed.path i node held
  obtain ⟨_, ⟨trace, member, visits⟩ | visits⟩ := (rest.covers _).mp (List.mem_of_getElem? here)
  · exact hasLeaf_of_trace profiled.tree member (visits.subset (List.mem_concat_self ..))
  · exact absurd (visits_nil.mp visits) (List.concat_ne_nil _ _)

theorem occurs_of_hasLeaf (profiled : Profiled profile paths samples) {symbol : σ}
    (hasLeaf : HasLeaf profile symbol) :
    ∃ sample ∈ samples, symbol ∈ sample.1 := by
  obtain ⟨path, i, node, located, occurs, _⟩ := hasLeaf
  obtain ⟨_, sample, member, below⟩ :=
    (profiled.covers _).mp (List.mem_of_getElem? (profiled.tree.indexed.at_iff.mp located))
  exact ⟨sample, member, below.subset occurs⟩

/-- The callers have functions of their own. -/
theorem callerRows_ok (name : σ → String) {callerList : List ProfileFunc} {symbol : σ} {func : ProfileFunc}
    (profiled : Profiled profile paths samples) (correct : CallerList profile samples symbol func callerList) :
    ∃ callers, callerList.mapM (callerRow name profile) = .ok callers ∧
      ∀ row ∈ callers, ∀ caller, row.symbol = some caller → ∃ k, IsFunc profile k caller := by
  have each : ∀ entry ∈ callerList, ∃ row, callerRow name profile entry = .ok row ∧
      ∀ caller, row.symbol = some caller → funcSymbol profile entry = some caller := by
    intro entry member
    have named := correct.named entry member
    cases isNode : entry.node with
    | none =>
      refine ⟨⟨"<spontaneous>", entry.self, entry.total, none⟩, by simp only [callerRow, isNode], fun _ none => ?_⟩
      cases none
    | some i =>
      rw [isNode] at named
      obtain ⟨caller, isCaller⟩ := Option.ne_none_iff_exists'.mp fun none => by cases named.mp none
      have found := isCaller
      obtain ⟨_, same, mapped⟩ := Option.bind_eq_some_iff.mp found
      rw [isNode, Option.some.injEq] at same
      subst same
      obtain ⟨node, held, labelled⟩ := Option.map_eq_some_iff.mp mapped
      refine ⟨⟨name node.symbol, entry.self, entry.total, some node.symbol⟩, ?_, ?_⟩
      · simp only [callerRow, isNode, fetch, held, ok_bind]
      · rintro _ ⟨⟩
        rw [isCaller, labelled]
  obtain ⟨callers, ran, members⟩ := exists_mapM_ok fun entry member => (each entry member).imp fun _ => And.left
  refine ⟨callers, ran, fun row member caller isCaller => ?_⟩
  obtain ⟨entry, listed, ranRow⟩ := (members row).mp member
  obtain ⟨row', ran', named⟩ := each entry listed
  rw [ranRow] at ran'
  cases ran'
  obtain ⟨sample, memberSample, calls⟩ := (correct.listed caller).mp
    (List.mem_map.mpr ⟨entry, listed, named caller isCaller⟩)
  exact exists_isFunc profiled ⟨sample, memberSample, calls.subset (by simp)⟩

/-- The function of a symbol is shown if there is something to show. -/
theorem selection_ok (profiled : Profiled profile paths samples) (name : σ → String) (pane : ProfilePane σ) {k : ℕ}
    {symbol : σ} (isFunc : IsFunc profile k symbol) :
    (HasLeaf profile symbol → ∃ descendants callers, profileSelectionChanged name profile pane k =
        .ok { pane with
          selected := some k
          profileDescendantsTreeView := descendants
          profileCallerTreeView := callers } ∧ ShowsFunc name profile k symbol descendants callers) ∧
      (¬ HasLeaf profile symbol → profileSelectionChanged name profile pane k = .error .nullDereference) := by
  obtain ⟨entry, listed, rfl, held⟩ := isFunc.entry profiled
  obtain ⟨tree, known, ranTree, rest⟩ := descendantTree_ok profiled listed
  have readFunc : funcAt profile k = .ok (flatFunc samples entry) := by rw [funcAt, held]
  constructor
  · intro leaf
    obtain ⟨root, onlyRoot, _⟩ := rest.exists_root (fun trace member => traces_start profiled.tree member)
      ((traces_ne_nil profiled.tree).mpr leaf)
    obtain ⟨callerList, ranCallers, correct⟩ := callerList_ok profiled listed
    obtain ⟨callers, ranRows, _⟩ := callerRows_ok name profiled correct
    have inside : ∀ i ∈ tree.roots, i < tree.nodes.length := by
      intro i member
      obtain ⟨_, here⟩ := rest.trie.indexed.mem_roots.mp member
      rw [← rest.trie.indexed.length]
      exact (List.getElem?_eq_some_iff.mp here).1
    obtain ⟨met, sweep⟩ := rest.trie.indexed.exists_sweep inside
    have size : met.length = tree.nodes.length := by
      rw [(rest.trie.indexed.sweep_perm sweep).length_eq, List.length_range]
    rw [onlyRoot] at sweep
    obtain ⟨descendants, shown, ranNodes⟩ := @addNodes_ok σ name tree _ _ sweep tree.nodes.length size.le
    have ranRoot : addNode name tree tree.nodes.length [] [] root = .ok descendants := by
      have ran := ranNodes [] []
      rw [List.foldlM_cons] at ran
      simpa [Row.changeAt] using ran
    refine ⟨descendants, callers, ?_, isFunc, leaf, ⟨_, tree, root, held, ranTree, onlyRoot, shown⟩,
      ⟨_, callerList, held, ranCallers, ranRows⟩⟩
    simp only [profileSelectionChanged, readFunc, ok_bind, ranTree, onlyRoot, ranRoot, ranCallers, ranRows]
  · intro noLeaf
    have none : traces profile.forest paths entry.1 = [] := by
      by_contra nonempty
      exact noLeaf ((traces_ne_nil profiled.tree).mp nonempty)
    rw [none] at rest
    simp only [profileSelectionChanged, readFunc, ok_bind, ranTree, rest.roots_nil]

end Views

/-! ## Whatever the user does -/

section Browsing

variable {profile : Profile σ} {paths : List (List σ)} {samples : List (Sample σ)} {name : σ → String}

/-- A pane as `profile_fill` leaves it, whatever it showed before, and after what a user can do. -/
inductive Browses (name : σ → String) (profile : Profile σ) : ProfilePane σ → Prop
  | filled {before pane : ProfilePane σ} (ran : profileFill name profile before = .ok pane) :
      Browses name profile pane
  | acts {pane later : ProfilePane σ} {action : Action σ} (browses : Browses name profile pane)
      (possible : action.Possible pane) (ran : perform name profile pane action = .ok later) :
      Browses name profile later

/-- All functions are listed, and the other views are those of the selected one. -/
structure Shows (name : σ → String) (profile : Profile σ) (pane : ProfilePane σ) : Prop where
  lists : Lists name profile pane.profileFuncTreeView
  selected : ∀ k, pane.selected = some k → ∃ symbol,
    ShowsFunc name profile k symbol pane.profileDescendantsTreeView pane.profileCallerTreeView

/-- The action selects the one function of the symbol, or faults if that has nothing of its own. -/
def Leads (name : σ → String) (profile : Profile σ) (pane : ProfilePane σ) (action : Action σ) (symbol : σ) : Prop :=
  (HasLeaf profile symbol ∧ ∃ later k, perform name profile pane action = .ok later ∧ later.selected = some k ∧
      ∀ k', IsFunc profile k' symbol ↔ k' = k) ∨
    (¬ HasLeaf profile symbol ∧ perform name profile pane action = .error .nullDereference)

/-- The row is of another profile, and its symbol has no function in this one. -/
def Stays (name : σ → String) (profile : Profile σ) (pane : ProfilePane σ) (action : Action σ) (symbol : σ) : Prop :=
  pane.selected = none ∧ (∀ k, ¬ IsFunc profile k symbol) ∧ perform name profile pane action = .ok pane

/-- Selecting a function, also the one that is selected. -/
def selects (name : σ → String) (profile : Profile σ) (pane : ProfilePane σ) (k : ℕ) : Except Fault (ProfilePane σ) :=
  if pane.selected = some k then .ok pane else profileSelectionChanged name profile pane k

theorem selects_ok (profiled : Profiled profile paths samples) {pane : ProfilePane σ}
    (shows_ : Shows name profile pane) {k : ℕ} {symbol : σ} (isFunc : IsFunc profile k symbol) :
    (HasLeaf profile symbol ∧ ∃ later, selects name profile pane k = .ok later ∧ later.selected = some k ∧
        Shows name profile later) ∨
      (¬ HasLeaf profile symbol ∧ selects name profile pane k = .error .nullDereference) := by
  by_cases already : pane.selected = some k
  · obtain ⟨symbol', shown⟩ := shows_.selected k already
    obtain ⟨func, held, named⟩ := isFunc
    obtain ⟨func', held', named'⟩ := shown.isFunc
    rw [held, Option.some.injEq] at held'
    subst held'
    rw [named, Option.some.injEq] at named'
    subst named'
    exact .inl ⟨shown.hasLeaf, pane, if_pos already, already, shows_⟩
  · obtain ⟨works, faults⟩ := selection_ok profiled name pane isFunc
    have changes : selects name profile pane k = profileSelectionChanged name profile pane k := if_neg already
    rw [changes]
    by_cases leaf : HasLeaf profile symbol
    · obtain ⟨descendants, callers, ran, shown⟩ := works leaf
      refine .inl ⟨leaf, _, ran, rfl, ⟨shows_.lists, ?_⟩⟩
      rintro _ ⟨⟩
      exact ⟨symbol, shown⟩
    · exact .inr ⟨leaf, faults leaf⟩

theorem goto_cases (profiled : Profiled profile paths samples) {pane : ProfilePane σ}
    (shows_ : Shows name profile pane) (symbol : σ) :
    (∃ k, IsFunc profile k symbol ∧
        profileFuncListGotoSymbol name profile pane symbol = selects name profile pane k) ∨
      (∀ k, ¬ IsFunc profile k symbol) ∧ profileFuncListGotoSymbol name profile pane symbol = .ok pane := by
  rcases findFunc_cases (shows_.lists.known profiled) symbol with ⟨k, found, isFunc⟩ | ⟨found, absent⟩
  · exact .inl ⟨k, isFunc, by simp only [profileFuncListGotoSymbol, found, ok_bind, selects]⟩
  · refine .inr ⟨fun k isFunc => ?_, by simp only [profileFuncListGotoSymbol, found, ok_bind]⟩
    obtain ⟨row, member, rfl⟩ := shows_.lists.listed isFunc
    exact absent row member isFunc

/-- The selected function's callers are listed. -/
theorem Shows.caller_isFunc (profiled : Profiled profile paths samples) {pane : ProfilePane σ}
    (shows_ : Shows name profile pane) {k : ℕ} (selected : pane.selected = some k) {row : CallerRow σ}
    (member : row ∈ pane.profileCallerTreeView) {caller : σ} (isCaller : row.symbol = some caller) :
    ∃ k, IsFunc profile k caller := by
  obtain ⟨symbol, shown⟩ := shows_.selected k selected
  obtain ⟨entry, listed, rfl, held⟩ := shown.isFunc.entry profiled
  obtain ⟨func, callerList, held', ran, ranRows⟩ := shown.called
  rw [held, Option.some.injEq] at held'
  subst held'
  obtain ⟨callerList', ran', correct⟩ := callerList_ok profiled listed
  rw [ran] at ran'
  cases ran'
  obtain ⟨callers, ranRows', named⟩ := callerRows_ok name profiled correct
  rw [ranRows] at ranRows'
  cases ranRows'
  exact named row member caller isCaller

theorem Shows.descendant_hasLeaf (profiled : Profiled profile paths samples) {pane : ProfilePane σ}
    (shows_ : Shows name profile pane) {k : ℕ} (selected : pane.selected = some k) {row : DescendantsRow σ}
    (member : row ∈ Row.labels none pane.profileDescendantsTreeView) : HasLeaf profile row.symbol := by
  obtain ⟨symbol, shown⟩ := shows_.selected k selected
  obtain ⟨entry, listed, rfl, held⟩ := shown.isFunc.entry profiled
  obtain ⟨func, tree, root, held', ran, _, rows⟩ := shown.descends
  rw [held, Option.some.injEq] at held'
  subst held'
  obtain ⟨tree', known, ran', rest⟩ := descendantTree_ok profiled listed
  rw [ran] at ran'
  cases ran'
  obtain ⟨i, node, heldNode, rfl⟩ := rows.mem_labels member
  exact hasLeaf_of_descendant profiled rest heldNode

/-- What an action leads to. -/
def Action.Target (profile : Profile σ) : Action σ → σ → Prop
  | .select row, symbol => IsFunc profile row.func symbol
  | .sort _, _ => False
  | .activateCaller row, symbol => row.symbol = some symbol
  | .activateDescendant row, symbol => row.symbol = symbol

/-- A row of the selected function has a target in the profile. -/
theorem Action.Target.isFunc (profiled : Profiled profile paths samples) {pane : ProfilePane σ}
    (shows_ : Shows name profile pane) {k : ℕ} (selected : pane.selected = some k) {action : Action σ}
    (possible : action.Possible pane) {symbol : σ} (target : action.Target profile symbol) :
    ∃ k, IsFunc profile k symbol := by
  cases action with
  | select row => exact ⟨row.func, target⟩
  | sort rows => exact target.elim
  | activateCaller row => exact shows_.caller_isFunc profiled selected possible target
  | activateDescendant row =>
    cases target
    exact exists_isFunc profiled (occurs_of_hasLeaf profiled (shows_.descendant_hasLeaf profiled selected possible))

theorem perform_target (profiled : Profiled profile paths samples) {pane : ProfilePane σ}
    (shows_ : Shows name profile pane) {action : Action σ} (possible : action.Possible pane) {symbol : σ}
    (target : action.Target profile symbol) :
    (∃ k, IsFunc profile k symbol ∧ perform name profile pane action = selects name profile pane k) ∨
      Stays name profile pane action symbol := by
  have goes : (∃ k, IsFunc profile k symbol ∧ perform name profile pane action = selects name profile pane k) ∨
      (∀ k, ¬ IsFunc profile k symbol) ∧ perform name profile pane action = .ok pane := by
    cases action with
    | select row => exact .inl ⟨row.func, target, rfl⟩
    | sort rows => exact target.elim
    | activateCaller row =>
      simp only [perform, show row.symbol = some symbol from target]
      exact goto_cases profiled shows_ symbol
    | activateDescendant row =>
      cases target
      exact goto_cases profiled shows_ row.symbol
  refine goes.imp_right fun ⟨absent, stays⟩ => ⟨?_, absent, stays⟩
  by_contra selected
  obtain ⟨k, selected⟩ := Option.ne_none_iff_exists'.mp selected
  obtain ⟨k', isFunc⟩ := target.isFunc profiled shows_ selected possible
  exact absent k' isFunc

/-- Only sorting and a caller without a symbol have no target. -/
theorem perform_shows (profiled : Profiled profile paths samples) {pane later : ProfilePane σ}
    (shows_ : Shows name profile pane) {action : Action σ} (possible : action.Possible pane)
    (ran : perform name profile pane action = .ok later) : Shows name profile later := by
  have targeted : ∀ symbol, action.Target profile symbol → Shows name profile later := by
    intro symbol target
    rcases perform_target profiled shows_ possible target with ⟨k, isFunc, performs⟩ | ⟨_, _, stays⟩
    · rw [ran] at performs
      rcases selects_ok profiled shows_ isFunc with ⟨_, later', ran', _, shown⟩ | ⟨_, faulted⟩
      · rw [← performs] at ran'
        cases ran'
        exact shown
      · rw [faulted] at performs
        cases performs
    · rw [ran] at stays
      cases stays
      exact shows_
  cases action with
  | select row =>
    obtain ⟨symbol, isFunc⟩ := shows_.lists.known profiled row possible
    exact targeted symbol isFunc
  | sort rows =>
    cases ran
    exact ⟨shows_.lists.perm possible, shows_.selected⟩
  | activateCaller row =>
    cases isCaller : row.symbol with
    | none =>
      simp only [perform, isCaller] at ran
      cases ran
      exact shows_
    | some symbol => exact targeted symbol isCaller
  | activateDescendant row => exact targeted row.symbol rfl

theorem Browses.shows (profiled : Profiled profile paths samples) {pane : ProfilePane σ}
    (browses : Browses name profile pane) : Shows name profile pane := by
  induction browses with
  | @filled before pane ran =>
    obtain ⟨rows, ran', lists⟩ := profileFill_ok profiled name before
    rw [ran] at ran'
    cases ran'
    exact ⟨lists, fun k none => by cases none⟩
  | acts _ possible ran inductionHypothesis => exact perform_shows profiled inductionHypothesis possible ran

theorem perform_leads (profiled : Profiled profile paths samples) {pane : ProfilePane σ}
    (shows_ : Shows name profile pane) {action : Action σ} (possible : action.Possible pane) {symbol : σ}
    (target : action.Target profile symbol) :
    Leads name profile pane action symbol ∨ Stays name profile pane action symbol := by
  refine (perform_target profiled shows_ possible target).imp_left fun ⟨k, isFunc, performs⟩ => ?_
  rw [Leads, performs]
  rcases selects_ok profiled shows_ isFunc with ⟨leaf, later, ran, selected, _⟩ | ⟨noLeaf, faulted⟩
  · refine .inl ⟨leaf, later, k, ran, selected, fun k' => ⟨fun isFunc' => isFunc'.unique profiled isFunc, ?_⟩⟩
    rintro rfl
    exact isFunc
  · exact .inr ⟨noLeaf, faulted⟩

/-- However a profile was browsed, its window shows the selected function, and every row leads
to the function of its symbol; from the descendants it does so without a fault.  Where nothing
is selected the rows of an earlier profile may lead nowhere. -/
theorem browses_leads {τ : Type} {locate : τ → Addr → Option σ × τ} {skipFuncs : List String} {world later : World}
    {p : ProcId} {maps maps' : τ}
    (returned : profileCreate locate name maps world p skipFuncs = .ok (later, maps', profile))
    {pane : ProfilePane σ} (browses : Browses name profile pane) :
    Shows name profile pane ∧
      (∀ row ∈ pane.profileFuncTreeView, ∃ symbol, IsFunc profile row.func symbol ∧
        Leads name profile pane (.select row) symbol) ∧
      (∀ row ∈ pane.profileCallerTreeView, ∀ symbol, row.symbol = some symbol →
        Leads name profile pane (.activateCaller row) symbol ∨ Stays name profile pane (.activateCaller row) symbol) ∧
      ∀ row ∈ Row.labels none pane.profileDescendantsTreeView,
        (pane.selected ≠ none → HasLeaf profile row.symbol) ∧
        (Leads name profile pane (.activateDescendant row) row.symbol ∨
          Stays name profile pane (.activateDescendant row) row.symbol) := by
  obtain ⟨_, _, profiled⟩ := profiled_of_create returned
  have shown := browses.shows profiled
  refine ⟨shown, fun row member => ?_, fun row member symbol isCaller => ?_,
    fun row member => ⟨fun selected => ?_, ?_⟩⟩
  · obtain ⟨symbol, isFunc⟩ := shown.lists.known profiled row member
    have possible : (Action.select row).Possible pane := member
    refine ⟨symbol, isFunc, (perform_leads profiled shown possible isFunc).resolve_right fun stays => ?_⟩
    exact stays.2.1 row.func isFunc
  · have possible : (Action.activateCaller row).Possible pane := member
    exact perform_leads profiled shown possible isCaller
  · obtain ⟨k, selected⟩ := Option.ne_none_iff_exists'.mp selected
    exact shown.descendant_hasLeaf profiled selected member
  · have possible : (Action.activateDescendant row).Possible pane := member
    exact perform_leads profiled shown possible rfl

end Browsing

/-- Of a profile of an earlier time, with `malloc` among the callers. -/
def earlierPane : ProfilePane Addr where
  profileCallerTreeView := [⟨"malloc", 8, 8, some 3⟩]

def activateMalloc : Action Addr := .activateCaller ⟨"malloc", 8, 8, some 3⟩

def selectF : Action Addr := .select ⟨"f", 32, 32, 0⟩

def activateMain : Action Addr := .activateCaller ⟨"main", 8, 32, some 1⟩

/-- What a user sees who does these in the profile of `f` that calls itself. -/
structure Browsed where
  filled : ProfilePane Addr
  stale : ProfilePane Addr
  chosen : ProfilePane Addr
  pane : ProfilePane Addr

def browseRecursing : Except Fault Browsed := do
  let created ← profileCreate locateStart nameStart () recursing 0 []
  let filled ← profileFill nameStart created.2.2 earlierPane
  let stale ← perform nameStart created.2.2 filled activateMalloc
  let chosen ← perform nameStart created.2.2 stale selectF
  let pane ← perform nameStart created.2.2 chosen activateMain
  .ok ⟨filled, stale, chosen, pane⟩

/-- A row of the earlier profile leads nowhere; `f` is selected and then its caller `main`,
whose descendants all lead somewhere. -/
theorem browses_leads_recursing : ∃ later maps' profile filled stale chosen pane,
    profileCreate locateStart nameStart () recursing 0 [] = .ok (later, maps', profile) ∧
      profileFill nameStart profile earlierPane = .ok filled ∧
      perform nameStart profile filled activateMalloc = .ok stale ∧ stale.selected = none ∧
      perform nameStart profile stale selectF = .ok chosen ∧ chosen.selected = some 0 ∧
      perform nameStart profile chosen activateMain = .ok pane ∧ pane.selected = some 1 ∧
      Shows nameStart profile pane ∧
      (Row.labels none pane.profileDescendantsTreeView).map DescendantsRow.name = ["main", "f"] ∧
      ∀ row ∈ Row.labels none pane.profileDescendantsTreeView, HasLeaf profile row.symbol ∧
        Leads nameStart profile pane (.activateDescendant row) row.symbol := by
  obtain ⟨⟨filled, stale, chosen, pane⟩, browsed, malloc, f, main, none, zero, one, names⟩ :
      ∃ all, browseRecursing = .ok all ∧ activateMalloc.Possible all.filled ∧ selectF.Possible all.stale ∧
        activateMain.Possible all.chosen ∧ all.stale.selected = none ∧ all.chosen.selected = some 0 ∧
        all.pane.selected = some 1 ∧
        (Row.labels none all.pane.profileDescendantsTreeView).map DescendantsRow.name = ["main", "f"] :=
    exists_ok_of_any (by decide +kernel)
  obtain ⟨⟨later, maps', profile⟩, returned, browsed⟩ := ok_of_bind browsed
  obtain ⟨_, ranFill, browsed⟩ := ok_of_bind browsed
  obtain ⟨_, ranStale, browsed⟩ := ok_of_bind browsed
  obtain ⟨_, ranChosen, browsed⟩ := ok_of_bind browsed
  obtain ⟨_, ranPane, browsed⟩ := ok_of_bind browsed
  cases browsed
  have browses : Browses nameStart profile pane :=
    (((Browses.filled ranFill).acts malloc ranStale).acts f ranChosen).acts main ranPane
  obtain ⟨shown, _, _, leads⟩ := browses_leads returned browses
  refine ⟨later, maps', profile, filled, stale, chosen, pane, returned, ranFill, ranStale, none, ranChosen, zero,
    ranPane, one, shown, names, fun row member => ?_⟩
  have something : pane.selected ≠ Option.none := fun nothing => by cases one.symm.trans nothing
  obtain ⟨leaf, leads⟩ := leads row member
  exact ⟨leaf something, leads.resolve_right fun stays => something stays.1⟩

end Memprof.Browsing
