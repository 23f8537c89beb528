import Memprof.Saving
import Memprof.Verified.Callers
import Memprof.Verified.DescendantRoot

/-! # Saved percentages

A percentage is computed from a product that wraps around and printed as an `int`.  One that
went wrong is always smaller than the exact one, so nothing is printed that should not be;
and what is printed is right as a whole only if every share in it is.
-/

namespace Memprof.Saving

open Library Library.Forest CallTree FlatProfile Callers Descendants

theorem reduceOption_map {α β : Type} (f : α → Option β) (items : List α) :
    (items.map f).reduceOption = items.filterMap f := List.filterMap_map

/-! ## One share -/

section Share

/-- The line of a share, over the naturals. -/
def exactShare (whole self total : UInt32) (name : String) : Option OutputLine :=
  if whole.toNat ≤ 100 * total.toNat then
    some {
      self := formatInt self
      total := formatInt total
      percent := (100 * total.toNat / whole.toNat : ℕ)
      name := name }
  else none

/-- What `outputShare` comes to, where it does not divide by zero. -/
def computedShare (whole self total : UInt32) (name : String) : Option OutputLine :=
  if total * 100 / whole < 1 then none
  else
    some {
      self := formatInt self
      total := formatInt total
      percent := formatInt (total * 100 / whole)
      name := name }

/-- The product fits in a `guint`, and the percentage in an `int`. -/
def Fits (whole total : UInt32) : Prop :=
  100 * total.toNat < 2 ^ 32 ∧ 100 * total.toNat < 2 ^ 31 * whole.toNat

variable {whole self total : UInt32} {name : String}

theorem outputShare_ok (positive : whole ≠ 0) :
    outputShare whole self total name = .ok (computedShare whole self total name) := by
  simp only [outputShare, if_neg positive, computedShare]
  split <;> rfl

theorem formatInt_eq (n : UInt32) : formatInt n = if n.toNat < 2 ^ 31 then (n.toNat : ℤ) else n.toNat - 2 ^ 32 := by
  rw [formatInt, BitVec.toInt_eq_toNat_cond, UInt32.toNat_toBitVec]
  have half : 2 * n.toNat < 2 ^ 32 ↔ n.toNat < 2 ^ 31 := by omega
  simp only [half, Nat.cast_pow, Nat.cast_ofNat]

theorem percent_toNat (whole total : UInt32) :
    (total * 100 / whole).toNat = 100 * total.toNat % 2 ^ 32 / whole.toNat := by
  rw [UInt32.toNat_div, UInt32.toNat_mul, mul_comm]
  rfl

theorem percent_lt_one (whole total : UInt32) :
    total * 100 / whole < 1 ↔ 100 * total.toNat % 2 ^ 32 / whole.toNat = 0 := by
  rw [UInt32.lt_iff_toNat_lt, percent_toNat]
  exact Nat.lt_one_iff

theorem computedShare_eq_none : computedShare whole self total name = none ↔
    100 * total.toNat % 2 ^ 32 / whole.toNat = 0 := by
  rw [← percent_lt_one, computedShare]
  simp

/-- What wrapped around has become smaller. -/
theorem wrapped_le (whole total : UInt32) :
    100 * total.toNat % 2 ^ 32 / whole.toNat ≤ 100 * total.toNat / whole.toNat :=
  Nat.div_le_div_right (Nat.mod_le _ _)

/-- By a whole percent at least. -/
theorem wrapped_lt (positive : whole ≠ 0) (wraps : 2 ^ 32 ≤ 100 * total.toNat) :
    100 * total.toNat % 2 ^ 32 / whole.toNat < 100 * total.toNat / whole.toNat := by
  have isPositive : 0 < whole.toNat := UInt32.lt_iff_toNat_lt.mp (UInt32.pos_iff_ne_zero.mpr positive)
  have bound := whole.toNat_lt
  have once : 100 * total.toNat % 2 ^ 32 + whole.toNat ≤ 100 * total.toNat := by omega
  calc 100 * total.toNat % 2 ^ 32 / whole.toNat
    _ < (100 * total.toNat % 2 ^ 32 + whole.toNat) / whole.toNat := by
        rw [Nat.add_div_right _ isPositive]
        exact Nat.lt_succ_self _
    _ ≤ 100 * total.toNat / whole.toNat := Nat.div_le_div_right once

theorem exactShare_of_computed (positive : whole ≠ 0) (printed : computedShare whole self total name ≠ none) :
    exactShare whole self total name ≠ none := by
  rw [Ne, computedShare_eq_none] at printed
  have isPositive : 0 < whole.toNat := UInt32.lt_iff_toNat_lt.mp (UInt32.pos_iff_ne_zero.mpr positive)
  have least : 0 < 100 * total.toNat / whole.toNat :=
    lt_of_lt_of_le (Nat.pos_of_ne_zero printed) (wrapped_le whole total)
  rw [exactShare, if_pos ((Nat.div_pos_iff.mp least).2)]
  simp

/-- A share is printed right exactly if it fits. -/
theorem computedShare_eq_exactShare_iff (positive : whole ≠ 0) :
    computedShare whole self total name = exactShare whole self total name ↔ Fits whole total := by
  have isPositive : 0 < whole.toNat := UInt32.lt_iff_toNat_lt.mp (UInt32.pos_iff_ne_zero.mpr positive)
  have bound := whole.toNat_lt
  constructor
  · intro same
    by_contra unfit
    have large : whole.toNat ≤ 100 * total.toNat := by
      unfold Fits at unfit
      by_cases wraps : 100 * total.toNat < 2 ^ 32
      · have : ¬ 100 * total.toNat < 2 ^ 31 * whole.toNat := fun short => unfit ⟨wraps, short⟩
        omega
      · omega
    rw [exactShare, if_pos large, computedShare] at same
    split at same
    · cases same
    · simp only [Option.some.injEq, OutputLine.mk.injEq, true_and, and_true] at same
      rw [formatInt_eq, percent_toNat] at same
      by_cases wraps : 2 ^ 32 ≤ 100 * total.toNat
      · have smaller := wrapped_lt positive wraps
        split at same <;> omega
      · -- The percentage is exact, but printed as a negative number.
        have huge : 2 ^ 31 * whole.toNat ≤ 100 * total.toNat := not_lt.mp fun short => unfit ⟨not_le.mp wraps, short⟩
        rw [Nat.mod_eq_of_lt (not_le.mp wraps)] at same
        have many : 2 ^ 31 ≤ 100 * total.toNat / whole.toNat := (Nat.le_div_iff_mul_le isPositive).mpr huge
        rw [if_neg (not_lt.mpr many)] at same
        omega
  · rintro ⟨fits, printable⟩
    have few : 100 * total.toNat / whole.toNat < 2 ^ 31 := (Nat.div_lt_iff_lt_mul isPositive).mpr printable
    by_cases small : 100 * total.toNat < whole.toNat
    · rw [exactShare, if_neg (not_le.mpr small), computedShare_eq_none, Nat.mod_eq_of_lt fits, Nat.div_eq_of_lt small]
    · have least : ¬ total * 100 / whole < 1 := by
        rw [percent_lt_one, Nat.mod_eq_of_lt fits]
        exact (Nat.div_pos (not_lt.mp small) isPositive).ne'
      rw [exactShare, if_pos (not_lt.mp small), computedShare, if_neg least,
        formatInt_eq (total * 100 / whole), percent_toNat, Nat.mod_eq_of_lt fits, if_pos few]

end Share

/-! ## All shares -/

section Lists

variable {α β : Type*} {f g : α → Option β}

theorem length_filterMap_mono {items : List α} (less : ∀ item ∈ items, f item ≠ none → g item ≠ none) :
    (items.filterMap f).length ≤ (items.filterMap g).length := by
  induction items with
  | nil => exact le_rfl
  | cons item items inductionHypothesis =>
    have rest := inductionHypothesis fun other member => less other (by simp [member])
    cases kept : f item with
    | none =>
      rw [List.filterMap_cons_none kept]
      exact rest.trans ((List.sublist_cons_self item items).filterMap g).length_le
    | some result =>
      obtain ⟨result', kept'⟩ := Option.ne_none_iff_exists'.mp (less item (by simp) (by simp [kept]))
      rw [List.filterMap_cons_some kept, List.filterMap_cons_some kept']
      exact Nat.succ_le_succ rest

/-- A list that leaves out too much cannot make up for it. -/
theorem filterMap_eq_iff {items : List α} (less : ∀ item ∈ items, f item ≠ none → g item ≠ none) :
    items.filterMap f = items.filterMap g ↔ ∀ item ∈ items, f item = g item := by
  refine ⟨fun same => ?_, List.filterMap_congr⟩
  induction items with
  | nil => simp
  | cons item items inductionHypothesis =>
    have lessRest : ∀ other ∈ items, f other ≠ none → g other ≠ none := fun other member =>
      less other (by simp [member])
    rw [List.forall_mem_cons]
    cases kept : f item with
    | some result =>
      obtain ⟨result', kept'⟩ := Option.ne_none_iff_exists'.mp (less item (by simp) (by simp [kept]))
      rw [List.filterMap_cons_some kept, List.filterMap_cons_some kept', List.cons.injEq] at same
      exact ⟨by rw [kept', same.1], inductionHypothesis lessRest same.2⟩
    | none =>
      rw [List.filterMap_cons_none kept] at same
      cases kept' : g item with
      | none =>
        rw [List.filterMap_cons_none kept'] at same
        exact ⟨rfl, inductionHypothesis lessRest same⟩
      | some result =>
        rw [List.filterMap_cons_some kept'] at same
        have shorter := length_filterMap_mono lessRest
        rw [same, List.length_cons] at shorter
        omega

end Lists

section

variable {σ : Type} [DecidableEq σ] {profile : Profile σ} {func : ProfileFunc}

/-! ## The callers -/

/-- An entry of the caller list. -/
def IsCaller (profile : Profile σ) (func caller : ProfileFunc) : Prop :=
  ∃ callers, profileFuncCreateCallerList profile func = .ok callers ∧ caller ∈ callers

def callerText (name : σ → String) (profile : Profile σ) (caller : ProfileFunc) : String :=
  (funcSymbol profile caller).elim "<spontaneous>" name

/-- All callers that contribute a percent are printed, with the percentage they contribute. -/
def CallersExact (name : σ → String) (profile : Profile σ) (func : ProfileFunc) : Prop :=
  ∃ callers, profileFuncCreateCallerList profile func = .ok callers ∧
    outputCallers name profile func = .ok ((createSortedProfileFuncs callers).filterMap fun caller =>
      exactShare func.total caller.self caller.total (callerText name profile caller))

theorem mem_createSortedProfileFuncs {funcs : List ProfileFunc} {f : ProfileFunc} :
    f ∈ createSortedProfileFuncs funcs ↔ f ∈ funcs := List.mem_mergeSort

/-- A listed function is called by something or nothing. -/
theorem callers_ne_nil {samples : List (Sample σ)} {symbol : σ} {callers : List ProfileFunc}
    (correct : CallerList profile samples symbol func callers) (occurs : ∃ sample ∈ samples, symbol ∈ sample.1) :
    callers ≠ [] := by
  obtain ⟨sample, member, inside⟩ := occurs
  obtain ⟨outer, inner, spelled⟩ := List.append_of_mem inside
  cases List.eq_nil_or_concat outer with
  | inl outermost =>
    rw [outermost] at spelled
    obtain ⟨entry, listed, _⟩ := correct.spontaneous.mpr ⟨sample, member, by rw [spelled]; rfl⟩
    exact List.ne_nil_of_mem listed
  | inr called =>
    obtain ⟨upper, caller, rfl⟩ := called
    have calls : [caller, symbol] <:+: sample.1 := ⟨upper, inner, by rw [spelled]; simp⟩
    obtain ⟨entry, listed, _⟩ := List.mem_map.mp ((correct.listed caller).mpr ⟨sample, member, calls⟩)
    exact List.ne_nil_of_mem listed

theorem callerName_ok {samples : List (Sample σ)} {symbol : σ} {callers : List ProfileFunc}
    (correct : CallerList profile samples symbol func callers) (name : σ → String) {caller : ProfileFunc}
    (member : caller ∈ callers) : callerName name profile.forest caller = .ok (callerText name profile caller) := by
  cases hasNode : caller.node with
  | none => simp only [callerName, callerText, funcSymbol, hasNode, Option.bind_none, Option.elim_none]
  | some i =>
    have named : funcSymbol profile caller ≠ none := fun unnamed => by
      rw [correct.named caller member, hasNode] at unnamed
      cases unnamed
    cases held : profile.forest.nodes[i]? with
    | none => simp [funcSymbol, hasNode, held] at named
    | some node => simp [callerName, callerText, funcSymbol, hasNode, fetch, held, ok_bind]

/-- A share of nothing is a division by zero. -/
theorem outputCallers_error {samples : List (Sample σ)} {symbol : σ} {callers : List ProfileFunc}
    (created : profileFuncCreateCallerList profile func = .ok callers)
    (correct : CallerList profile samples symbol func callers) (nonempty : callers ≠ []) (name : σ → String)
    (nothing : func.total = 0) : outputCallers name profile func = .error .divisionByZero := by
  cases sorted : createSortedProfileFuncs callers with
  | nil =>
    obtain ⟨caller, member⟩ := List.exists_mem_of_ne_nil _ nonempty
    rw [← mem_createSortedProfileFuncs, sorted] at member
    cases member
  | cons caller rest =>
    have member : caller ∈ callers := mem_createSortedProfileFuncs.mp (by simp [sorted])
    have failed : outputCaller name profile func caller = .error .divisionByZero := by
      rw [outputCaller, callerName_ok correct name member, ok_bind, outputShare, if_pos nothing]
    simp only [outputCallers, created, ok_bind, sorted, mapM_error failed]
    rfl

theorem outputCallers_ok {samples : List (Sample σ)} {symbol : σ} {callers : List ProfileFunc}
    (created : profileFuncCreateCallerList profile func = .ok callers)
    (correct : CallerList profile samples symbol func callers) (name : σ → String) (positive : func.total ≠ 0) :
    outputCallers name profile func = .ok ((createSortedProfileFuncs callers).filterMap fun caller =>
      computedShare func.total caller.self caller.total (callerText name profile caller)) := by
  have line : ∀ caller ∈ createSortedProfileFuncs callers, outputCaller name profile func caller =
      .ok (computedShare func.total caller.self caller.total (callerText name profile caller)) := by
    intro caller member
    rw [outputCaller, callerName_ok correct name (mem_createSortedProfileFuncs.mp member), ok_bind,
      outputShare_ok positive]
  simp only [outputCallers, created, ok_bind, mapM_ok line, reduceOption_map]

/-- The callers are printed right if their shares fit, which none does in nothing. -/
theorem callersExact_iff {samples : List (Sample σ)} {symbol : σ} {callers : List ProfileFunc}
    (created : profileFuncCreateCallerList profile func = .ok callers)
    (correct : CallerList profile samples symbol func callers) (nonempty : callers ≠ []) (name : σ → String) :
    CallersExact name profile func ↔ ∀ caller ∈ callers, Fits func.total caller.total := by
  by_cases nothing : func.total = 0
  · refine iff_of_false ?_ fun fits => ?_
    · rintro ⟨_, _, printed⟩
      rw [outputCallers_error created correct nonempty name nothing] at printed
      cases printed
    · obtain ⟨caller, member⟩ := List.exists_mem_of_ne_nil _ nonempty
      have short := (fits caller member).2
      rw [nothing] at short
      exact Nat.not_lt_zero _ short
  · simp only [CallersExact, created, Except.ok.injEq, exists_eq_left', outputCallers_ok created correct name nothing]
    rw [filterMap_eq_iff fun caller _ => exactShare_of_computed nothing]
    simp only [mem_createSortedProfileFuncs, computedShare_eq_exactShare_iff nothing]

/-! ## The descendants -/

/-- A child of a descendant root. -/
def IsRootChild (profile : Profile σ) (func : ProfileFunc) (child : ProfileDescendantTreeNode σ) : Prop :=
  ∃ tree i root j, profileFuncCreateDescendantTree profile func = .ok tree ∧ i ∈ tree.roots ∧
    tree.nodes[i]? = some root ∧ j ∈ root.children ∧ tree.nodes[j]? = some child

/-- All children of the descendant root that contribute a percent of the function are
printed, with the percentage they contribute. -/
def DescendantsExact (name : σ → String) (profile : Profile σ) (func : ProfileFunc) : Prop :=
  ∃ tree i root children, profileFuncCreateDescendantTree profile func = .ok tree ∧ tree.roots = [i] ∧
    tree.nodes[i]? = some root ∧ root.children.mapM (fetch tree) = .ok children ∧
    outputDescendants name profile func = .ok ((createSortedDescendantTreeNodes children).filterMap fun child =>
      exactShare func.total child.self child.total (name child.symbol))

omit [DecidableEq σ] in
theorem mem_createSortedDescendantTreeNodes {nodes : List (ProfileDescendantTreeNode σ)}
    {node : ProfileDescendantTreeNode σ} : node ∈ createSortedDescendantTreeNodes nodes ↔ node ∈ nodes :=
  List.mem_mergeSort

omit [DecidableEq σ] in
theorem fetch_eq_ok {ν : Type} {forest : Forest ν} {i : ℕ} {node : ν} :
    fetch forest i = .ok node ↔ forest.nodes[i]? = some node := by
  unfold fetch
  split <;> simp_all

omit [DecidableEq σ] in
theorem exists_children {tree : ProfileDescendantTree σ} {known : List (List σ)} (indexed : Indexed tree known) {i : ℕ}
    {root : ProfileDescendantTreeNode σ} (held : tree.nodes[i]? = some root) :
    ∃ children, root.children.mapM (fetch tree) = .ok children ∧
      ∀ child, child ∈ children ↔ ∃ j ∈ root.children, tree.nodes[j]? = some child := by
  have listed : tree.array (some i) = some root.children := by
    rw [Forest.array, held]
    rfl
  obtain ⟨children, ran, members⟩ := @exists_mapM_ok _ _ _ (fetch tree) root.children fun j member => by
    obtain ⟨child, heldJ, _⟩ := ((indexed.array (some i) root.children listed).2 j).mp member
    exact ⟨child, fetch_eq_ok.mpr heldJ⟩
  refine ⟨children, ran, fun child => ?_⟩
  simp only [members, fetch_eq_ok]

theorem isRootChild_iff {tree : ProfileDescendantTree σ} {i : ℕ} {root : ProfileDescendantTreeNode σ}
    (created : profileFuncCreateDescendantTree profile func = .ok tree) (only : tree.roots = [i])
    (held : tree.nodes[i]? = some root) (child : ProfileDescendantTreeNode σ) :
    IsRootChild profile func child ↔ ∃ j ∈ root.children, tree.nodes[j]? = some child := by
  constructor
  · rintro ⟨tree', i', root', j, created', isRoot, held', member, heldJ⟩
    rw [created] at created'
    cases created'
    rw [only, List.mem_singleton] at isRoot
    rw [isRoot, held] at held'
    cases held'
    exact ⟨j, member, heldJ⟩
  · rintro ⟨j, member, heldJ⟩
    exact ⟨tree, i, root, j, created, by simp [only], held, member, heldJ⟩

theorem outputDescendants_ok {tree : ProfileDescendantTree σ} {i : ℕ} {root : ProfileDescendantTreeNode σ}
    {children : List (ProfileDescendantTreeNode σ)} (created : profileFuncCreateDescendantTree profile func = .ok tree)
    (only : tree.roots = [i]) (held : tree.nodes[i]? = some root)
    (fetched : root.children.mapM (fetch tree) = .ok children) (name : σ → String) (positive : root.total ≠ 0) :
    outputDescendants name profile func = .ok ((createSortedDescendantTreeNodes children).filterMap fun child =>
      computedShare root.total child.self child.total (name child.symbol)) := by
  have line : ∀ child ∈ createSortedDescendantTreeNodes children, outputDescendant name root child =
      .ok (computedShare root.total child.self child.total (name child.symbol)) := by
    intro child _
    rw [outputDescendant, outputShare_ok positive]
  simp only [outputDescendants, created, ok_bind, only, fetch_eq_ok.mpr held]
  rw [show (root.children.mapM fun j => fetch tree j) = .ok children from fetched]
  simp only [ok_bind, mapM_ok line, reduceOption_map]

/-- Where the function has a total, its descendants are printed right if their shares fit. -/
theorem descendantsExact_iff {tree : ProfileDescendantTree σ} {known : List (List σ)} {symbol : σ} {i : ℕ}
    (created : profileFuncCreateDescendantTree profile func = .ok tree) (indexed : Indexed tree known)
    (isRoot : IsRoot tree symbol func.total i) (positive : func.total ≠ 0) (name : σ → String) :
    DescendantsExact name profile func ↔ ∀ child, IsRootChild profile func child → Fits func.total child.total := by
  obtain ⟨only, root, held, _, total, _⟩ := isRoot
  obtain ⟨children, fetched, members⟩ := exists_children indexed held
  have printed := outputDescendants_ok created only held fetched name (by rwa [total])
  rw [total] at printed
  simp only [isRootChild_iff created only held, ← members]
  constructor
  · rintro ⟨_, _, _, _, created', only', held', fetched', exact⟩
    rw [created] at created'
    cases created'
    rw [only] at only'
    cases only'
    rw [held] at held'
    cases held'
    rw [fetched] at fetched'
    cases fetched'
    rw [printed, Except.ok.injEq, filterMap_eq_iff fun child _ => exactShare_of_computed positive] at exact
    intro child member
    exact (computedShare_eq_exactShare_iff positive).mp (exact child (mem_createSortedDescendantTreeNodes.mpr member))
  · intro fits
    refine ⟨tree, i, root, children, created, only, held, fetched, ?_⟩
    rw [printed, Except.ok.injEq, filterMap_eq_iff fun child _ => exactShare_of_computed positive]
    intro child member
    exact (computedShare_eq_exactShare_iff positive).mpr (fits child (mem_createSortedDescendantTreeNodes.mp member))

end

/-! ## A saved profile -/

section Saved

variable {σ τ : Type} [DecidableEq σ] {locate : τ → Addr → Option σ × τ} {name : σ → String} {skipFuncs : List String}
  {world later : World} {p : ProcId} {maps maps' : τ} {profile : Profile σ}

/-- The caller list of a function that is listed has something in it. -/
theorem exists_callerList
    (returned : profileCreate locate name maps world p skipFuncs = .ok (later, maps', profile)) {func : ProfileFunc}
    (member : func ∈ profile.functions) :
    ∃ samples symbol callers, profileFuncCreateCallerList profile func = .ok callers ∧
      CallerList profile samples symbol func callers ∧ callers ≠ [] := by
  obtain ⟨samples, paths, profiled⟩ := profiled_of_create returned
  rw [profiled.functions] at member
  obtain ⟨entry, listed, rfl⟩ := List.mem_map.mp member
  obtain ⟨callers, created, correct⟩ := callerList_ok profiled listed
  have key : entry.1 ∈ profile.nodesBySymbol.keys := List.mem_map.mpr ⟨entry, listed, rfl⟩
  exact ⟨samples, entry.1, callers, created, correct, callers_ne_nil correct ((profiled.mem_keys entry.1).mp key)⟩

/-- A profile can be saved if none of its functions has come to nothing. -/
theorem profileWrite_ok_iff (returned : profileCreate locate name maps world p skipFuncs = .ok (later, maps', profile)) :
    (∃ details, profileWrite name profile = .ok details) ↔ ∀ func ∈ profile.functions, func.total ≠ 0 := by
  constructor
  · rintro ⟨details, wrote⟩ func member nothing
    obtain ⟨detail, wroteFunc⟩ := ok_of_mapM wrote func (mem_createSortedProfileFuncs.mpr member)
    obtain ⟨_, _, callers, created, correct, nonempty⟩ := exists_callerList returned member
    cases hasNode : func.node with
    | none => simp only [outputProfileFunc, hasNode, reduceCtorEq] at wroteFunc
    | some i =>
      simp only [outputProfileFunc, hasNode] at wroteFunc
      obtain ⟨_, _, rest⟩ := ok_of_bind wroteFunc
      obtain ⟨_, printed, _⟩ := ok_of_bind rest
      rw [outputCallers_error created correct nonempty name nothing] at printed
      cases printed
  · intro positive
    obtain ⟨details, wrote, _⟩ := @exists_mapM_ok _ _ _ (outputProfileFunc name profile)
        (createSortedProfileFuncs profile.functions) fun func sorted => by
      have member := mem_createSortedProfileFuncs.mp sorted
      have total := positive func member
      obtain ⟨_, _, callers, created, correct, _⟩ := exists_callerList returned member
      obtain ⟨symbol, tree, known, named, ran, indexed, ⟨⟨i, only, root, held, _, same, _⟩, _⟩ | ⟨_, _, nothing⟩⟩ :=
        descendantTree_root returned member
      · obtain ⟨children, fetched, _⟩ := exists_children indexed held
        obtain ⟨j, hasNode, headed⟩ := Option.bind_eq_some_iff.mp named
        obtain ⟨node, heldNode, _⟩ := Option.map_eq_some_iff.mp headed
        simp only [outputProfileFunc, hasNode, fetch_eq_ok.mpr heldNode, ok_bind,
          outputCallers_ok created correct name total,
          outputDescendants_ok ran only held fetched name (by rwa [same])]
        exact ⟨_, rfl⟩
      · exact absurd nothing total
    exact ⟨details, wrote⟩

/-- Everything that is saved of a function is right if all the shares in it fit, and
otherwise something is wrong or the program stops at it. -/
theorem saved_exact_iff (returned : profileCreate locate name maps world p skipFuncs = .ok (later, maps', profile))
    {func : ProfileFunc} (member : func ∈ profile.functions) :
    CallersExact name profile func ∧ DescendantsExact name profile func ↔
      (∀ caller, IsCaller profile func caller → Fits func.total caller.total) ∧
        ∀ child, IsRootChild profile func child → Fits func.total child.total := by
  obtain ⟨_, _, callers, created, correct, nonempty⟩ := exists_callerList returned member
  have entries : (∀ caller, IsCaller profile func caller → Fits func.total caller.total) ↔
      ∀ caller ∈ callers, Fits func.total caller.total := by
    simp only [IsCaller, created, Except.ok.injEq, exists_eq_left']
  rw [callersExact_iff created correct nonempty, entries]
  refine and_congr_right fun fits => ?_
  obtain ⟨caller, listed⟩ := List.exists_mem_of_ne_nil _ nonempty
  have positive : func.total ≠ 0 := by
    intro nothing
    have short := (fits caller listed).2
    rw [nothing] at short
    exact Nat.not_lt_zero _ short
  obtain ⟨_, tree, known, _, ran, indexed, ⟨⟨i, isRoot⟩, _⟩ | ⟨_, _, nothing⟩⟩ := descendantTree_root returned member
  · exact descendantsExact_iff ran indexed isRoot positive name
  · exact absurd nothing positive

end Saved

/-- `f` that calls itself. -/
theorem saved_exact_iff_recursing : ∃ later maps' profile func,
    profileCreate locateStart nameStart () recursing 0 [] = .ok (later, maps', profile) ∧ func ∈ profile.functions ∧
      (CallersExact nameStart profile func ∧ DescendantsExact nameStart profile func ↔
        (∀ caller, IsCaller profile func caller → Fits func.total caller.total) ∧
          ∀ child, IsRootChild profile func child → Fits func.total child.total) := by
  obtain ⟨later, maps', profile, func, returned, member, _⟩ := exists_recursing
  exact ⟨later, maps', profile, func, returned, member, saved_exact_iff returned member⟩

/-- `main` called `malloc (50000000)`. -/
def fiftyMillion : World where
  blocks := ⟨[some { addr := 16, size := 50000000, stack := some ⟨0, 0⟩ }]⟩
  stashes := ⟨[some { nodes := [{ address := 1 }] }]⟩
  processes := [{ blockTable := some ((∅ : BlockTable).insert 16 0) }]

/-- All of `main` comes from its one caller, and is printed as 14 percent. -/
theorem percentage_wraps : ∃ later maps' profile func caller,
    profileCreate locateStart nameStart () fiftyMillion 0 [] = .ok (later, maps', profile) ∧ func ∈ profile.functions ∧
      IsCaller profile func caller ∧ func.total = 50000000 ∧ caller.total = 50000000 ∧
      outputShare func.total caller.total caller.total "<spontaneous>" =
        .ok (some { self := 50000000, total := 50000000, percent := 14, name := "<spontaneous>" }) ∧
      ¬ (CallersExact nameStart profile func ∧ DescendantsExact nameStart profile func) := by
  have found : fiftyMillion.process 0 = .ok { blockTable := some ((∅ : BlockTable).insert 16 0) } := rfl
  have trace : Stash.Trace [{ address := 1 }] (some 0) [1] := @Stash.Trace.cons _ 0 { address := 1 } _ rfl .nil
  have recorded : List.Forall₂ (Recorded fiftyMillion) [0] [([1], 50000000)] :=
    .cons ⟨_, rfl, ⟨_, rfl, trace⟩, rfl⟩ .nil
  have kept : keptSamples nameStart [] id [([1], 50000000)] = [([1], 50000000)] := by decide
  obtain ⟨maps', profile, _, returned, profiled⟩ :=
    profileCreate_recorded found recorded (fixed_locateStart _) nameStart []
  rw [kept] at profiled
  obtain ⟨entry, listed, isMain⟩ : ∃ entry ∈ profile.nodesBySymbol.entries, entry.1 = 1 :=
    List.mem_map.mp ((profiled.mem_keys 1).mpr ⟨([1], 50000000), by simp, by simp⟩)
  obtain ⟨callers, created, correct⟩ := callerList_ok profiled listed
  rw [isMain] at correct
  obtain ⟨caller, member, spontaneous⟩ := correct.spontaneous.mpr ⟨([1], 50000000), by simp, rfl⟩
  have total : caller.total = 50000000 := (correct.outermost caller member spontaneous).1.trans (by decide)
  have totalFunc : (flatFunc [([1], 50000000)] entry).total = 50000000 := by
    show weight [([1], 50000000)] (entry.1 ∈ ·) = 50000000
    rw [isMain]
    decide
  refine ⟨_, maps', profile, flatFunc [([1], 50000000)] entry, caller, returned, ?_, ⟨callers, created, member⟩,
    totalFunc, total, ?_, ?_⟩
  · rw [profiled.functions]
    exact List.mem_map_of_mem listed
  · rw [total, totalFunc]
    decide
  · rintro ⟨exact, _⟩
    have fits := ((callersExact_iff created correct (List.ne_nil_of_mem member) nameStart).mp exact caller member).1
    rw [total] at fits
    exact absurd fits (by decide)

end Memprof.Saving
