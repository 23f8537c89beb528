import Memprof.Maps

/-! # The search for a symbol

`process_locate_symbol` bisects the symbols of a map.  Its loop ends, and ends at the last
symbol that does not lie above the address, as long as some symbol does not: only
`find_block`, its sibling, looks at the first element before it begins.
-/

namespace Memprof.SymbolSearch

open Library

variable {symbols : Symbols} {addr : Addr}

/-- The search ends within the array. -/
def Ends (symbols : Symbols) (addr : Addr) : Prop := ∃ fuel symbol, locateSymbol fuel symbols.data addr = .ok symbol

/-- The symbol does not lie above the address, and no other one lies between them. -/
def Covers (symbols : Symbols) (addr : Addr) (symbol : Symbol) : Prop :=
  symbol.addr ≤ addr ∧ ∀ other ∈ symbols.data, ¬ (symbol.addr < other.addr ∧ other.addr ≤ addr)

/-- The address lies below the symbol at a position. -/
def Below (symbols : Symbols) (addr : Addr) (i : ℕ) : Prop :=
  ∃ symbol, symbols.data[i]? = some symbol ∧ addr < symbol.addr

instance (symbols : Symbols) (addr : Addr) : DecidablePred (Below symbols addr) := fun i =>
  decidable_of_iff (symbols.data[i]?.any (addr < ·.addr) = true) (by simp [Below, Option.any_eq_true])

theorem symbolAt_ok {data : List Symbol} {i : UInt32} (inside : i.toNat < data.length) :
    symbolAt data i = .ok data[i.toNat] := by
  rw [symbolAt, List.getElem?_eq_getElem inside]

theorem below_iff {i : ℕ} (inside : i < symbols.data.length) : Below symbols addr i ↔ addr < symbols.data[i].addr := by
  simp [Below, List.getElem?_eq_getElem inside]

theorem toNat_last (nonempty : symbols.data ≠ []) :
    (UInt32.ofNat symbols.data.length - 1).toNat = symbols.data.length - 1 := by
  have few := symbols.few
  have positive : 1 ≤ symbols.data.length := List.length_pos_iff.mpr nonempty
  have one : (1 : UInt32).toNat = 1 := rfl
  have length : (UInt32.ofNat symbols.data.length).toNat = symbols.data.length := by
    rw [UInt32.toNat_ofNat', Nat.mod_eq_of_lt (by omega)]
  rw [UInt32.toNat_sub_of_le _ _ (by rw [UInt32.le_iff_toNat_le, one, length]; exact positive), length, one]

theorem addr_le {i j : ℕ} (ordered : i ≤ j) (inside : j < symbols.data.length) :
    symbols.data[i].addr ≤ symbols.data[j].addr := by
  rcases Nat.lt_or_eq_of_le ordered with less | same
  · exact List.pairwise_iff_getElem.mp symbols.sorted i j _ inside less
  · subst same
    exact UInt64.le_refl _

/-- A symbol whose successor lies above the address covers it, unless it lies above itself. -/
theorem covers_iff {i : ℕ} (inside : i < symbols.data.length)
    (next : ∀ after : i + 1 < symbols.data.length, addr < symbols.data[i + 1].addr) :
    Covers symbols addr symbols.data[i] ↔ symbols.data[i].addr ≤ addr := by
  refine ⟨And.left, fun starts => ⟨starts, ?_⟩⟩
  rintro other member ⟨above, under⟩
  obtain ⟨j, insideJ, rfl⟩ := List.getElem_of_mem member
  rcases Nat.lt_or_ge i j with later | earlier
  · have least := addr_le later insideJ
    exact absurd (UInt64.le_trans least under) (UInt64.not_le.mpr (next (by omega)))
  · exact absurd (addr_le earlier inside) (UInt64.not_le.mpr above)

/-- With two symbols or more the search ends: at the last one that does not lie above the
address, or at the first one. -/
theorem locateSymbol_ok (several : 2 ≤ symbols.data.length) {fuel : ℕ} (enough : symbols.data.length ≤ fuel) :
    ∃ i, ∃ inside : i < symbols.data.length, locateSymbol fuel symbols.data addr = .ok symbols.data[i] ∧
      (i = 0 ∨ symbols.data[i].addr ≤ addr) ∧
      ∀ after : i + 1 < symbols.data.length, addr < symbols.data[i + 1].addr := by
  have nonempty : symbols.data ≠ [] := List.length_pos_iff.mp (by omega)
  have last := toNat_last nonempty
  have insideLast : (UInt32.ofNat symbols.data.length - 1).toNat < symbols.data.length := by omega
  rw [locateSymbol, symbolAt_ok insideLast, ok_bind]
  simp only [last]
  by_cases under : addr < symbols.data[symbols.data.length - 1].addr
  · have tested : ∀ i : UInt32, i < UInt32.ofNat symbols.data.length - 1 →
        (symbolAt symbols.data i).map (fun symbol => decide (addr < symbol.addr)) =
          (.ok (decide (Below symbols addr i.toNat)) : Except Fault Bool) := by
      intro i less
      have inside : i.toNat < symbols.data.length := by
        have := UInt32.lt_iff_toNat_lt.mp less
        omega
      rw [symbolAt_ok inside]
      simp only [below_iff inside]
      rfl
    have few := symbols.few
    have fits : (UInt32.ofNat symbols.data.length - 1).toNat ≤ 2 ^ 31 := by omega
    have first : (0 : UInt32) < UInt32.ofNat symbols.data.length - 1 := by
      rw [UInt32.lt_iff_toNat_lt, last]
      show 0 < _
      omega
    have ends : Below symbols addr (UInt32.ofNat symbols.data.length - 1).toNat := by
      rw [last]
      exact (below_iff (by omega)).mpr under
    have steps : (UInt32.ofNat symbols.data.length - 1).toNat - (0 : UInt32).toNat ≤ fuel := by omega
    obtain ⟨found, ran, inside, starts, next⟩ :=
      @bisect_ok _ _ Fault.outOfFuel _ _ _ _ _ tested fits first ends steps
    have less := UInt32.lt_iff_toNat_lt.mp inside
    have insideFound : found.toNat < symbols.data.length := by omega
    refine ⟨found.toNat, insideFound, ?_, ?_, fun after => (below_iff after).mp next⟩
    · rw [if_pos under, ran, ok_bind, symbolAt_ok insideFound]
    · rcases starts with rfl | fails
      · exact .inl rfl
      · exact .inr (UInt64.not_lt.mp fun above => fails ((below_iff insideFound).mpr above))
  · refine ⟨symbols.data.length - 1, by omega, by rw [if_neg under], .inr (UInt64.not_lt.mp under), fun after => ?_⟩
    omega

theorem locateSymbol_fuel {data : List Symbol} {fuel fuel' : ℕ} {symbol : Symbol} (more : fuel ≤ fuel')
    (ran : locateSymbol fuel data addr = .ok symbol) : locateSymbol fuel' data addr = .ok symbol := by
  rw [locateSymbol] at ran ⊢
  obtain ⟨highest, found, ran⟩ := ok_of_bind ran
  rw [found, ok_bind]
  split at ran
  next under =>
    rw [if_pos under]
    obtain ⟨first, searched, ran⟩ := ok_of_bind ran
    rw [bisect_fuel more searched, ok_bind, ran]
  next above =>
    rw [if_neg above]
    exact ran

/-- A single symbol that lies above the address: `last - 1` wraps and the loop goes on for ever. -/
theorem locateSymbol_single {symbol : Symbol} (single : symbols.data = [symbol])
    (under : addr < symbol.addr) (fuel : ℕ) : locateSymbol fuel symbols.data addr = .error .outOfFuel := by
  have last : UInt32.ofNat 1 - 1 = 0 := by decide
  have here : symbolAt [symbol] 0 = .ok symbol := rfl
  have passes : (symbolAt [symbol] 0).map (fun symbol => decide (addr < symbol.addr)) =
      (.ok true : Except Fault Bool) := by
    rw [here]
    simp [Except.map, under]
  have stuck := @bisect_stuck _ (fun middle => (symbolAt [symbol] middle).map fun symbol => decide (addr < symbol.addr))
    Fault.outOfFuel passes fuel
  rw [locateSymbol, single]
  simp only [List.length_singleton, last, here, ok_bind, if_pos under, stuck]
  rfl

/-- For every array of symbols and every address: the search ends, with its indexes inside
the array, unless there is one symbol only and the address lies below it. -/
theorem locateSymbol_ends_iff (symbols : Symbols) (nonempty : symbols.data ≠ []) (addr : Addr) :
    Ends symbols addr ↔ ¬ ∃ symbol, symbols.data = [symbol] ∧ addr < symbol.addr := by
  constructor
  · rintro ⟨fuel, found, ran⟩ ⟨symbol, single, under⟩
    rw [locateSymbol_single single under fuel] at ran
    cases ran
  · intro settled
    rcases Nat.lt_or_ge symbols.data.length 2 with few | several
    · obtain ⟨symbol, single⟩ := List.length_eq_one_iff.mp
        (show symbols.data.length = 1 by have := List.length_pos_iff.mpr nonempty; omega)
      -- The last symbol is the only one, and it does not lie above the address.
      have above : ¬ addr < symbol.addr := fun under => settled ⟨symbol, single, under⟩
      have last : UInt32.ofNat 1 - 1 = 0 := by decide
      have here : symbolAt [symbol] 0 = .ok symbol := rfl
      refine ⟨0, symbol, ?_⟩
      rw [locateSymbol, single]
      simp only [List.length_singleton, last, here, ok_bind, if_neg above]
    · obtain ⟨i, inside, ran, _⟩ := @locateSymbol_ok symbols addr several _ (Nat.le_refl _)
      exact ⟨_, _, ran⟩

/-- For every array of at least two symbols and every address: the symbol whose name is
returned covers the address exactly if the first symbol does not lie above it. -/
theorem locateSymbol_covers_iff (symbols : Symbols) (several : 2 ≤ symbols.data.length) (addr : Addr) :
    (∀ fuel symbol, locateSymbol fuel symbols.data addr = .ok symbol → Covers symbols addr symbol) ↔
      symbols.data[0].addr ≤ addr := by
  obtain ⟨i, inside, ran, starts, next⟩ := @locateSymbol_ok symbols addr several _ (Nat.le_refl _)
  have returned : ∀ fuel symbol, locateSymbol fuel symbols.data addr = .ok symbol → symbol = symbols.data[i] := by
    intro fuel symbol found
    have left := locateSymbol_fuel (Nat.le_max_left fuel symbols.data.length) found
    have right := locateSymbol_fuel (Nat.le_max_right fuel symbols.data.length) ran
    rw [left] at right
    exact Except.ok.inj right
  constructor
  · intro always
    have covered := (always _ _ ran).1
    exact UInt64.le_trans (addr_le (Nat.zero_le i) inside) covered
  · intro lowest fuel symbol found
    rw [returned fuel symbol found, covers_iff inside next]
    rcases starts with rfl | below
    · exact lowest
    · exact below

/-- One function at address 16. -/
def single : Symbols := ⟨[{ addr := 16, name := ['f'] }], by decide, by decide⟩

theorem locateSymbol_ends_iff_above :
    Ends single 16 ↔ ¬ ∃ symbol, single.data = [symbol] ∧ (16 : Addr) < symbol.addr :=
  locateSymbol_ends_iff single (by decide) 16

theorem locateSymbol_loops : single.data ≠ [] ∧ ¬ Ends single 8 := by
  refine ⟨by decide, ?_⟩
  rintro ⟨fuel, symbol, ran⟩
  have stuck := @locateSymbol_single single 8 _ rfl (by decide) fuel
  rw [stuck] at ran
  cases ran

/-- Two functions, at 16 and at 32. -/
def double : Symbols := ⟨[{ addr := 16, name := ['f'] }, { addr := 32, name := ['g'] }], by decide, by decide⟩

theorem locateSymbol_covers_iff_between :
    (∀ fuel symbol, locateSymbol fuel double.data 20 = .ok symbol → Covers double 20 symbol) ↔
      double.data[0].addr ≤ 20 :=
  locateSymbol_covers_iff double (by decide) 20

/-- An address below both is attributed to the first one. -/
theorem locateSymbol_misses :
    locateSymbol 2 double.data 8 = .ok { addr := 16, name := ['f'] } ∧
      ¬ Covers double 8 { addr := 16, name := ['f'] } :=
  ⟨rfl, fun covers => absurd covers.1 (by decide)⟩

end Memprof.SymbolSearch
