import Memprof.Library.Outcome
import Memprof.Library.Rounding
import Memprof.MemMap

/-! # The layout of the memory map

Every region gets a part of the rows that is rounded on its own, so that together they can
have more rows than there are.  They fit exactly if the regions are fewer than the rows and
the remainders make up for what is rounded up, as they always do on a widget that has at
least two rows for each region.
-/

namespace Memprof.MemMap

open Library

/-- Nothing is divided by zero or taken below zero, and the divider of the last region is a
row of the widget. -/
def Fits (allocation : Allocation) (regions : Regions) : Prop :=
  regions.list.length ≤ allocation.height ∧ ∃ mem, layout allocation regions.list = .ok mem ∧
    ∀ reg ∈ mem.regs.getLast?, reg.y.toInt + reg.h.toInt + 1 ≤ allocation.height

namespace Regions

def sizes (regions : Regions) : List ℕ := regions.list.map fun region => region.size.toNat

def mtotal (regions : Regions) : ℕ := regions.sizes.sum

/-- The sizes in units of which every region gets a row for each `mtotal`. -/
def scaled (regions : Regions) (rows : ℕ) : List ℕ := regions.sizes.map (· * rows)

theorem mtotal_lt (regions : Regions) : regions.mtotal < 2 ^ 47 := regions.total

theorem sum_scaled (regions : Regions) (rows : ℕ) : (regions.scaled rows).sum = regions.mtotal * rows := by
  rw [scaled, mtotal]
  exact (List.sum_map_mul_right regions.sizes id rows).trans (by rw [List.map_id])

/-- There are no more regions than bytes. -/
theorem length_le (regions : Regions) : regions.list.length ≤ regions.mtotal := by
  have each : ∀ size ∈ regions.sizes, 1 ≤ size := by
    intro size member
    obtain ⟨region, own, rfl⟩ := List.mem_map.mp member
    exact regions.positive region own
  have bound := List.length_le_sum_of_one_le regions.sizes each
  rwa [sizes, List.length_map] at bound

theorem size_le {regions : Regions} {region : Region} (member : region ∈ regions.list) :
    region.size.toNat ≤ regions.mtotal := List.le_sum_of_mem (List.mem_map_of_mem member)

end Regions

/-- The regions that are rounded up are at most as many as the rows that the remainders make
up together. -/
def Room (regions : Regions) (rows : ℕ) : Prop :=
  regions.mtotal * roundedUp regions.mtotal ((regions.mtotal - 1) / rows) (regions.scaled rows) ≤
    ((regions.scaled rows).map (· % regions.mtotal)).sum

/-! ## The arithmetic of the machine -/

theorem toInt_small {value : UInt64} (small : value.toNat < 2 ^ 31) : (toInt value).toInt = value.toNat := by
  have word : value.toUInt32.toNat = value.toNat := by
    rw [UInt64.toNat_toUInt32]
    omega
  have signed : (toInt value).toInt = value.toUInt32.toBitVec.toInt := rfl
  rw [signed, BitVec.toInt_eq_toNat_cond, UInt32.toNat_toBitVec, word]
  split <;> omega

theorem ofInt_toInt {value : UInt64} (small : value.toNat < 2 ^ 31) : ofInt (toInt value) = value := by
  rw [ofInt, toInt_small small, UInt64.ofInt, Int.emod_eq_of_lt (by omega) (by omega), Int.toNat_natCast, UInt64.ofNat_toNat]

theorem divide_ok {dividend divisor : UInt64} (positive : 0 < divisor.toNat) :
    divide dividend divisor = .ok (dividend / divisor) := by
  refine if_neg ?_
  rintro rfl
  exact absurd positive (by decide)

theorem sum_toNat {regions : List Region} (small : (regions.map fun region => region.size.toNat).sum < 2 ^ 64) :
    (regions.map Region.size).sum.toNat = (regions.map fun region => region.size.toNat).sum := by
  induction regions with
  | nil => rfl
  | cons region regions inductionHypothesis =>
    rw [List.map_cons, List.sum_cons] at small ⊢
    rw [List.map_cons, List.sum_cons, UInt64.toNat_add, inductionHypothesis (by omega)]
    exact Nat.mod_eq_of_lt small

/-! ## The rows of the regions -/

theorem layoutRegs_cons {rows bpl mtotal y scaled : UInt64} {region : Region} {regions : List Region}
    {regs : List MemReg} (divided : divide (region.size * rows + bpl - 1) mtotal = .ok scaled)
    (ran : layoutRegs rows bpl mtotal (y + ofInt (toInt scaled) + 1) regions = .ok regs) :
    layoutRegs rows bpl mtotal y (region :: regions) =
      .ok ({ region with y := toInt y, h := toInt scaled : MemReg } :: regs) := by
  rw [layoutRegs, divided, ok_bind]
  dsimp only
  rw [ran, ok_bind]

/-- The regions one below the other: the last divider comes after all their rows and the
dividers above it. -/
theorem layoutRegs_ok {rows bpl mtotal : UInt64} (positive : 0 < mtotal.toNat) (lines : 0 < bpl.toNat)
    {regions : List Region} (fits : ∀ region ∈ regions, region.size.toNat * rows.toNat + bpl.toNat < 2 ^ 64) {y : UInt64}
    (short : y.toNat + (regions.map fun region =>
      (region.size.toNat * rows.toNat + (bpl.toNat - 1)) / mtotal.toNat + 1).sum < 2 ^ 31) :
    ∃ regs, layoutRegs rows bpl mtotal y regions = .ok regs ∧ (regs = [] ↔ regions = []) ∧
      ∀ reg ∈ regs.getLast?, reg.y.toInt + reg.h.toInt + 1 = y.toNat + (regions.map fun region =>
        (region.size.toNat * rows.toNat + (bpl.toNat - 1)) / mtotal.toNat + 1).sum := by
  induction regions generalizing y with
  | nil => exact ⟨[], rfl, by simp, fun _ member => nomatch member⟩
  | cons region regions inductionHypothesis =>
    rw [List.map_cons, List.sum_cons] at short
    have product := fits region (by simp)
    have height : ((region.size * rows + bpl - 1) / mtotal).toNat =
        (region.size.toNat * rows.toNat + (bpl.toNat - 1)) / mtotal.toNat := by
      rw [UInt64.toNat_div]
      congr 1
      have sum : (region.size * rows + bpl).toNat = region.size.toNat * rows.toNat + bpl.toNat := by
        rw [UInt64.toNat_add, UInt64.toNat_mul, Nat.mod_add_mod, Nat.mod_eq_of_lt product]
      rw [UInt64.toNat_sub_of_le _ _ (by rw [UInt64.le_iff_toNat_le, sum]; exact Nat.le_add_left_of_le lines), sum]
      exact Nat.add_sub_assoc lines _
    have small : ((region.size * rows + bpl - 1) / mtotal).toNat < 2 ^ 31 := by omega
    have next : (y + ofInt (toInt ((region.size * rows + bpl - 1) / mtotal)) + 1).toNat =
        y.toNat + ((region.size.toNat * rows.toNat + (bpl.toNat - 1)) / mtotal.toNat + 1) := by
      have one : (1 : UInt64).toNat = 1 := rfl
      rw [ofInt_toInt small, UInt64.toNat_add, UInt64.toNat_add, height, one]
      omega
    obtain ⟨regs, ran, empty, last⟩ := inductionHypothesis (fun other member => fits other (by simp [member]))
      (by rw [next]; omega : (y + ofInt (toInt ((region.size * rows + bpl - 1) / mtotal)) + 1).toNat + _ < 2 ^ 31)
    refine ⟨_, layoutRegs_cons (divide_ok positive) ran, by simp, fun reg member => ?_⟩
    rw [List.map_cons, List.sum_cons]
    cases regs with
    | nil =>
      rw [List.getLast?_singleton, Option.mem_some_iff] at member
      subst member
      rw [empty.mp rfl, toInt_small (by omega), toInt_small small, height]
      push_cast
      simp
      omega
    | cons other regs =>
      rw [List.getLast?_cons_cons] at member
      rw [last reg member, next]
      push_cast
      omega

/-! ## The whole -/

/-- What `bpl - 1` comes to. -/
theorem ceil_sub_one {total rows : ℕ} (positive : 0 < total) (some_ : 0 < rows) :
    0 < (total + rows - 1) / rows ∧ (total + rows - 1) / rows - 1 = (total - 1) / rows := by
  have shift : total + rows - 1 = total - 1 + rows := by omega
  rw [shift, Nat.add_div_right _ some_]
  exact ⟨Nat.succ_pos _, rfl⟩

section

variable {allocation : Allocation} {regions : Regions}

/-- `h - regnum` -/
theorem rows_toNat (fewer : regions.list.length ≤ allocation.height) :
    (UInt64.ofNat allocation.height - UInt64.ofNat regions.list.length).toNat =
      allocation.height - regions.list.length := by
  have heightBound := allocation.bounded.2
  have height : (UInt64.ofNat allocation.height).toNat = allocation.height := by
    rw [UInt64.toNat_ofNat']
    omega
  have regnum : (UInt64.ofNat regions.list.length).toNat = regions.list.length := by
    rw [UInt64.toNat_ofNat']
    omega
  rw [UInt64.toNat_sub_of_le _ _ (by rw [UInt64.le_iff_toNat_le, height, regnum]; exact fewer), height, regnum]

/-- The layout is made once the rows of the regions are. -/
theorem layout_of_regs (fewer : regions.list.length < allocation.height) {regs : List MemReg}
    (ran : ∀ bpl : UInt64, bpl.toNat = (regions.mtotal + (allocation.height - regions.list.length) - 1) /
        (allocation.height - regions.list.length) →
      layoutRegs (UInt64.ofNat allocation.height - UInt64.ofNat regions.list.length) bpl
        (regions.list.map Region.size).sum 0 regions.list = .ok regs) :
    ∃ mem, layout allocation regions.list = .ok mem ∧ mem.regs = regs := by
  have rows := @rows_toNat allocation regions fewer.le
  have wide := allocation.positive.1
  have widthBound := allocation.bounded.1
  have heightBound := allocation.bounded.2
  have total := regions.mtotal_lt
  have mtotal : (regions.list.map Region.size).sum.toNat = regions.mtotal := sum_toNat (total.trans (by decide))
  have positive : 0 < (UInt64.ofNat allocation.height - UInt64.ofNat regions.list.length).toNat := by omega
  have width : 0 < (UInt64.ofNat allocation.width).toNat := by
    rw [UInt64.toNat_ofNat']
    omega
  have bpl : (((regions.list.map Region.size).sum + (UInt64.ofNat allocation.height - UInt64.ofNat regions.list.length) - 1) /
      (UInt64.ofNat allocation.height - UInt64.ofNat regions.list.length)).toNat =
        (regions.mtotal + (allocation.height - regions.list.length) - 1) / (allocation.height - regions.list.length) := by
    have sum : ((regions.list.map Region.size).sum + (UInt64.ofNat allocation.height - UInt64.ofNat regions.list.length)).toNat =
        regions.mtotal + (allocation.height - regions.list.length) := by
      rw [UInt64.toNat_add, mtotal, rows]
      exact Nat.mod_eq_of_lt (by omega)
    have one : (1 : UInt64).toNat = 1 := rfl
    rw [UInt64.toNat_div, UInt64.toNat_sub_of_le _ _ (by rw [UInt64.le_iff_toNat_le, sum, one]; omega), sum, rows, one]
  have pixel : ∀ bpl : UInt64, ∃ bpp,
      divide (bpl + UInt64.ofNat allocation.width - 1) (UInt64.ofNat allocation.width) = .ok bpp :=
    fun bpl => ⟨_, divide_ok width⟩
  obtain ⟨bpp, divided⟩ := pixel _
  refine ⟨newMem allocation bpp regs, ?_, rfl⟩
  rw [layout, divide_ok positive, ok_bind, divided, ok_bind, ran _ bpl, ok_bind]

/-- With fewer regions than rows the layout is made, and the last divider comes after the
rounded parts and one divider for each region. -/
theorem layout_ok (fewer : regions.list.length < allocation.height) :
    ∃ mem, layout allocation regions.list = .ok mem ∧ (mem.regs = [] ↔ regions.list = []) ∧
      ∀ reg ∈ mem.regs.getLast?, reg.y.toInt + reg.h.toInt + 1 =
        ((regions.scaled (allocation.height - regions.list.length)).map fun part =>
          (part + (regions.mtotal - 1) / (allocation.height - regions.list.length)) / regions.mtotal).sum +
        regions.list.length := by
  by_cases none : regions.list = []
  · obtain ⟨mem, made, regs⟩ := @layout_of_regs allocation regions fewer [] fun bpl _ => by rw [none, layoutRegs]
    refine ⟨mem, made, by simp [regs, none], fun reg member => ?_⟩
    rw [regs] at member
    cases member
  have rows := @rows_toNat allocation regions fewer.le
  have heightBound := allocation.bounded.2
  have total := regions.mtotal_lt
  have mtotal : (regions.list.map Region.size).sum.toNat = regions.mtotal := sum_toNat (total.trans (by decide))
  have positive : 0 < regions.mtotal := (List.length_pos_of_ne_nil none).trans_le regions.length_le
  generalize height : allocation.height - regions.list.length = lines at *
  have some_ : 0 < lines := by omega
  obtain ⟨bplPositive, bias⟩ := ceil_sub_one positive some_
  -- The heights of the regions, and their sum.
  have same : ∀ bpl : UInt64, bpl.toNat = (regions.mtotal + lines - 1) / lines →
      (regions.list.map fun region => (region.size.toNat *
        (UInt64.ofNat allocation.height - UInt64.ofNat regions.list.length).toNat + (bpl.toNat - 1)) /
          (regions.list.map Region.size).sum.toNat + 1).sum =
        ((regions.scaled lines).map fun part => (part + (regions.mtotal - 1) / lines) / regions.mtotal).sum +
          regions.list.length := by
    intro bpl ceil
    rw [rows, mtotal, ceil, bias, List.sum_map_add, Regions.scaled, Regions.sizes]
    simp [List.map_map, Function.comp_def]
  have bound : ((regions.scaled lines).map fun part => (part + (regions.mtotal - 1) / lines) / regions.mtotal).sum ≤
      lines + regions.list.length := by
    have rounded := sum_rounded_bound regions.mtotal ((regions.mtotal - 1) / lines) (regions.scaled lines)
    have few : (regions.scaled lines).length = regions.list.length := by simp [Regions.scaled, Regions.sizes]
    have biases : (regions.mtotal - 1) / lines * regions.list.length ≤ regions.mtotal * regions.list.length :=
      Nat.mul_le_mul_right _ ((Nat.div_le_self _ _).trans (Nat.sub_le _ _))
    rw [regions.sum_scaled, few] at rounded
    refine Nat.le_of_mul_le_mul_left ?_ positive
    rw [Nat.mul_add]
    exact rounded.trans (Nat.add_le_add_left biases _)
  have fits : ∀ bpl : UInt64, bpl.toNat = (regions.mtotal + lines - 1) / lines → ∀ region ∈ regions.list,
      region.size.toNat * (UInt64.ofNat allocation.height - UInt64.ofNat regions.list.length).toNat + bpl.toNat < 2 ^ 64 := by
    intro bpl ceil region member
    have size : region.size.toNat * lines ≤ 2 ^ 47 * 2 ^ 16 :=
      Nat.mul_le_mul ((Regions.size_le member).trans total.le) (by omega)
    have small : bpl.toNat ≤ regions.mtotal := by
      have quotient := Nat.div_le_self (regions.mtotal - 1) lines
      omega
    rw [rows]
    omega
  have made : ∃ regs, (∀ bpl : UInt64, bpl.toNat = (regions.mtotal + lines - 1) / lines →
      layoutRegs (UInt64.ofNat allocation.height - UInt64.ofNat regions.list.length) bpl
        (regions.list.map Region.size).sum 0 regions.list = .ok regs) ∧ (regs = [] ↔ regions.list = []) ∧
      ∀ reg ∈ regs.getLast?, reg.y.toInt + reg.h.toInt + 1 = ((regions.scaled lines).map fun part =>
        (part + (regions.mtotal - 1) / lines) / regions.mtotal).sum + regions.list.length := by
    have ceil : (UInt64.ofNat ((regions.mtotal + lines - 1) / lines)).toNat = (regions.mtotal + lines - 1) / lines := by
      have quotient := Nat.div_le_self (regions.mtotal + lines - 1) lines
      rw [UInt64.toNat_ofNat']
      exact Nat.mod_eq_of_lt (by omega)
    obtain ⟨regs, ran, empty, last⟩ := layoutRegs_ok (mtotal ▸ positive) (by rw [ceil]; exact bplPositive) (fits _ ceil)
      (by rw [same _ ceil]; show 0 + _ < _; omega : (0 : UInt64).toNat + _ < 2 ^ 31)
    refine ⟨regs, fun bpl bplCeil => ?_, empty, fun reg member => ?_⟩
    · rw [UInt64.toNat.inj (bplCeil.trans ceil.symm), ran]
    · rw [last reg member, same _ ceil]
      simp
  obtain ⟨regs, ran, empty, last⟩ := made
  rw [← height] at ran
  obtain ⟨mem, laid, rfl⟩ := layout_of_regs fewer ran
  exact ⟨mem, laid, empty, last⟩

/-- As many regions as rows. -/
theorem layout_full (full : regions.list.length = allocation.height) :
    layout allocation regions.list = .error .divisionByZero := by
  have none : UInt64.ofNat allocation.height - UInt64.ofNat regions.list.length = 0 := by rw [full, UInt64.sub_self]
  rw [layout, none]
  rfl

/-- The rounded parts leave a row for each divider. -/
theorem room_iff (lines : ℕ) :
    ((regions.scaled lines).map fun part => (part + (regions.mtotal - 1) / lines) / regions.mtotal).sum ≤ lines ↔
      Room regions lines := by
  rcases Nat.eq_zero_or_pos regions.mtotal with nothing | positive
  · have empty : regions.list = [] := List.eq_nil_of_length_eq_zero (Nat.le_zero.mp (nothing ▸ regions.length_le))
    simp [Room, nothing, Regions.scaled, Regions.sizes, empty]
  · have bias : (regions.mtotal - 1) / lines < regions.mtotal := by
      have quotient := Nat.div_le_self (regions.mtotal - 1) lines
      omega
    exact sum_rounded_le_iff bias (regions.sum_scaled lines)

end

/-- The layout fits exactly if there are fewer regions than rows and the rounding leaves
room. -/
theorem fits_iff (allocation : Allocation) (regions : Regions) :
    Fits allocation regions ↔ regions.list.length < allocation.height ∧
      Room regions (allocation.height - regions.list.length) := by
  constructor
  · rintro ⟨few, mem, made, last⟩
    have fewer : regions.list.length < allocation.height := by
      refine Nat.lt_of_le_of_ne few fun full => ?_
      rw [layout_full full] at made
      cases made
    obtain ⟨mem', laid, empty, rows⟩ := layout_ok fewer
    obtain rfl := Except.ok.inj (made.symm.trans laid)
    refine ⟨fewer, (room_iff _).mp ?_⟩
    cases list : mem.regs.getLast? with
    | none =>
      have nothing := empty.mp (List.getLast?_eq_none_iff.mp list)
      simp [Regions.scaled, Regions.sizes, nothing]
    | some reg =>
      have bound := last reg list
      rw [rows reg list] at bound
      omega
  · rintro ⟨fewer, room⟩
    obtain ⟨mem, laid, _, rows⟩ := layout_ok fewer
    refine ⟨fewer.le, mem, laid, fun reg member => ?_⟩
    have bound := (room_iff _).mpr room
    rw [rows reg member]
    omega

/-- Two rows for each region are enough. -/
theorem room_of_twice {regions : Regions} {lines : ℕ} (few : regions.list.length ≤ lines) : Room regions lines := by
  rcases Nat.eq_zero_or_pos regions.mtotal with nothing | positive
  · simp [Room, nothing]
  · refine (room_iff lines).mp (sum_rounded_le ?_ (regions.sum_scaled lines) ?_)
    · have share := Nat.div_mul_le_self (regions.mtotal - 1) lines
      omega
    · simpa [Regions.scaled, Regions.sizes] using few

/-- Two regions of a page each do not fit into three rows: both are given the one row there is. -/
example : ¬ Room { list := [⟨4096, 4096⟩, ⟨12288, 4096⟩], positive := by decide, total := by decide } 1 := by
  unfold Room
  decide

/-- One region on a widget of one row, as GTK makes it before it is shown. -/
theorem fits_single : ¬ Fits { width := 1, height := 1, positive := by decide, bounded := by decide }
    { list := [⟨4096, 4096⟩], positive := by decide, total := by decide } := by
  rintro ⟨_, mem, made, _⟩
  cases made

end Memprof.MemMap
