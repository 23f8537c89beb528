import Mathlib.Data.Int.ModEq
import Memprof.Verified.Layout

/-! # The rectangles of a block

`x -= y * memw` subtracts the rows above the region together with those of the block, and
the first rectangle of a block that goes on in the next row is as wide as the whole block.
So a block is drawn inside its region only in the first region, and only within one row.
-/

namespace Memprof.MemMap

open Library

/-- The columns of the rectangle are columns of the widget, and its row is one of the
region.  Numbers that are inside are the same for GDK, which reads them as `gint`s. -/
def Rectangle.Inside (rectangle : Rectangle) (mem : Mem) (reg : MemReg) : Prop :=
  rectangle.x.toNat < mem.w.toNat ∧ rectangle.x.toNat + rectangle.width.toNat ≤ mem.w.toNat ∧
    reg.y.toInt ≤ rectangle.y.toNat ∧ rectangle.y.toNat < reg.y.toInt + reg.h.toInt

/-- All rectangles of the block are drawn inside the region it is in. -/
def DrawnInside (mem : Mem) (reg : MemReg) (block : Block) : Prop :=
  ∃ rectangles, dwDrawMemmapForeach mem block = .ok rectangles ∧ ∀ rectangle ∈ rectangles, rectangle.Inside mem reg

/-- The first pixel of the block. -/
def firstPixel (mem : Mem) (reg : MemReg) (block : Block) : UInt64 := (block.addr - reg.start) / mem.bpp.toUInt64

/-- The number of its pixels. -/
def pixels (mem : Mem) (reg : MemReg) (block : Block) : UInt64 :=
  (block.addr - reg.start + block.size.toUInt64 + mem.bpp.toUInt64 / 2) / mem.bpp.toUInt64 - firstPixel mem reg block

/-- Nothing is above the region, and all pixels of the block are in one of its rows. -/
def StaysInRow (mem : Mem) (reg : MemReg) (block : Block) : Prop :=
  reg.y.toInt = 0 ∧ ((firstPixel mem reg block).toNat / mem.w.toNat : ℕ) < reg.h.toInt ∧
    (firstPixel mem reg block).toNat % mem.w.toNat + (pixels mem reg block).toNat ≤ mem.w.toNat

/-! ## Columns and rows of the machine -/

/-- A number of the machine and one that it is congruent to. -/
theorem toNat_eq_of_modEq {value : UInt64} {number : ℤ} (congruent : (value.toNat : ℤ) ≡ number [ZMOD 2 ^ 64])
    (range : 0 ≤ number ∧ number < 2 ^ 64) : (value.toNat : ℤ) = number := by
  have small := value.toNat_lt
  have same := congruent.eq
  rwa [Int.emod_eq_of_lt (by omega) (by omega), Int.emod_eq_of_lt range.1 range.2] at same

theorem ofInt_modEq (value : Int32) : ((ofInt value).toNat : ℤ) ≡ value.toInt [ZMOD 2 ^ 64] := by
  have residue : (ofInt value).toNat = (value.toInt % 2 ^ 64).toNat := by
    rw [ofInt, UInt64.ofInt, UInt64.toNat_ofNat']
    omega
  rw [residue, Int.toNat_of_nonneg (Int.emod_nonneg _ (by decide))]
  exact Int.mod_modEq _ _

theorem add_modEq {a b : UInt64} {m n : ℤ} (left : (a.toNat : ℤ) ≡ m [ZMOD 2 ^ 64])
    (right : (b.toNat : ℤ) ≡ n [ZMOD 2 ^ 64]) : ((a + b).toNat : ℤ) ≡ m + n [ZMOD 2 ^ 64] := by
  rw [UInt64.toNat_add]
  push_cast
  exact (Int.mod_modEq _ _).trans (left.add right)

theorem mul_modEq {a b : UInt64} {m n : ℤ} (left : (a.toNat : ℤ) ≡ m [ZMOD 2 ^ 64])
    (right : (b.toNat : ℤ) ≡ n [ZMOD 2 ^ 64]) : ((a * b).toNat : ℤ) ≡ m * n [ZMOD 2 ^ 64] := by
  rw [UInt64.toNat_mul]
  push_cast
  exact (Int.mod_modEq _ _).trans (left.mul right)

theorem sub_modEq {a b : UInt64} {m n : ℤ} (left : (a.toNat : ℤ) ≡ m [ZMOD 2 ^ 64])
    (right : (b.toNat : ℤ) ≡ n [ZMOD 2 ^ 64]) : ((a - b).toNat : ℤ) ≡ m - n [ZMOD 2 ^ 64] := by
  have whole := add_modEq (a := a - b) (b := b) rfl rfl
  rw [UInt64.sub_add_cancel] at whole
  have difference := (whole.symm.trans left).sub right
  rwa [add_sub_cancel_right] at difference

section

variable {mem : Mem} {reg : MemReg} {block : Block}

/-- The column and the row that the first rectangle is computed to be at. -/
theorem position_modEq (first : UInt64) :
    ((ofInt reg.y + first / mem.w.toUInt64).toNat : ℤ) ≡ reg.y.toInt + (first.toNat / mem.w.toNat : ℕ) [ZMOD 2 ^ 64] ∧
      ((first - (ofInt reg.y + first / mem.w.toUInt64) * mem.w.toUInt64).toNat : ℤ) ≡
        (first.toNat % mem.w.toNat : ℕ) - reg.y.toInt * mem.w.toNat [ZMOD 2 ^ 64] := by
  have row : ((ofInt reg.y + first / mem.w.toUInt64).toNat : ℤ) ≡ reg.y.toInt + (first.toNat / mem.w.toNat : ℕ) [ZMOD 2 ^ 64] := by
    refine add_modEq (ofInt_modEq reg.y) ?_
    rw [UInt64.toNat_div, UInt32.toNat_toUInt64]
  refine ⟨row, ?_⟩
  have width : (mem.w.toUInt64.toNat : ℤ) ≡ mem.w.toNat [ZMOD 2 ^ 64] := by rw [UInt32.toNat_toUInt64]
  have column := sub_modEq (a := first) rfl (mul_modEq row width)
  have split : (first.toNat : ℤ) = mem.w.toNat * (first.toNat / mem.w.toNat : ℕ) + (first.toNat % mem.w.toNat : ℕ) := by
    exact_mod_cast (Nat.div_add_mod first.toNat mem.w.toNat).symm
  have same : (first.toNat : ℤ) - (reg.y.toInt + (first.toNat / mem.w.toNat : ℕ)) * mem.w.toNat =
      (first.toNat % mem.w.toNat : ℕ) - reg.y.toInt * mem.w.toNat := by
    rw [split]
    push_cast
    ring
  rwa [same] at column

/-- The first column is one of the widget only if nothing is above the region. -/
theorem column_iff (first : UInt64) :
    (first - (ofInt reg.y + first / mem.w.toUInt64) * mem.w.toUInt64).toNat < mem.w.toNat ↔ reg.y.toInt = 0 := by
  obtain ⟨_, column⟩ := @position_modEq mem reg first
  have wide := mem.wide
  have bound : mem.w.toNat < 2 ^ 32 := mem.w.toNat_lt
  have inRow := Nat.mod_lt first.toNat wide
  have lower := reg.y.le_toInt
  have upper := reg.y.toInt_lt
  constructor
  · intro inside
    by_contra above
    rcases lt_or_gt_of_ne above with negative | positive
    · -- A region whose `y` is negative is drawn to the right of the widget.
      have least : reg.y.toInt * mem.w.toNat ≤ -1 * mem.w.toNat := Int.mul_le_mul_of_nonneg_right (by omega) (by omega)
      have most : -2 ^ 31 * (mem.w.toNat : ℤ) ≤ reg.y.toInt * mem.w.toNat :=
        Int.mul_le_mul_of_nonneg_right lower (by omega)
      have exact_ := toNat_eq_of_modEq column ⟨by omega, by omega⟩
      omega
    · -- Below another one it would be to the left, which an unsigned number cannot be.
      have least : 1 * (mem.w.toNat : ℤ) ≤ reg.y.toInt * mem.w.toNat :=
        Int.mul_le_mul_of_nonneg_right (by omega) (by omega)
      have most : reg.y.toInt * mem.w.toNat ≤ 2 ^ 31 * (mem.w.toNat : ℤ) :=
        Int.mul_le_mul_of_nonneg_right upper.le (by omega)
      have wrapped := column.trans (Int.ModEq.symm (Int.add_modEq_right (a := (first.toNat % mem.w.toNat : ℕ) - reg.y.toInt * mem.w.toNat) (n := 2 ^ 64)))
      have exact_ := toNat_eq_of_modEq wrapped ⟨by omega, by omega⟩
      omega
  · intro top
    rw [top, zero_mul, sub_zero] at column
    have exact_ := toNat_eq_of_modEq column ⟨by omega, by omega⟩
    omega

theorem inside_iff :
    Rectangle.Inside ⟨firstPixel mem reg block -
        (ofInt reg.y + firstPixel mem reg block / mem.w.toUInt64) * mem.w.toUInt64,
      ofInt reg.y + firstPixel mem reg block / mem.w.toUInt64, pixels mem reg block⟩ mem reg ↔ StaysInRow mem reg block := by
  have wide := mem.wide
  have small := (firstPixel mem reg block).toNat_lt
  have inRow := Nat.mod_lt (firstPixel mem reg block).toNat wide
  have bound : mem.w.toNat < 2 ^ 32 := mem.w.toNat_lt
  have quotient := Nat.div_le_self (firstPixel mem reg block).toNat mem.w.toNat
  obtain ⟨row, column⟩ := @position_modEq mem reg (firstPixel mem reg block)
  rw [Rectangle.Inside, StaysInRow, column_iff]
  refine and_congr_right fun top => ?_
  rw [top, zero_add] at row
  rw [top, zero_mul, sub_zero] at column
  generalize (firstPixel mem reg block).toNat / mem.w.toNat = line at *
  generalize (firstPixel mem reg block).toNat % mem.w.toNat = first at *
  have rowExact := toNat_eq_of_modEq row ⟨by omega, by omega⟩
  have columnExact := toNat_eq_of_modEq column ⟨by omega, by omega⟩
  dsimp only
  rw [rowExact, top]
  omega

/-- A block is drawn inside its region exactly if nothing is above the region and the block
stays in one of its rows. -/
theorem drawnInside_iff (found : mem.regionOf block.addr = some reg) :
    DrawnInside mem reg block ↔ StaysInRow mem reg block := by
  have some_ : mem.regs ≠ [] := by
    intro none
    rw [Mem.regionOf, none] at found
    cases found
  have drawn : dwDrawMemmapForeach mem block = .ok (drawBlock mem reg block) := by
    rw [dwDrawMemmapForeach, if_neg some_, found]
  rw [← inside_iff]
  constructor
  · rintro ⟨rectangles, drawn', all⟩
    obtain rfl := Except.ok.inj (drawn.symm.trans drawn')
    refine all _ ?_
    unfold drawBlock
    dsimp only
    split
    · exact List.mem_cons_self
    · exact List.mem_cons_self
  · intro inside
    refine ⟨_, drawn, fun rectangle member => ?_⟩
    -- What fits needs no second rectangle.
    have fits : ¬ mem.w.toUInt64 < firstPixel mem reg block -
        (ofInt reg.y + firstPixel mem reg block / mem.w.toUInt64) * mem.w.toUInt64 + pixels mem reg block := by
      have width := inside.2.1
      have bound : mem.w.toNat < 2 ^ 32 := mem.w.toNat_lt
      dsimp only at width
      rw [UInt64.lt_iff_toNat_lt, UInt64.toNat_add, UInt32.toNat_toUInt64]
      omega
    have single : drawBlock mem reg block = [⟨firstPixel mem reg block -
        (ofInt reg.y + firstPixel mem reg block / mem.w.toUInt64) * mem.w.toUInt64,
      ofInt reg.y + firstPixel mem reg block / mem.w.toUInt64, pixels mem reg block⟩] := if_neg fits
    rw [single, List.mem_singleton] at member
    rwa [member]

end

/-- Two regions of a page on a widget of 16 columns and 18 rows, and a block at the start of
the first one. -/
def twoRegions : Mem where
  w := 16
  bpp := 32
  regs := [⟨⟨4096, 4096⟩, 0, 8⟩, ⟨⟨12288, 4096⟩, 9, 8⟩]
  wide := by decide
  scaled := by decide

/-- It is what `dw_draw_memmap` lays out. -/
example : (layout { width := 16, height := 18, positive := by decide, bounded := by decide }
    [⟨4096, 4096⟩, ⟨12288, 4096⟩]).toOption.map (fun mem => (mem.w, mem.bpp, mem.regs)) =
      some (twoRegions.w, twoRegions.bpp, twoRegions.regs) := by decide

def blockAt (addr : Addr) : Block := { addr := addr, size := 64, stack := none }

theorem drawnInside_first : DrawnInside twoRegions ⟨⟨4096, 4096⟩, 0, 8⟩ (blockAt 4096) :=
  (drawnInside_iff (by decide)).mpr ⟨by decide, by decide, by decide⟩

/-- The same block in the second region is drawn 144 columns to the left of the widget. -/
theorem drawnInside_second : ¬ DrawnInside twoRegions ⟨⟨12288, 4096⟩, 9, 8⟩ (blockAt 12288) := by
  rintro ⟨rectangles, drawn, all⟩
  cases drawn
  have outside := (all _ List.mem_cons_self).1
  revert outside
  decide

end Memprof.MemMap
