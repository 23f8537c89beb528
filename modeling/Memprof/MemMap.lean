import Mathlib.Data.UInt
import Memprof.Types

/-! # `detailwin.c`: the memory map

The regions of the target below each other, as `dw_draw_memmap` lays them out, and the
rectangles that `dw_draw_memmap_foreach` draws for a block.  Left out are colours, pixmaps
and the pages of the regions.
-/

namespace Memprof.MemMap

/-- The allocation of a widget; an X window has 16 bits for its width and its height. -/
structure Allocation where
  width : ℕ
  height : ℕ
  positive : 0 < width ∧ 0 < height
  bounded : width < 2 ^ 16 ∧ height < 2 ^ 16

/-- Start and size of an anonymous `rw-p` mapping. -/
structure Region where
  start : Addr
  size : UInt64
deriving DecidableEq

/-- The regions of a target; they are parts of an address space of 47 bits. -/
structure Regions where
  list : List Region
  positive : ∀ region ∈ list, 0 < region.size.toNat
  total : (list.map fun region => region.size.toNat).sum < 2 ^ 47

/-- `MemReg`: a region with the rows it is given. -/
structure MemReg extends Region where
  y : Int32
  h : Int32
deriving DecidableEq

/-- `Mem`: the width of the widget, the bytes of a pixel and the regions. -/
structure Mem where
  w : UInt32
  bpp : UInt32
  regs : List MemReg
  wide : 0 < w.toNat
  scaled : 0 < bpp.toNat

/-! ## The layout -/

def divide (dividend divisor : UInt64) : Except Fault UInt64 :=
  if divisor = 0 then .error .divisionByZero else .ok (dividend / divisor)

/-- A `guint64` that is stored in an `int`. -/
def toInt (value : UInt64) : Int32 := value.toUInt32.toInt32

/-- An `int` in an expression with a `guint64`. -/
def ofInt (value : Int32) : UInt64 := .ofInt value.toInt

/-- `for (i = 0, l = mem.regs; l; l = l->next, i++)`, where `rows` is `h - regnum`. -/
def layoutRegs (rows bpl mtotal : UInt64) : UInt64 → List Region → Except Fault (List MemReg)
  | _, [] => .ok []
  | y, region :: regions => do
    let height ← divide (region.size * rows + bpl - 1) mtotal
    let reg := { region with y := toInt y, h := toInt height : MemReg }
    -- One more row for the divider.
    let regs ← layoutRegs rows bpl mtotal (y + ofInt reg.h + 1) regions
    .ok (reg :: regs)

/-- `mem`; a pixel is at least one byte. -/
def newMem (allocation : Allocation) (bpp : UInt64) (regs : List MemReg) : Mem where
  w := .ofNat allocation.width
  bpp := if bpp.toUInt32 < 1 then 1 else bpp.toUInt32
  regs := regs
  wide := by
    have := allocation.positive.1
    have := allocation.bounded.1
    rw [UInt32.toNat_ofNat']
    omega
  scaled := by
    split
    next => decide
    next one =>
      rw [UInt32.lt_iff_toNat_lt] at one
      exact Nat.le_of_not_lt one

/-- `dw_draw_memmap`, up to where the blocks are drawn. -/
def layout (allocation : Allocation) (regions : List Region) : Except Fault Mem := do
  let w := UInt64.ofNat allocation.width
  let h := UInt64.ofNat allocation.height
  let regnum := UInt64.ofNat regions.length
  let mtotal := (regions.map Region.size).sum
  let bpl ← divide (mtotal + (h - regnum) - 1) (h - regnum)
  let bpp ← divide (bpl + w - 1) w
  let regs ← layoutRegs (h - regnum) bpl mtotal 0 regions
  .ok (newMem allocation bpp regs)

/-! ## A block -/

/-- A filled rectangle that is one row high, as it is computed; GDK takes `gint`s. -/
structure Rectangle where
  x : UInt64
  y : UInt64
  width : UInt64

/-- The first region that the address is in. -/
def Mem.regionOf (mem : Mem) (addr : Addr) : Option MemReg :=
  mem.regs.find? fun reg => reg.start ≤ addr ∧ addr < reg.start + reg.size

/-- The rectangles of a block in the region. -/
def drawBlock (mem : Mem) (reg : MemReg) (block : Block) : List Rectangle :=
  let bpp := mem.bpp.toUInt64
  let addr := block.addr - reg.start
  let w := (addr + block.size.toUInt64 + bpp / 2) / bpp
  let x := addr / bpp
  let w := w - x
  let memw := mem.w.toUInt64
  let y := ofInt reg.y + x / memw
  -- The rows above the region are subtracted as well.
  let x := x - y * memw
  if memw < x + w then [⟨x, y, w⟩, ⟨0, y + 1, w - (memw - x)⟩] else [⟨x, y, w⟩]

/-- `dw_draw_memmap_foreach` -/
def dwDrawMemmapForeach (mem : Mem) (block : Block) : Except Fault (List Rectangle) :=
  -- Without regions `reg` is never set.
  if mem.regs = [] then .error .uninitialized
  else
    match mem.regionOf block.addr with
    | some reg => .ok (drawBlock mem reg block)
    | none => .ok []

end Memprof.MemMap
