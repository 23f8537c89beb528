import Memprof.LeakDetect

/-! # `leakdetect.c`: `scan_block` on either data model

The functions from `scan_block` downwards, with the addresses that are asked for.  A
pointer of four bytes is an `Addr` below `2 ^ 32`, and sums of addresses wrap.
-/

namespace Memprof.DataModel

open Library

/-- Addresses have as many bits as pointers. -/
def wrap (model : DataModel) (addr : Addr) : Addr := UInt64.ofNat (addr.toNat % 2 ^ model.bits)

def within (model : DataModel) (blocks : Store Block) (arr : List BlockId) (addr : Addr) (i : UInt32) :
    Except Fault (Option BlockId) := do
  let (b, block) ← element blocks arr i
  .ok (if addr < model.wrap (block.addr + block.size.toUInt64) then some b else none)

def findBlock (model : DataModel) (fuel : ℕ) (blocks : Store Block) (arr : List BlockId) (addr : Addr) :
    Except Fault (Option BlockId) :=
  if UInt32.ofNat arr.length = 0 then .ok none
  else do
    let last := UInt32.ofNat arr.length - 1
    let (_, lowest) ← element blocks arr 0
    if addr < lowest.addr then .ok none
    else
      let (_, highest) ← element blocks arr last
      if addr < highest.addr then
        let first ← findBlockLoop blocks arr addr fuel 0 last
        model.within blocks arr addr first
      else model.within blocks arr addr last

def scanWord (model : DataModel) (fuel : ℕ) (arr : List BlockId) (mem : List Addr) (list : BlockList) (i : ℕ) :
    Except Fault BlockList :=
  match mem[i]? with
  | none => .error .outOfBounds
  | some word => do
    let found ← model.findBlock fuel list.1 arr word
    match found with
    | none => .ok list
    | some b => do
      let block ← deref list.1 b
      if block.flags.isRoot then .error .assertion
      else if block.flags.marked then .ok list
      else .ok (list.1.put b { block with flags := { block.flags with marked := true } }, b :: list.2)

/-- The loop goes by `sizeof (void *)`. -/
def scanBlockContents (model : DataModel) (fuel : ℕ) (arr : List BlockId) (list : BlockList) (block : Block)
    (mem : List Addr) : Except Fault BlockList :=
  (List.range (block.size.toNat / model.pointerSize)).foldlM (model.scanWord fuel arr mem) list

/-- `block->addr + i * sizeof (void *)` -/
def wordAddr (model : DataModel) (block : Block) (i : ℕ) : Addr :=
  model.wrap (block.addr + UInt64.ofNat (i * model.pointerSize))

/-- `(block->size + 3) / 4`, the length of `mem` on every machine. -/
def memLength (block : Block) : ℕ := ((block.size + 3) / 4).toNat

/-- The addresses that are asked for, and `mem` if all of them can be read. -/
def readWords (peekData : Addr → Option Addr) : List Addr → List Addr × Option (List Addr)
  | [] => ([], some [])
  | addr :: rest =>
    match peekData addr with
    | none => ([addr], none)
    | some word =>
      let (asked, mem) := readWords peekData rest
      (addr :: asked, mem.map (word :: ·))

def scanBlock (model : DataModel) (fuel : ℕ) (target : Target) (arr : List BlockId) (list : BlockList) (b : BlockId) :
    List Addr × Except Fault BlockList :=
  match deref list.1 b with
  | .error fault => ([], .error fault)
  | .ok block =>
    match readWords target.peekData ((List.range (memLength block)).map (model.wordAddr block)) with
    -- `g_warning ("Cannot read word ...")`
    | (asked, none) => (asked, .ok list)
    | (asked, some mem) => (asked, model.scanBlockContents fuel arr list block mem)

end Memprof.DataModel
