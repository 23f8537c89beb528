import Memprof.Library.Bisection
import Memprof.Library.Scanf
import Memprof.LeakDetect

/-! # `process.c`: the code to map addresses to object files

The two readers of `/proc/PID/maps`, and `process_locate_symbol` with the maps and symbol
tables it looks into.  What the kernel, the file system and BFD say of the target are the
`Files`; the strings of the program are lists of characters.
-/

namespace Memprof

open Library Scanf

/-- A `Char` stands for a byte. -/
abbrev CString := List Char

/-! ## Reading the maps -/

/-- `"%lx-%lx %15s %*x %x:%x %lu %255s"` -/
def processMapsFormat : List Directive :=
  [.number 16 (some 64), .literal '-', .number 16 (some 64), .space, .word 15, .space, .number 16 none, .space,
    .number 16 (some 32), .literal ':', .number 16 (some 32), .space, .number 10 (some 64), .space, .word 255]

/-- `"%" G_GSIZE_FORMAT "-%" G_GSIZE_FORMAT " %15s %*x %" G_GSIZE_FORMAT ":%" G_GSIZE_FORMAT
" %" G_GSIZE_FORMAT " %255s"`, where a `gsize` is written as `lu`. -/
def stackMapsFormat : List Directive :=
  [.number 10 (some 64), .literal '-', .number 10 (some 64), .space, .word 15, .space, .number 16 none, .space,
    .number 10 (some 64), .literal ':', .number 10 (some 64), .space, .number 10 (some 64), .space, .word 255]

/-- A symbol of an object file, as BFD gives it. -/
structure ASymbol where
  /-- `BSF_FUNCTION` -/
  isFunction : Bool
  sectionName : CString
  value : UInt64
  name : CString

structure Symbol where
  addr : UInt64
  size : UInt64 := 0
  name : CString
deriving DecidableEq

def compareAddress (symbol1 symbol2 : Symbol) : ℤ :=
  if symbol1.addr < symbol2.addr then -1 else if symbol1.addr = symbol2.addr then 0 else 1

/-- The array of a map: `qsort` has sorted it, and the `int` that `prepare_map` counts with
has not overflowed. -/
structure Symbols where
  data : List Symbol
  sorted : data.Pairwise fun symbol1 symbol2 => symbol1.addr ≤ symbol2.addr
  few : data.length < 2 ^ 31

/-- A `Map` of `process_read_maps`. -/
structure ObjectMap extends Map where
  name : Option CString := none
  symbols : Option Symbols := none
  doOffset : Bool := true
  prepared : Bool := false

/-- What `find_line` gives for an address. -/
structure Line where
  filename : Option CString
  functionname : CString
  line : UInt32
  /-- The caller may free `functionname`.  `NULL`, which is printed as `(null)`, may be freed. -/
  owned : Bool

structure Files where
  /-- The lines of `/proc/PID/maps`; nothing if it cannot be opened. -/
  maps : Option (List CString)
  /-- `locate_inode`, of the device that `makedev` makes of two numbers. -/
  locateInode : UInt32 → UInt32 → UInt64 → Option CString
  /-- The inode and the device that `stat` gives for a file and for `/proc/PID/exe`. -/
  stat : CString → Option (UInt64 × UInt64)
  exe : Option (UInt64 × UInt64)
  /-- `read_bfd`: what it leaves in `map->syms`. -/
  readBfd : ObjectMap → Option (List ASymbol)
  demangle : CString → CString
  /-- `find_line`, which is not in this repository. -/
  findLine : ObjectMap → Addr → Option Line := fun _ _ => none

/-- Only the maps of the executable itself keep their addresses. -/
def Files.offsets (files : Files) (name : CString) : Bool :=
  match files.stat name, files.exe with
  | some file, some exe => file ≠ exe
  -- `g_warning ("Cannot stat %s: %s\n", ...)`
  | _, _ => true

/-- The body of the loop of `process_read_maps`. -/
def processReadMap (files : Files) (mapList : List ObjectMap) (buffer : CString) : List ObjectMap :=
  match scan processMapsFormat buffer with
  | .number start :: .number end_ :: .text perms :: .number major :: .number minor :: .number inode :: rest =>
    if perms = ['r', '-', 'x', 'p'] then
      let name :=
        match rest with
        | .text file :: _ => some file
        | _ => files.locateInode (.ofNat major) (.ofNat minor) (.ofNat inode)
      { addr := .ofNat start
        size := .ofNat end_ - .ofNat start
        name := name
        doOffset := name.all files.offsets } :: mapList
    else mapList
  -- `count < 6`
  | _ => mapList

def processReadMaps (files : Files) : Except Fault (List ObjectMap) :=
  match files.maps with
  -- `fgets` of a file that was not opened.
  | none => .error .nullDereference
  | some lines => .ok (lines.foldl (processReadMap files) [])

/-- The body of the loop of `read_stack_maps`. -/
def readStackMap (result : List Map) (buffer : CString) : List Map :=
  match scan stackMapsFormat buffer with
  | .number start :: .number end_ :: .text perms :: .number _ :: .number _ :: .number _ :: _ =>
    if perms = ['r', 'w', 'x', 'p'] then { addr := .ofNat start, size := .ofNat end_ - .ofNat start } :: result
    else result
  | _ => result

def readStackMaps (files : Files) : List Map :=
  match files.maps with
  | none => []
  | some lines => lines.foldl readStackMap []

/-! ## Symbols -/

def Symbols.sort (symbols : List Symbol) (few : symbols.length < 2 ^ 31) : Symbols where
  data := symbols.mergeSort fun symbol1 symbol2 => compareAddress symbol1 symbol2 ≤ 0
  sorted := by
    have compares : ∀ symbol1 symbol2 : Symbol, compareAddress symbol1 symbol2 ≤ 0 ↔ symbol1.addr ≤ symbol2.addr := by
      intro symbol1 symbol2
      rw [compareAddress, UInt64.le_iff_lt_or_eq]
      split
      next less => simp [less]
      next notLess =>
        split
        next same => simp [same]
        next other => simp [notLess, other]
    refine (List.pairwise_mergeSort ?_ ?_ symbols).imp fun le => (compares _ _).mp (by simpa using le)
    · intro symbol1 symbol2 symbol3 first second
      simp only [decide_eq_true_eq, compares] at first second ⊢
      exact UInt64.le_trans first second
    · intro symbol1 symbol2
      simp only [Bool.or_eq_true, decide_eq_true_eq, compares]
      exact UInt64.le_total _ _
  few := by rwa [List.length_mergeSort]

/-- The functions of the text section. -/
def readSymbol (files : Files) (asymbol : ASymbol) : Option Symbol :=
  if asymbol.isFunction = true ∧ asymbol.sectionName = ['.', 't', 'e', 'x', 't'] then
    some { addr := asymbol.value, name := files.demangle asymbol.name }
  else none

/-- `for (i = 0; i < map->symcount; i++)`, with an `int` for a `long`, and the `qsort`. -/
def readSymbols (files : Files) (syms : List ASymbol) : Except Fault Symbols :=
  if few : syms.length < 2 ^ 31 then
    .ok (.sort (syms.filterMap (readSymbol files)) ((List.length_filterMap_le _ _).trans_lt few))
  else .error .signedOverflow

def prepareMap (files : Files) (map : ObjectMap) : Except Fault ObjectMap :=
  match files.readBfd map with
  | none => .ok { map with prepared := true }
  | some syms => do
    let symbols ← readSymbols files syms
    -- An executable that does not depend on its position lies above all of its symbols.
    let above := symbols.data.getLast?.any (·.addr < map.addr)
    .ok { map with prepared := true, symbols := some symbols, doOffset := map.doOffset || above }

/-! ## Looking up an address -/

/-- `map_list` and `bad_pages` of a process. -/
structure MapCache where
  mapList : List ObjectMap := []
  badPages : List Addr := []

/-- The position of the map rather than a pointer to it. -/
def realLocateMap (mapList : List ObjectMap) (addr : Addr) : Option ℕ :=
  mapList.findIdx? fun map => map.addr ≤ addr ∧ addr < map.addr + map.size

def mpPageSize : Addr := 4096

/-- The end of `locate_map`: the map at position `i` is prepared if it is not. -/
def prepareFound (files : Files) (cache : MapCache) (i : ℕ) : Except Fault (MapCache × Option ObjectMap) :=
  match cache.mapList[i]? with
  | none => .error .nullDereference
  | some map =>
    if map.prepared then .ok (cache, some map)
    else do
      let map ← prepareMap files map
      .ok ({ cache with mapList := cache.mapList.set i map }, some map)

def locateMap (files : Files) (cache : MapCache) (addr : Addr) : Except Fault (MapCache × Option ObjectMap) :=
  match realLocateMap cache.mapList addr with
  | some i => prepareFound files cache i
  | none =>
    let pageAddr := addr - addr % mpPageSize
    if pageAddr ∈ cache.badPages then .ok (cache, none)
    else do
      -- The target may have mapped something since.
      let mapList ← processReadMaps files
      match realLocateMap mapList addr with
      | some i => prepareFound files { cache with mapList := mapList } i
      | none => .ok ({ mapList := mapList, badPages := pageAddr :: cache.badPages }, none)

/-- `data[i]` -/
def symbolAt (data : List Symbol) (i : UInt32) : Except Fault Symbol :=
  match data[i.toNat]? with
  | some symbol => .ok symbol
  | none => .error .outOfBounds

/-- The part of `process_locate_symbol` after `addr -= map->addr`: the symbol whose name it
returns.  Only the last symbol is compared before the loop. -/
def locateSymbol (fuel : ℕ) (data : List Symbol) (addr : Addr) : Except Fault Symbol := do
  let last := UInt32.ofNat data.length - 1
  let highest ← symbolAt data last
  if addr < highest.addr then
    let first ← bisect (fun middle => (symbolAt data middle).map fun symbol => decide (addr < symbol.addr))
      .outOfFuel fuel 0 last
    symbolAt data first
  else .ok highest

def unknownMap : CString := "<unknown map>".toList

/-- The name is nothing for a map without symbols that belongs to no file. -/
def processLocateSymbol (fuel : ℕ) (files : Files) (cache : MapCache) (addr : Addr) :
    Except Fault (MapCache × Option CString) := do
  let (cache, located) ← locateMap files cache addr
  match located with
  | none => .ok (cache, some unknownMap)
  | some map =>
    match map.symbols with
    | none => .ok (cache, map.name)
    | some symbols =>
      if symbols.data = [] then .ok (cache, map.name)
      else do
        let symbol ← locateSymbol fuel symbols.data (if map.doOffset then addr - map.addr else addr)
        .ok (cache, some symbol.name)

end Memprof
