import Memprof.Maps

/-! # `process.c`: what `process_locate_symbol` returns

The callers of `process_locate_symbol` compare what it returns as pointers.  The names of a
map and of its symbols are allocated when the map is read and when it is prepared, so they
are told apart by the reading, the map and the symbol they belong to; `place` says where
each of them lies.  The target and its files may change from one reading to the next.
-/

namespace Memprof

/-- A `char *` and the string it points to. -/
structure CharPtr (π : Type) where
  place : π
  text : CString
deriving DecidableEq

def CharPtr.name {π : Type} (ptr : CharPtr π) : String := .ofList ptr.text

/-- Whose name it is: that of a map of a reading or of one of its symbols, or the literal. -/
abbrev NameOf := Option (ℕ × ℕ × Option UInt32)

/-- `process_read_maps` has been called `reads` times, the last time for `cache`. -/
structure MapReader where
  reads : ℕ := 0
  cache : MapCache := {}

/-- Whether `locate_map` reads the maps. -/
def MapCache.Rereads (cache : MapCache) (addr : Addr) : Prop :=
  realLocateMap cache.mapList addr = none ∧ addr - addr % mpPageSize ∉ cache.badPages

instance (cache : MapCache) (addr : Addr) : Decidable (cache.Rereads addr) := by
  unfold MapCache.Rereads
  infer_instance

/-- The index of the symbol whose name is returned. -/
def locateIndex (fuel : ℕ) (data : List Symbol) (addr : Addr) : Except Fault UInt32 := do
  let last := UInt32.ofNat data.length - 1
  let highest ← symbolAt data last
  if addr < highest.addr then
    Library.bisect (fun middle => (symbolAt data middle).map fun symbol => decide (addr < symbol.addr)) .outOfFuel fuel 0
      last
  else .ok last

section

variable {π : Type} (fuel : ℕ) (files : ℕ → Files) (place : NameOf → π)

/-- The part of `process_locate_symbol` after a map was found, the `i`th of those read last. -/
def nameInMap (reads i : ℕ) (map : ObjectMap) (addr : Addr) : Except Fault (Option (CharPtr π)) :=
  let mapName := map.name.map (CharPtr.mk (place (some (reads, i, none))))
  match map.symbols with
  | none => .ok mapName
  | some symbols =>
    if symbols.data = [] then .ok mapName
    else do
      let index ← locateIndex fuel symbols.data (if map.doOffset then addr - map.addr else addr)
      let symbol ← symbolAt symbols.data index
      .ok (some ⟨place (some (reads, i, some index)), symbol.name⟩)

/-- `process_locate_symbol` -/
def MapReader.locate (reader : MapReader) (addr : Addr) : Except Fault (MapReader × Option (CharPtr π)) := do
  let reads := if reader.cache.Rereads addr then reader.reads + 1 else reader.reads
  let (cache, located) ← locateMap (files reads) reader.cache addr
  match located, realLocateMap cache.mapList addr with
  | some map, some i => do
    let ptr ← nameInMap fuel place reads i map addr
    .ok (⟨reads, cache⟩, ptr)
  | _, _ => .ok (⟨reads, cache⟩, some ⟨place none, unknownMap⟩)

/-- The same as a profile asks it; after a fault nothing is found any more. -/
def locateCharPtr : Option MapReader → Addr → Option (CharPtr π) × Option MapReader
  | none, _ => (none, none)
  | some reader, addr =>
    match reader.locate fuel files place addr with
    | .ok (reader, ptr) => (ptr, some reader)
    | .error _ => (none, none)

end

end Memprof
