import Memprof.Locating

/-! # What an address is in one reading of the maps

As long as `locate_map` does not read the maps again, `process_locate_symbol` answers what
the maps that were read last say of an address: preparing a map changes the list, but none
of the answers.
-/

namespace Memprof

open Library

section

variable {π : Type} (fuel : ℕ) (files : ℕ → Files) (place : NameOf → π)

/-- `if (!map->prepared)` -/
def Files.prepared (files : Files) (map : ObjectMap) : Except Fault ObjectMap :=
  if map.prepared then .ok map else prepareMap files map

/-- What an address is in the maps of a reading. -/
def nameIn (reads : ℕ) (mapList : List ObjectMap) (addr : Addr) : Except Fault (Option (CharPtr π)) :=
  match realLocateMap mapList addr with
  | none => .ok (some ⟨place none, unknownMap⟩)
  | some i =>
    match mapList[i]? with
    | none => .error .nullDereference
    | some map => do
      let map ← (files reads).prepared map
      nameInMap fuel place reads i map addr

/-- What the maps that were read last say of an address. -/
def MapReader.answer (reader : MapReader) (addr : Addr) : Except Fault (Option (CharPtr π)) :=
  nameIn fuel files place reader.reads reader.cache.mapList addr

/-- The maps of a reading; before the first one there are none. -/
def mapsOfReading : ℕ → List ObjectMap
  | 0 => []
  | reads + 1 => (processReadMaps (files (reads + 1))).toOption.getD []

/-- What is in the list is what some reading has left there. -/
def MapReader.InForce (reader : MapReader) : Prop :=
  ∃ reads, reader.answer fuel files place = nameIn fuel files place reads (mapsOfReading files reads)

end

namespace Locating

variable {π : Type} {fuel : ℕ} {files : ℕ → Files} {place : NameOf → π}

/-! ## The maps -/

theorem set_held {α : Type} {items : List α} {i : ℕ} {item : α} (held : items[i]? = some item) :
    items.set i item = items := by
  obtain ⟨inside, rfl⟩ := List.getElem?_eq_some_iff.mp held
  exact List.set_getElem_self inside

theorem realLocateMap_eq (mapList : List ObjectMap) (addr : Addr) :
    realLocateMap mapList addr =
      (mapList.map ObjectMap.toMap).findIdx? fun map => map.addr ≤ addr ∧ addr < map.addr + map.size := by
  rw [List.findIdx?_map]
  rfl

theorem prepareMap_ok {files : Files} {map map' : ObjectMap} (prepared : prepareMap files map = .ok map') :
    map'.toMap = map.toMap ∧ map'.prepared = true := by
  unfold prepareMap at prepared
  split at prepared
  next =>
    cases prepared
    exact ⟨rfl, rfl⟩
  next =>
    obtain ⟨symbols, _, prepared⟩ := ok_of_bind prepared
    cases prepared
    exact ⟨rfl, rfl⟩

theorem prepared_ok {files : Files} {map map' : ObjectMap} (prepared : files.prepared map = .ok map') :
    map'.toMap = map.toMap ∧ files.prepared map' = .ok map' := by
  unfold Files.prepared at prepared
  split at prepared
  next already =>
    cases prepared
    exact ⟨rfl, by rw [Files.prepared, if_pos already]⟩
  next =>
    obtain ⟨same, already⟩ := prepareMap_ok prepared
    exact ⟨same, by rw [Files.prepared, if_pos already]⟩

theorem realLocateMap_set {mapList : List ObjectMap} {i : ℕ} {map map' : ObjectMap} (held : mapList[i]? = some map)
    (same : map'.toMap = map.toMap) (addr : Addr) :
    realLocateMap (mapList.set i map') addr = realLocateMap mapList addr := by
  have unchanged : (mapList.set i map').map ObjectMap.toMap = mapList.map ObjectMap.toMap := by
    rw [List.map_set, same]
    exact set_held (by rw [List.getElem?_map, held, Option.map_some])
  rw [realLocateMap_eq, unchanged, ← realLocateMap_eq]

/-- A map says the same before and after it is prepared. -/
theorem nameIn_set {reads : ℕ} {mapList : List ObjectMap} {i : ℕ} {map map' : ObjectMap}
    (held : mapList[i]? = some map) (prepared : (files reads).prepared map = .ok map') :
    nameIn fuel files place reads (mapList.set i map') = nameIn fuel files place reads mapList := by
  funext addr
  obtain ⟨same, again⟩ := prepared_ok prepared
  unfold nameIn
  rw [realLocateMap_set held same]
  cases realLocateMap mapList addr with
  | none => rfl
  | some j =>
    by_cases isPrepared : i = j
    · subst isPrepared
      have here : (mapList.set i map')[i]? = some map' := List.getElem?_set_self (List.getElem?_eq_some_iff.mp held).1
      simp only [here, held, again, prepared, ok_bind]
    · simp only [List.getElem?_set_ne isPrepared]

theorem prepareFound_ok {files : Files} {cache cache' : MapCache} {i : ℕ} {located : Option ObjectMap}
    (found : prepareFound files cache i = .ok (cache', located)) :
    ∃ map map', cache.mapList[i]? = some map ∧ files.prepared map = .ok map' ∧ located = some map' ∧
      cache'.mapList = cache.mapList.set i map' := by
  unfold prepareFound at found
  split at found
  next => cases found
  next map held =>
    split at found
    next already =>
      cases found
      refine ⟨map, map, held, by rw [Files.prepared, if_pos already], rfl, ?_⟩
      exact (set_held held).symm
    next unprepared =>
      obtain ⟨map', prepared, found⟩ := ok_of_bind found
      cases found
      exact ⟨map, map', held, by rw [Files.prepared, if_neg unprepared, prepared], rfl, rfl⟩

/-! ## One lookup -/

variable {reader reader' : MapReader} {addr : Addr} {ptr : Option (CharPtr π)}

/-- What `locate_map` leaves in the list is what it found there or read. -/
theorem locateMap_ok {files : Files} {cache cache' : MapCache} {located : Option ObjectMap}
    (returned : locateMap files cache addr = .ok (cache', located)) :
    ∃ mapList, (if cache.Rereads addr then processReadMaps files = .ok mapList else mapList = cache.mapList) ∧
      ((realLocateMap mapList addr = none ∧ located = none ∧ cache'.mapList = mapList) ∨
        ∃ i map map', realLocateMap mapList addr = some i ∧ mapList[i]? = some map ∧ files.prepared map = .ok map' ∧
          located = some map' ∧ cache'.mapList = mapList.set i map') := by
  unfold locateMap at returned
  split at returned
  next i inside =>
    have known : ¬ cache.Rereads addr := by
      rintro ⟨outside, _⟩
      rw [inside] at outside
      cases outside
    obtain ⟨map, map', held, prepared, rfl, after⟩ := prepareFound_ok returned
    exact ⟨cache.mapList, by rw [if_neg known], .inr ⟨i, map, map', inside, held, prepared, rfl, after⟩⟩
  next outside =>
    by_cases bad : addr - addr % mpPageSize ∈ cache.badPages
    · rw [if_pos bad] at returned
      cases returned
      exact ⟨cache.mapList, by rw [if_neg fun rereads => rereads.2 bad], .inl ⟨outside, rfl, rfl⟩⟩
    · rw [if_neg bad] at returned
      obtain ⟨mapList, read, returned⟩ := ok_of_bind returned
      refine ⟨mapList, by rw [if_pos ⟨outside, bad⟩, read], ?_⟩
      split at returned
      next i inside =>
        obtain ⟨map, map', held, prepared, rfl, after⟩ := prepareFound_ok returned
        exact .inr ⟨i, map, map', inside, held, prepared, rfl, after⟩
      next outsideToo =>
        cases returned
        exact .inl ⟨outsideToo, rfl, rfl⟩

/-- A lookup answers what the maps say that it leaves, which are those of before unless it
reads them. -/
theorem locate_ok (returned : reader.locate fuel files place addr = .ok (reader', ptr)) :
    reader'.answer fuel files place addr = .ok ptr ∧
      if reader.cache.Rereads addr then
        reader'.answer fuel files place =
          nameIn fuel files place (reader.reads + 1) (mapsOfReading files (reader.reads + 1))
      else reader'.answer fuel files place = reader.answer fuel files place := by
  unfold MapReader.locate at returned
  obtain ⟨⟨cache, located⟩, ran, returned⟩ := ok_of_bind returned
  obtain ⟨mapList, read, cases⟩ := locateMap_ok ran
  generalize asked : (if reader.cache.Rereads addr then reader.reads + 1 else reader.reads) = reads at *
  -- What is left in the list says the same as what was found or read.
  have left : nameIn fuel files place reads cache.mapList = nameIn fuel files place reads mapList := by
    rcases cases with ⟨_, _, same⟩ | ⟨i, map, map', _, held, prepared, _, after⟩
    · rw [same]
    · rw [after, nameIn_set held prepared]
  have answered : reader' = ⟨reads, cache⟩ ∧ nameIn fuel files place reads mapList addr = .ok ptr := by
    rcases cases with ⟨outside, rfl, same⟩ | ⟨i, map, map', inside, held, prepared, rfl, after⟩
    · cases returned
      exact ⟨rfl, by rw [nameIn, outside]⟩
    · have located : realLocateMap cache.mapList addr = some i := by
        rw [after, realLocateMap_set held (prepared_ok prepared).1, inside]
      simp only [located] at returned
      obtain ⟨_, named, returned⟩ := ok_of_bind returned
      cases returned
      refine ⟨rfl, ?_⟩
      simp only [nameIn, inside, held, prepared, ok_bind, named]
  obtain ⟨rfl, answered⟩ := answered
  refine ⟨(congrFun left addr).trans answered, ?_⟩
  by_cases rereads : reader.cache.Rereads addr
  · rw [if_pos rereads] at read asked ⊢
    subst asked
    show nameIn fuel files place _ cache.mapList = _
    rw [left, mapsOfReading, read]
    rfl
  · rw [if_neg rereads] at read asked ⊢
    subst asked read
    exact left

theorem inForce_of_locate (returned : reader.locate fuel files place addr = .ok (reader', ptr))
    (inForce : reader.InForce fuel files place) : reader'.InForce fuel files place := by
  obtain ⟨_, after⟩ := locate_ok returned
  split at after
  next => exact ⟨_, after⟩
  next =>
    obtain ⟨reads, same⟩ := inForce
    exact ⟨reads, after.trans same⟩

/-- Before the first reading, and after the maps were dropped. -/
theorem inForce_empty (reads : ℕ) (badPages : List Addr) :
    MapReader.InForce fuel files place ⟨reads, { badPages := badPages }⟩ := ⟨0, rfl⟩

/-! ## The strings -/

theorem locateSymbol_eq (fuel : ℕ) (data : List Symbol) (addr : Addr) :
    locateSymbol fuel data addr = (locateIndex fuel data addr >>= symbolAt data) := by
  simp only [locateSymbol, locateIndex]
  cases found : symbolAt data (UInt32.ofNat data.length - 1) with
  | error fault => rfl
  | ok highest =>
    simp only [ok_bind]
    split
    next => rfl
    next => rw [ok_bind, found]

/-- The string is what `process_locate_symbol` returns. -/
theorem nameInMap_text (reads i : ℕ) (map : ObjectMap) (addr : Addr) :
    (nameInMap fuel place reads i map addr).map (Option.map CharPtr.text) =
      match map.symbols with
      | none => .ok map.name
      | some symbols =>
        if symbols.data = [] then .ok map.name
        else (locateSymbol fuel symbols.data (if map.doOffset then addr - map.addr else addr)).map fun symbol =>
          some symbol.name := by
  unfold nameInMap
  have mapName : (map.name.map (CharPtr.mk (place (some (reads, i, none))))).map CharPtr.text = map.name := by
    cases map.name <;> rfl
  cases map.symbols with
  | none => simp only [Except.map, mapName]
  | some symbols =>
    by_cases empty : symbols.data = []
    · simp only [empty, if_true, Except.map, mapName]
    · simp only [empty, if_false, locateSymbol_eq]
      cases locateIndex fuel symbols.data (if map.doOffset then addr - map.addr else addr) with
      | error fault => rfl
      | ok index =>
        rw [ok_bind, ok_bind]
        cases symbolAt symbols.data index <;> rfl

/-- What is looked up is the string that `process_locate_symbol` returns. -/
theorem locate_text (reader : MapReader) (addr : Addr) :
    (reader.locate fuel files place addr).map (fun located => (located.1.cache, located.2.map CharPtr.text)) =
      processLocateSymbol fuel (files (if reader.cache.Rereads addr then reader.reads + 1 else reader.reads)) reader.cache
        addr := by
  simp only [MapReader.locate, processLocateSymbol]
  generalize (if reader.cache.Rereads addr then reader.reads + 1 else reader.reads) = reads
  cases ran : locateMap (files reads) reader.cache addr with
  | error fault => rfl
  | ok result =>
    obtain ⟨cache, located⟩ := result
    obtain ⟨mapList, _, ⟨_, rfl, _⟩ | ⟨i, map, map', inside, held, prepared, rfl, after⟩⟩ := locateMap_ok ran
    · rfl
    · have located : realLocateMap cache.mapList addr = some i := by
        rw [after, realLocateMap_set held (prepared_ok prepared).1, inside]
      have text := @nameInMap_text _ fuel place reads i map' addr
      simp only [ok_bind, located]
      generalize nameInMap fuel place reads i map' addr = outcome at text ⊢
      have bare : outcome.map (Option.map CharPtr.text) = .ok map'.name →
          (outcome >>= fun ptr => Except.ok ((⟨reads, cache⟩ : MapReader), ptr)).map
            (fun located => (located.1.cache, located.2.map CharPtr.text)) = .ok (cache, map'.name) := by
        intro same
        obtain ⟨ptr, rfl, named⟩ := ok_of_map same
        simp only [ok_bind, Except.map, named]
      cases tabled : map'.symbols with
      | none =>
        rw [tabled] at text
        exact bare text
      | some symbols =>
        rw [tabled] at text
        by_cases empty : symbols.data = []
        · simp only [empty, if_true] at text ⊢
          exact bare text
        · simp only [empty, if_false] at text ⊢
          generalize locateSymbol fuel symbols.data (if map'.doOffset then addr - map'.addr else addr) = found at text ⊢
          cases found with
          | error fault =>
            cases outcome with
            | error fault' =>
              cases text
              rfl
            | ok ptr => cases text
          | ok symbol =>
            obtain ⟨ptr, rfl, named⟩ := ok_of_map text
            simp only [ok_bind, Except.map, named]

end Locating

end Memprof
