import Memprof.Scanning
import Memprof.Verified.Leaks

/-! # The words of a block

`scan_block` asks for a word for every four bytes of the block, and looks at one for every
`sizeof (void *)`.  Where a pointer has eight bytes it asks for words behind the block,
and sees nothing at all if those cannot be read.
-/

namespace Memprof.Leaks

open Library

variable {model : DataModel}

/-! ## Addresses -/

/-- The address is in the extent of the block. -/
def Inside (model : DataModel) (block : Block) (addr : Addr) : Prop :=
  ∃ k < block.size.toNat, addr = model.wrap (block.addr + UInt64.ofNat k)

theorem bits_le (model : DataModel) : 32 ≤ model.bits ∧ model.bits ≤ 64 := by
  cases model <;> decide

theorem toNat_wrap (model : DataModel) (addr : Addr) : (model.wrap addr).toNat = addr.toNat % 2 ^ model.bits := by
  have small : addr.toNat % 2 ^ model.bits < 2 ^ 64 :=
    Nat.lt_of_le_of_lt (Nat.mod_le _ _) addr.toNat_lt
  rw [DataModel.wrap, UInt64.toNat_ofNat', Nat.mod_eq_of_lt small]

theorem toNat_wrap_add (model : DataModel) (addr : Addr) (k : ℕ) :
    (model.wrap (addr + UInt64.ofNat k)).toNat = (addr.toNat + k) % 2 ^ model.bits := by
  have divides : 2 ^ model.bits ∣ 2 ^ 64 := Nat.pow_dvd_pow 2 (bits_le model).2
  rw [toNat_wrap, UInt64.toNat_add, UInt64.toNat_ofNat', Nat.mod_mod_of_dvd _ divides, Nat.add_mod,
    Nat.mod_mod_of_dvd _ divides, ← Nat.add_mod]

theorem wrap_lp64 (addr : Addr) : DataModel.lp64.wrap addr = addr := by
  apply UInt64.toNat_inj.mp
  rw [toNat_wrap]
  exact Nat.mod_eq_of_lt addr.toNat_lt

theorem within_lp64 (blocks : Store Block) (arr : List BlockId) (addr : Addr) (i : UInt32) :
    DataModel.lp64.within blocks arr addr i = within blocks arr addr i := by
  unfold DataModel.within within
  simp only [wrap_lp64]

/-- Two words of an address space are different. -/
theorem wordAddr_inside_iff {block : Block} {i : ℕ} (small : i * model.pointerSize < 2 ^ model.bits) :
    Inside model block (model.wordAddr block i) ↔ i * model.pointerSize < block.size.toNat := by
  constructor
  · rintro ⟨k, inside, same⟩
    have large : 2 ^ 32 ≤ 2 ^ model.bits := Nat.pow_le_pow_right (by norm_num) (bits_le model).1
    have fits : k < 2 ^ model.bits := (inside.trans block.size.toNat_lt).trans_le large
    have equal : i * model.pointerSize = k := by
      have congruent : (block.addr.toNat + i * model.pointerSize) % 2 ^ model.bits =
          (block.addr.toNat + k) % 2 ^ model.bits := by
        rw [← toNat_wrap_add, ← toNat_wrap_add, ← same]
        rfl
      generalize i * model.pointerSize = offset at congruent small ⊢
      cases model <;> simp only [DataModel.bits, DataModel.pointerSize] at congruent small fits <;> omega
    rwa [equal]
  · intro inside
    exact ⟨_, inside, rfl⟩

/-! ## Reading -/

section Reading

variable {peekData : Addr → Option Addr}

theorem readWords_asked (addrs : List Addr) : (DataModel.readWords peekData addrs).1 <+: addrs := by
  induction addrs with
  | nil => exact List.prefix_rfl
  | cons addr addrs inductionHypothesis =>
    rw [DataModel.readWords]
    cases peekData addr with
    | none => exact List.cons_prefix_cons.mpr ⟨rfl, List.nil_prefix⟩
    | some word => exact List.cons_prefix_cons.mpr ⟨rfl, inductionHypothesis⟩

theorem readWords_mem (addrs : List Addr) : (DataModel.readWords peekData addrs).2 = addrs.mapM peekData := by
  induction addrs with
  | nil => rfl
  | cons addr addrs inductionHypothesis =>
    rw [DataModel.readWords, List.mapM_cons]
    cases peekData addr with
    | none => rfl
    | some word =>
      rw [← inductionHypothesis]
      obtain ⟨asked, mem⟩ := DataModel.readWords peekData addrs
      cases mem <;> rfl

theorem mapM_readable {addrs : List Addr} (readable : ∀ addr ∈ addrs, (peekData addr).isSome = true) :
    addrs.mapM peekData = some (addrs.map fun addr => (peekData addr).getD 0) := by
  induction addrs with
  | nil => rfl
  | cons addr addrs inductionHypothesis =>
    obtain ⟨word, read⟩ := Option.isSome_iff_exists.mp (readable addr (by simp))
    rw [List.mapM_cons, read, inductionHypothesis fun other member => readable other (by simp [member]), List.map_cons,
      read]
    rfl

/-- Nothing behind a word that cannot be read is asked for. -/
theorem readWords_append_unreadable {front : List Addr} (unreadable : ∃ addr ∈ front, peekData addr = none)
    (back : List Addr) : (DataModel.readWords peekData (front ++ back)).1 = (DataModel.readWords peekData front).1 := by
  induction front with
  | nil => simp at unreadable
  | cons first front inductionHypothesis =>
    rw [List.cons_append, DataModel.readWords, DataModel.readWords]
    cases read : peekData first with
    | none => rfl
    | some word =>
      have later : ∃ addr ∈ front, peekData addr = none := by simpa [read] using unreadable
      exact congrArg (first :: ·) (inductionHypothesis later)

theorem mem_readWords_asked {front : List Addr} (readable : ∀ addr ∈ front, (peekData addr).isSome = true) (addr : Addr)
    (back : List Addr) : addr ∈ (DataModel.readWords peekData (front ++ addr :: back)).1 := by
  induction front with
  | nil =>
    rw [List.nil_append, DataModel.readWords]
    cases peekData addr <;> simp
  | cons first front inductionHypothesis =>
    obtain ⟨word, read⟩ := Option.isSome_iff_exists.mp (readable first (by simp))
    rw [List.cons_append, DataModel.readWords, read]
    exact List.mem_cons_of_mem first (inductionHypothesis fun other member => readable other (by simp [member]))

end Reading

/-! ## Looking into blocks -/

section Scanning

variable {view : BlockId → Block} {arr known : List BlockId} {target : Target} {search : ℕ}
  {find : Addr → Option BlockId}

/-- The blocks of the array end inside the address space. -/
def Addressable (model : DataModel) (view : BlockId → Block) (arr : List BlockId) : Prop :=
  ∀ b ∈ arr, (view b).addr.toNat + (view b).size.toNat < 2 ^ model.bits

theorem wrap_of_lt {addr : Addr} (fits : addr.toNat < 2 ^ model.bits) : model.wrap addr = addr := by
  apply UInt64.toNat_inj.mp
  rw [toNat_wrap, Nat.mod_eq_of_lt fits]

theorem within_eq (addressable : Addressable model view arr) {marked : Finset BlockId} {blocks : Store Block}
    (visible : Shows view known marked blocks) (array : ∀ b ∈ arr, b ∈ known) (addr : Addr) (i : UInt32) :
    model.within blocks arr addr i = within blocks arr addr i := by
  unfold DataModel.within within
  by_cases inside : i.toNat < arr.length
  · rw [element_ok visible array inside, ok_bind, ok_bind]
    have bounded := addressable _ (List.getElem_mem inside)
    have small := Nat.lt_of_lt_of_le bounded (Nat.pow_le_pow_right (by norm_num) (bits_le model).2)
    have same : model.wrap ((view arr[i.toNat]).addr + (view arr[i.toNat]).size.toUInt64) =
        (view arr[i.toNat]).addr + (view arr[i.toNat]).size.toUInt64 := by
      apply wrap_of_lt
      rwa [UInt64.toNat_add, UInt32.toNat_toUInt64, Nat.mod_eq_of_lt small]
    simp only [shown, same]
    rfl
  · rw [element, List.getElem?_eq_none (by omega)]
    rfl

theorem scanWord_congr {list : BlockList} (mem : List Addr) (i : ℕ)
    (same : ∀ addr, model.findBlock search list.1 arr addr = findBlock search list.1 arr addr) :
    model.scanWord search arr mem list i = scanWord search arr mem list i := by
  unfold DataModel.scanWord scanWord
  cases mem[i]? with
  | none => rfl
  | some word => exact congrArg (· >>= _) (same word)

theorem scanWord_eq (addressable : Addressable model view arr) {marking : Worklist.Marking BlockId} {list : BlockList}
    (simulates : Simulates view known marking list) (array : ∀ b ∈ arr, b ∈ known) (mem : List Addr) (i : ℕ) :
    model.scanWord search arr mem list i = scanWord search arr mem list i := by
  apply scanWord_congr
  intro addr
  unfold DataModel.findBlock findBlock
  simp only [within_eq addressable simulates.visible array]

/-- What `scan_block` does is right: it asks for nothing outside, and if the words of the
block can be read it looks at all of them and marks what they point at. -/
structure ScansWords (model : DataModel) (target : Target) (view : BlockId → Block) (arr : List BlockId)
    (list : BlockList) (b : BlockId) : Prop where
  inside : ∀ search, ∀ addr ∈ (model.scanBlock search target arr list b).1, Inside model (view b) addr
  passed : (∀ i, i * model.pointerSize < (view b).size.toNat →
      (target.peekData (model.wordAddr (view b) i)).isSome = true) →
    ∃ asked mem, DataModel.readWords target.peekData
        ((List.range (DataModel.memLength (view b))).map (model.wordAddr (view b))) = (asked, some mem) ∧
      ∀ i < (view b).size.toNat / model.pointerSize, mem[i]? = target.peekData (model.wordAddr (view b) i)
  marks : (∀ i, i * model.pointerSize < (view b).size.toNat →
      (target.peekData (model.wordAddr (view b) i)).isSome = true) →
    ∃ search later, (model.scanBlock search target arr list b).2 = .ok later ∧
      ∀ i < (view b).size.toNat / model.pointerSize, ∀ word ∈ target.peekData (model.wordAddr (view b) i),
        ∀ c ∈ arr, Contains (view c) word → ∃ block, later.1.get c = some block ∧ block.flags.marked = true

/-- The addresses that the loop goes through. -/
def addrs (model : DataModel) (block : Block) : List Addr :=
  (List.range (DataModel.memLength block)).map (model.wordAddr block)

theorem scanBlock_of_block {list : BlockList} {b : BlockId} {block : Block} (held : deref list.1 b = .ok block) :
    model.scanBlock search target arr list b = ((DataModel.readWords target.peekData (addrs model block)).1,
      (DataModel.readWords target.peekData (addrs model block)).2.elim (.ok list)
        (model.scanBlockContents search arr list block)) := by
  unfold DataModel.scanBlock addrs
  rw [held]
  dsimp only
  obtain ⟨asked, mem⟩ :=
    DataModel.readWords target.peekData ((List.range (DataModel.memLength block)).map (model.wordAddr block))
  cases mem <;> rfl

theorem scanBlock_eq {marked : Finset BlockId} {list : BlockList} (visible : Shows view known marked list.1)
    {b : BlockId} (member : b ∈ known) : model.scanBlock search target arr list b =
      ((DataModel.readWords target.peekData (addrs model (view b))).1,
        (DataModel.readWords target.peekData (addrs model (view b))).2.elim (.ok list)
          (model.scanBlockContents search arr list (view b))) := by
  have held : deref list.1 b = .ok (shown view marked b) := by
    rw [deref, visible b member]
  rw [scanBlock_of_block held]
  rfl

theorem memLength_eq {block : Block} (small : block.size.toNat < 2 ^ 32 - 3) :
    DataModel.memLength block = (block.size.toNat + 3) / 4 := toNat_read small

theorem memLength_eq_zero {block : Block} (large : 2 ^ 32 - 3 ≤ block.size.toNat) : DataModel.memLength block = 0 :=
  toNat_read_eq_zero large

/-- The first words of a block start inside. -/
theorem inside_of_mem {block : Block} {n : ℕ} (starts : ∀ i < n, i * model.pointerSize < block.size.toNat) {addr : Addr}
    (member : addr ∈ (List.range n).map (model.wordAddr block)) : Inside model block addr := by
  obtain ⟨i, small, rfl⟩ := List.mem_map.mp member
  exact ⟨_, starts i (List.mem_range.mp small), rfl⟩

theorem addrs_split {block : Block} {n : ℕ} (small : n ≤ DataModel.memLength block) :
    ∃ back, addrs model block = (List.range n).map (model.wordAddr block) ++ back := by
  obtain ⟨k, length⟩ := Nat.exists_eq_add_of_le small
  exact ⟨_, by rw [addrs, length, List.range_add, List.map_append]⟩

/-- Where a word cannot be read nothing behind it is asked for. -/
theorem inside_of_unreadable {block : Block} {i : ℕ} (starts : i * model.pointerSize < block.size.toNat)
    (unreadable : target.peekData (model.wordAddr block i) = none) {addr : Addr}
    (asked : addr ∈ (DataModel.readWords target.peekData (addrs model block)).1) : Inside model block addr := by
  rcases Nat.lt_or_ge block.size.toNat (2 ^ 32 - 3) with small | large
  · have reached : i + 1 ≤ DataModel.memLength block := by
      rw [memLength_eq small]
      cases model <;> simp only [DataModel.pointerSize] at starts <;> omega
    obtain ⟨back, split⟩ := @addrs_split model block _ reached
    have stops : ∃ addr ∈ (List.range (i + 1)).map (model.wordAddr block), target.peekData addr = none :=
      ⟨_, List.mem_map_of_mem (List.mem_range.mpr (Nat.lt_succ_self i)), unreadable⟩
    rw [split, readWords_append_unreadable stops] at asked
    refine inside_of_mem (fun j lower => ?_) ((readWords_asked _).subset asked)
    exact Nat.lt_of_le_of_lt (Nat.mul_le_mul_right _ (Nat.le_of_lt_succ lower)) starts
  · rw [addrs, memLength_eq_zero large] at asked
    cases asked

/-- A block that `scan_block` reads to its end and no further. -/
structure Measured (model : DataModel) (block : Block) : Prop where
  inside : ∀ i < DataModel.memLength block, i * model.pointerSize < block.size.toNat
  enough : block.size.toNat / model.pointerSize ≤ DataModel.memLength block

/-- The block's own words can be read. -/
def WordsReadable (model : DataModel) (target : Target) (block : Block) : Prop :=
  ∀ i, i * model.pointerSize < block.size.toNat → (target.peekData (model.wordAddr block i)).isSome = true

/-- Blocks of at most four bytes are one word, or none. -/
theorem measured_of_short {block : Block} (short : block.size.toNat ≤ 4) : Measured model block := by
  have length := @memLength_eq block (by omega)
  constructor
  · intro i lower
    rw [length] at lower
    have first : i = 0 := by omega
    rw [first, Nat.zero_mul]
    omega
  · rw [length]
    cases model <;> simp only [DataModel.pointerSize] <;> omega

theorem measured_ilp32 {block : Block} (small : block.size.toNat < 2 ^ 32 - 3) : Measured .ilp32 block := by
  constructor
  · intro i lower
    rw [memLength_eq small] at lower
    simp only [DataModel.pointerSize]
    omega
  · rw [memLength_eq small]
    simp only [DataModel.pointerSize]
    omega

/-- A measured block is read as it stands in the target. -/
theorem Measured.content {block : Block} (measured : Measured model block)
    (readable : WordsReadable model target block) :
    ∃ mem, (DataModel.readWords target.peekData (addrs model block)).2 = some mem ∧
      ∀ i < block.size.toNat / model.pointerSize, mem[i]? = target.peekData (model.wordAddr block i) := by
  refine ⟨_, (readWords_mem _).trans (mapM_readable fun addr listed => ?_), fun i small => ?_⟩
  · obtain ⟨i, small, rfl⟩ := List.mem_map.mp listed
    exact readable i (measured.inside i (List.mem_range.mp small))
  · have reached := Nat.lt_of_lt_of_le small measured.enough
    obtain ⟨word, read⟩ := Option.isSome_iff_exists.mp (readable i (measured.inside i reached))
    rw [addrs, List.map_map, List.getElem?_map, List.getElem?_range reached, Option.map_some, Function.comp_apply, read,
      Option.getD_some]

/-- The loop of `scan_block_contents` marks what the words it is given point at. -/
theorem scanBlockContents_marks (layout : Layout view arr) (addressable : Addressable model view arr)
    (array : ∀ c ∈ arr, c ∈ known) {marked : Finset BlockId} {list : BlockList}
    (visible : Shows view known marked list.1) (pending : ∀ c ∈ list.2, c ∈ known) {block : Block} {mem : List Addr}
    (read : ∀ i < block.size.toNat / model.pointerSize, ∃ word, mem[i]? = some word) :
    ∃ later, model.scanBlockContents arr.length arr list block mem = .ok later ∧
      ∀ i < block.size.toNat / model.pointerSize, ∀ word ∈ mem[i]?, ∀ c ∈ arr, Contains (view c) word →
        ∃ block, later.1.get c = some block ∧ block.flags.marked = true := by
  have searches : Searches arr.length view known arr (lookup view arr) := by
    rw [← lookupLast_eq_lookup layout]
    exact searches_last layout.ascending array layout.plain (Nat.le_refl _)
  have simulates : Simulates view known ⟨list.2, marked⟩ list := ⟨rfl, visible, pending⟩
  obtain ⟨later, ran, simulatesLater⟩ := @foldlM_pushes view known (lookup view arr) (model.scanWord arr.length arr mem)
    (List.range (block.size.toNat / model.pointerSize)) (fun i => (mem[i]?).getD 0) (by
      intro i small marking list simulates
      obtain ⟨word, found⟩ := read i (List.mem_range.mp small)
      rw [scanWord_eq addressable simulates array]
      exact scanWord_ok searches simulates (by rw [found]; rfl)) _ _ simulates
  refine ⟨later, ran, ?_⟩
  intro i small word found c inArray contains
  have found : mem[i]? = some word := found
  obtain ⟨j, inside, rfl⟩ := List.getElem_of_mem inArray
  refine ⟨_, simulatesLater.visible _ (array _ inArray), decide_eq_true ?_⟩
  rw [Worklist.marked_foldl_push, Finset.mem_union, List.mem_toFinset, List.mem_filterMap]
  refine .inr ⟨word, List.mem_map.mpr ⟨i, List.mem_range.mpr small, by rw [found, Option.getD_some]⟩, ?_⟩
  exact lookup_eq_some layout inside contains

theorem scansWords_of_measured (layout : Layout view arr) (addressable : Addressable model view arr)
    (array : ∀ c ∈ arr, c ∈ known) {marked : Finset BlockId} {list : BlockList}
    (visible : Shows view known marked list.1) (pending : ∀ c ∈ list.2, c ∈ known) {b : BlockId} (member : b ∈ known)
    (measured : Measured model (view b)) : ScansWords model target view arr list b := by
  constructor
  · intro search addr asked
    rw [scanBlock_eq visible member] at asked
    exact inside_of_mem measured.inside ((readWords_asked _).subset asked)
  · intro readable
    obtain ⟨mem, read, same⟩ := measured.content readable
    exact ⟨_, mem, Prod.ext rfl read, same⟩
  · intro readable
    obtain ⟨mem, read, same⟩ := measured.content readable
    have words : ∀ i < (view b).size.toNat / model.pointerSize, ∃ word, mem[i]? = some word := by
      intro i small
      rw [same i small]
      exact Option.isSome_iff_exists.mp (readable i (measured.inside i (Nat.lt_of_lt_of_le small measured.enough)))
    obtain ⟨later, ran, marks⟩ := scanBlockContents_marks layout addressable array visible pending words
    refine ⟨arr.length, later, by rw [scanBlock_eq visible member, read]; exact ran, ?_⟩
    intro i small word found
    exact marks i small word (by rwa [same i small])

/-- On a machine of 64 bits the first word behind a longer block is asked for as well. -/
theorem asks_behind {block : Block} (large : 4 < block.size.toNat) (small : block.size.toNat < 2 ^ 32 - 3)
    (readable : WordsReadable .lp64 target block) :
    DataModel.lp64.wordAddr block ((block.size.toNat + 7) / 8) ∈
      (DataModel.readWords target.peekData (addrs .lp64 block)).1 := by
  obtain ⟨n, count⟩ : ∃ n, n = (block.size.toNat + 7) / 8 := ⟨_, rfl⟩
  rw [← count]
  have reached : n + 1 ≤ DataModel.memLength block := by
    rw [memLength_eq small]
    omega
  obtain ⟨back, split⟩ := @addrs_split .lp64 block _ reached
  rw [List.range_succ, List.map_append, List.append_assoc] at split
  rw [split]
  refine mem_readWords_asked (fun addr listed => ?_) _ back
  obtain ⟨i, lower, rfl⟩ := List.mem_map.mp listed
  have lower := List.mem_range.mp lower
  refine readable i ?_
  simp only [DataModel.pointerSize]
  omega

/-- Of the largest blocks no word is read at all. -/
theorem size_small_of_passed {block : Block} {asked mem : List Addr} (readable : WordsReadable model target block)
    (read : DataModel.readWords target.peekData (addrs model block) = (asked, some mem))
    (same : ∀ i < block.size.toNat / model.pointerSize, mem[i]? = target.peekData (model.wordAddr block i)) :
    block.size.toNat < 2 ^ 32 - 3 := by
  rcases Nat.lt_or_ge block.size.toNat (2 ^ 32 - 3) with small | overflows
  · exact small
  · rw [addrs, memLength_eq_zero overflows] at read
    cases read
    have first := same 0 (Nat.div_pos (by cases model <;> simp only [DataModel.pointerSize] <;> omega)
      (by cases model <;> decide))
    have word := readable 0 (by rw [Nat.zero_mul]; omega)
    rw [← first] at word
    cases word

/-- `scan_block` is right about a block if and only if it has at most four bytes, a pointer
has four bytes, or one of the block's own words cannot be read. -/
theorem scanBlock_words_iff (layout : Layout view arr) (addressable : Addressable model view arr)
    (array : ∀ c ∈ arr, c ∈ known) {marked : Finset BlockId} {list : BlockList}
    (visible : Shows view known marked list.1) (pending : ∀ c ∈ list.2, c ∈ known) {b : BlockId} (member : b ∈ known) :
    ScansWords model target view arr list b ↔
      (view b).size.toNat ≤ 4 ∨ (model = .ilp32 ∧ (view b).size.toNat < 2 ^ 32 - 3) ∨
        ∃ i, i * model.pointerSize < (view b).size.toNat ∧ target.peekData (model.wordAddr (view b) i) = none := by
  constructor
  · intro scans
    by_contra neither
    simp only [not_or, not_and, not_exists] at neither
    obtain ⟨large, wide, unread⟩ := neither
    have readable : WordsReadable model target (view b) :=
      fun i starts => Option.isSome_iff_ne_none.mpr (unread i starts)
    obtain ⟨asked, mem, read, same⟩ := scans.passed readable
    have small := size_small_of_passed readable read same
    cases model with
    | ilp32 => exact wide rfl small
    | lp64 =>
      have behind := asks_behind (Nat.lt_of_not_le large) small readable
      have starts := scans.inside 0 _ (by rwa [scanBlock_eq visible member])
      rw [wordAddr_inside_iff (by simp only [DataModel.bits, DataModel.pointerSize]; omega)] at starts
      simp only [DataModel.pointerSize] at starts
      omega
  · rintro (short | ⟨rfl, small⟩ | ⟨i, starts, unreadable⟩)
    · exact scansWords_of_measured layout addressable array visible pending member (measured_of_short short)
    · exact scansWords_of_measured layout addressable array visible pending member (measured_ilp32 small)
    · constructor
      · intro search addr asked
        rw [scanBlock_eq visible member] at asked
        exact inside_of_unreadable starts unreadable asked
      all_goals
        intro readable
        have read := readable i starts
        rw [unreadable] at read
        cases read

end Scanning

/-- On a machine of 64 bits this is the `scan_block` of the leak detection. -/
theorem scanBlock_lp64 (search : ℕ) (target : Target) (arr : List BlockId) (list : BlockList) (b : BlockId) :
    (DataModel.lp64.scanBlock search target arr list b).2 = scanBlock search target arr list b := by
  have addr : ∀ block i, DataModel.lp64.wordAddr block i = wordAddr block i := fun _ _ => wrap_lp64 _
  have word : DataModel.lp64.scanWord search arr = scanWord search arr := by
    funext mem list i
    apply scanWord_congr
    intro addr
    unfold DataModel.findBlock findBlock
    simp only [within_lp64]
  cases held : deref list.1 b with
  | error fault => rw [DataModel.scanBlock, scanBlock, held]; rfl
  | ok block =>
    have read : (DataModel.readWords target.peekData (addrs .lp64 block)).2 = readBlock target block := by
      rw [readWords_mem, addrs, List.mapM_map, readBlock, show DataModel.lp64.wordAddr block = wordAddr block from
        funext (addr block)]
      rfl
    rw [scanBlock_of_block held, scanBlock, held, ok_bind, read]
    cases readBlock target block with
    | none => rfl
    | some mem => exact congrArg (fun step => (List.range (block.size.toNat / 8)).foldlM (step mem) list) word

/-! ## A heap with one block of eight bytes -/

theorem heap_layout : Layout heapBlock [0] where
  fits := by decide
  sorted := List.pairwise_singleton _ 0
  bounded b member := by
    rw [List.mem_singleton.mp member]
    decide
  plain _ _ := rfl

theorem heap_shows : Shows heapBlock [0] ∅ (heap 1 (by decide)).blocks := by
  intro b member
  rw [List.mem_singleton.mp member]
  rfl

theorem scanBlock_words_iff_narrow : ScansWords .ilp32 pointing heapBlock [0] ((heap 1 (by decide)).blocks, []) 0 ↔
    (heapBlock 0).size.toNat ≤ 4 ∨ (DataModel.ilp32 = .ilp32 ∧ (heapBlock 0).size.toNat < 2 ^ 32 - 3) ∨
      ∃ i, i * DataModel.ilp32.pointerSize < (heapBlock 0).size.toNat ∧
        pointing.peekData (DataModel.ilp32.wordAddr (heapBlock 0) i) = none :=
  scanBlock_words_iff heap_layout (by intro b member; rw [List.mem_singleton.mp member]; decide) (fun _ member => member)
    heap_shows (by simp) (List.mem_singleton_self 0)

/-- The second word is not one of the block. -/
theorem scanBlock_reads_on : ¬ ∀ (model : DataModel) (target : Target) (view : BlockId → Block)
    (arr known : List BlockId) (marked : Finset BlockId) (list : BlockList) (b : BlockId), Layout view arr →
    Addressable model view arr → (∀ c ∈ arr, c ∈ known) → Shows view known marked list.1 →
    (∀ c ∈ list.2, c ∈ known) → b ∈ known → ScansWords model target view arr list b := by
  intro claim
  have addressable : Addressable .lp64 heapBlock [0] := by
    intro b member
    rw [List.mem_singleton.mp member]
    decide
  have scans := claim .lp64 pointing heapBlock [0] [0] ∅ ((heap 1 (by decide)).blocks, []) 0 heap_layout addressable
    (fun _ member => member) heap_shows (by simp) (List.mem_singleton_self 0)
  rcases (scanBlock_words_iff heap_layout addressable (fun _ member => member) heap_shows (by simp)
    (List.mem_singleton_self 0)).mp scans with small | ⟨narrow, _⟩ | ⟨i, _, unreadable⟩
  · exact absurd small (by decide)
  · cases narrow
  · cases unreadable

end Memprof.Leaks
