import Memprof.MapsFile
import Memprof.Verified.MapsFormat

/-! # What is recovered of `/proc/PID/maps`

Every line with the permissions `r-xp` makes a map, with the addresses of the line, but the
name ends at the first white space of the path or after 255 characters.  What does not go
into the buffer with the beginning of its line is read as a line of its own.
-/

namespace Memprof.MapsFile

open Library Scanf Fgets MapsFormat

/-! ## What the kernel writes -/

/-- The widths are those of the kernel's format: the path begins in column 73 or behind the
inode.  A newline in the path is written as `\012`. -/
structure KernelLine extends MapsLine where
  short : start.digits.length ≤ 16 ∧ end_.digits.length ≤ 16 ∧ offset.digits.length ≤ 16 ∧ major.digits.length ≤ 8 ∧
    minor.digits.length ≤ 8 ∧ inode.digits.length ≤ 20
  begins : ∀ padding file, path = some (padding, file) →
    padding ≤ 72 ∧ '\n' ∉ file ∧ ∃ first ∈ file.head?, isSpace first = false

/-- The mappings of a process, in the order of their addresses. -/
structure MapsContents where
  lines : List KernelLine
  ascending : lines.Pairwise fun line line' => line.start.value < line'.start.value

def MapsContents.chars (contents : MapsContents) : List Char := (contents.lines.map fun line => line.chars).flatten

namespace KernelLine

/-- `r-xp` -/
def Executable (line : KernelLine) : Prop := line.perms.chars = ['r', '-', 'x', 'p']

instance (line : KernelLine) : Decidable line.Executable := inferInstanceAs (Decidable (_ = _))

/-- The map is that of the line. -/
structure Describes (line : KernelLine) (map : ObjectMap) : Prop where
  addr : map.addr = .ofNat line.start.value
  size : map.size = .ofNat line.end_.value - .ofNat line.start.value
  name : ∀ padding file, line.path = some (padding, file) → map.name = some file

end KernelLine

/-- The reader comes to an end, with one map for each line of an executable mapping. -/
def Recovered (files : Files) (contents : MapsContents) : Prop :=
  ∃ mapList maps : List ObjectMap, (∀ fuel, contents.chars.length < fuel →
      processReadMapsFile fuel files (some contents.chars) = .ok mapList) ∧
    mapList.Perm maps ∧ List.Forall₂ KernelLine.Describes (contents.lines.filter (·.Executable)) maps

/-! ## One buffer -/

/-- At least six values, and the permissions of an executable mapping. -/
def areExecutable : List Value → Bool
  | .number _ :: .number _ :: .text perms :: .number _ :: .number _ :: .number _ :: _ => perms = ['r', '-', 'x', 'p']
  | _ => false

/-- The buffer is taken for a line of an executable mapping. -/
def readsMap (buffer : CString) : Bool := areExecutable (scan processMapsFormat buffer)

/-- Each buffer adds a map to the front, or none. -/
theorem processReadMap_eq (files : Files) (mapList : List ObjectMap) (buffer : CString) :
    processReadMap files mapList buffer = processReadMap files [] buffer ++ mapList := by
  unfold processReadMap
  split
  next =>
    split
    next => rfl
    next => rfl
  next => rfl

theorem length_processReadMap (files : Files) (buffer : CString) :
    (processReadMap files [] buffer).length = (readsMap buffer).toNat := by
  unfold processReadMap readsMap
  generalize scan processMapsFormat buffer = values
  split
  next perms _ _ _ _ =>
    by_cases same : perms = ['r', '-', 'x', 'p'] <;> simp [areExecutable, same]
  next other => exact congrArg Bool.toNat (areExecutable.eq_2 _ other).symm

theorem foldl_processReadMap (files : Files) (buffers : List CString) (mapList : List ObjectMap) :
    buffers.foldl (processReadMap files) mapList = buffers.reverse.flatMap (processReadMap files []) ++ mapList := by
  induction buffers generalizing mapList with
  | nil => rfl
  | cons buffer buffers inductionHypothesis =>
    rw [List.foldl_cons, inductionHypothesis, processReadMap_eq, List.reverse_cons, List.flatMap_append,
      List.append_assoc, List.flatMap_singleton]

/-! ## The beginning of a line -/

/-- The name that is read where a path stands; it is never empty. -/
def wordOf (file : List Char) : List Char := (file.takeWhile (!isSpace ·)).take 255

/-- Blanks and a path, of which the buffer has room for more than 255 characters. -/
theorem scan_path {file : List Char} (begins : ∃ first ∈ file.head?, isSpace first = false) (padding : ℕ) {n : ℕ}
    (room : padding + 256 ≤ n) :
    scan [.space, .word 255] ((' ' :: (List.replicate padding ' ' ++ file ++ ['\n'])).take n) =
      [.text (wordOf file)] := by
  obtain ⟨first, head, unspaced⟩ := begins
  obtain ⟨more, rfl⟩ : ∃ more, file = first :: more := by
    cases file with
    | nil => cases head
    | cons char more =>
      cases head
      exact ⟨more, rfl⟩
  obtain ⟨n, rfl⟩ : ∃ m, n = padding + 1 + (m + 255) := ⟨n - padding - 256, by omega⟩
  have blanks : ∀ char ∈ List.replicate (padding + 1) ' ', isSpace char = true := by
    intro char member
    rw [List.eq_of_mem_replicate member]
    decide
  have cut : (' ' :: (List.replicate padding ' ' ++ first :: more ++ ['\n'])).take (padding + 1 + (n + 255)) =
      List.replicate (padding + 1) ' ' ++ first :: (more ++ ['\n']).take (n + 254) := by
    rw [List.append_assoc, ← List.cons_append, ← List.replicate_succ]
    have kept : (List.replicate (padding + 1) ' ').take (padding + 1 + (n + 255)) = List.replicate (padding + 1) ' ' :=
      List.take_of_length_le (by rw [List.length_replicate]; exact Nat.le_add_right _ _)
    rw [List.take_append, kept, List.length_replicate, Nat.add_sub_cancel_left]
    rfl
  have skipped : (List.replicate (padding + 1) ' ' ++ first :: (more ++ ['\n']).take (n + 254)).dropWhile isSpace =
      first :: (more ++ ['\n']).take (n + 254) := by
    rw [List.dropWhile_append_of_pos blanks, List.dropWhile_cons_of_neg (by simp [unspaced])]
  have visible : (!isSpace first) = true := by rw [unspaced]; rfl
  have newline : ∀ char ∈ (['\n'] : List Char).head?, (!isSpace char) = false := by
    rintro char ⟨⟩
    decide
  have word : ((first :: (more ++ ['\n']).take (n + 254)).takeWhile (!isSpace ·)).take 255 =
      wordOf (first :: more) := by
    rw [wordOf, List.takeWhile_cons, if_pos visible, List.takeWhile_cons, if_pos visible, ← List.take_takeWhile,
      (takeWhile_append_of_head more newline).1, List.take_succ_cons, List.take_succ_cons, List.take_take,
      Nat.min_eq_left (by omega)]
  have nonempty : wordOf (first :: more) ≠ [] := by
    rw [wordOf, List.takeWhile_cons, if_pos visible, List.take_succ_cons]
    exact List.cons_ne_nil _ _
  rw [cut, scan, skipped, scan, List.dropWhile_cons_of_neg (by simp [unspaced]), word, if_neg nonempty, scan]

/-- A path that ends within 255 characters and has no white space is read whole. -/
theorem wordOf_eq_iff (file : List Char) : wordOf file = file ↔
    (∀ char ∈ file, isSpace char = false) ∧ file.length ≤ 255 := by
  constructor
  · intro whole
    have within : file.length ≤ 255 := by
      rw [← whole, wordOf, List.length_take]
      exact Nat.min_le_left _ _
    refine ⟨fun char member => ?_, within⟩
    rw [← whole] at member
    have passes := List.mem_takeWhile_imp ((List.take_sublist _ _).subset member)
    simpa using passes
  · rintro ⟨word, within⟩
    have all : file.takeWhile (!isSpace ·) = file :=
      List.takeWhile_eq_self_iff.mpr fun char member => by rw [word char member]; rfl
    rw [wordOf, all, List.take_of_length_le within]

theorem length_chars {base limit : ℕ} (numeral : Numeral base limit) :
    numeral.chars.length = numeral.digits.length := by
  simp [Numeral.chars, charsOf, Numeral.values]

theorem length_header (line : KernelLine) : (header line.toMapsLine).length ≤ 94 := by
  have short := line.short
  simp only [header, List.length_append, List.length_cons, length_chars, Permissions.chars, List.length_nil]
  omega

/-- The name that the beginning of a line gives its map. -/
def firstName (files : Files) (line : KernelLine) : Option CString :=
  match line.path with
  | none => files.locateInode (.ofNat line.major.value) (.ofNat line.minor.value) (.ofNat line.inode.value)
  | some (_, file) => some (wordOf file)

def firstMap (files : Files) (line : KernelLine) : ObjectMap where
  addr := .ofNat line.start.value
  size := .ofNat line.end_.value - .ofNat line.start.value
  name := firstName files line
  doOffset := (firstName files line).all files.offsets

/-- The first buffer has all of the line up to the path, and enough of that. -/
theorem scan_first (line : KernelLine) :
    ∃ named : List Value, scan processMapsFormat (line.chars.take 1022) = line.denotes ++ named ∧
      named = (line.path.map fun path => Value.text (wordOf path.2)).toList := by
  have short := length_header line
  have room : (header line.toMapsLine).length ≤ 1022 := short.trans (by decide)
  obtain ⟨n, enough⟩ : ∃ n, 1022 - (header line.toMapsLine).length = n + 1 :=
    ⟨1021 - (header line.toMapsLine).length, by omega⟩
  have closed : Closed (line.rest.take (n + 1)) := by
    unfold MapsLine.rest
    split
    · exact closed_cons (by decide) _
    · exact closed_cons (by decide) _
  refine ⟨_, ?_, rfl⟩
  rw [chars_eq, List.take_append, List.take_of_length_le room, enough, scan_header _ closed]
  congr 1
  cases found : line.path with
  | none =>
    have ended : scan [.space, .word 255] ['\n'] = [] := by decide
    rw [MapsLine.rest, found]
    dsimp only
    rw [List.take_succ_cons, List.take_nil, ended]
    rfl
  | some path =>
    obtain ⟨padding, file⟩ := path
    obtain ⟨narrow, _, begins⟩ := line.begins padding file found
    rw [MapsLine.rest, found]
    exact scan_path begins padding (by omega)

theorem processReadMap_first (files : Files) (line : KernelLine) :
    processReadMap files [] (line.chars.take 1022) = if line.Executable then [firstMap files line] else [] := by
  obtain ⟨named, read, isNamed⟩ := scan_first line
  rw [processReadMap, read, isNamed, MapsLine.denotes]
  unfold KernelLine.Executable firstMap firstName
  cases line.path with
  | none => rfl
  | some path => rfl

/-! ## All of the lines -/

/-- What the buffer holds of a line when it has been filled `k` times. -/
def piece (line : KernelLine) (k : ℕ) : CString := chunk 1022 line.chars k

/-- The rest of a line is nowhere taken for a line of an executable mapping. -/
def TailsUnread (line : KernelLine) : Prop := ∀ k > 0, readsMap (piece line k) = false

/-- The buffers that follow the first one of a line. -/
def tails (line : KernelLine) : List CString :=
  (List.range ((line.chars.length - 1) / 1022)).map fun k => piece line (k + 1)

/-- What `fgets` puts into the buffer, one after the other. -/
def buffers (contents : MapsContents) : List CString :=
  contents.lines.flatMap fun line => line.chars.take 1022 :: tails line

theorem tailsUnread_iff (line : KernelLine) : TailsUnread line ↔ (tails line).countP readsMap = 0 := by
  rw [List.countP_eq_zero]
  constructor
  · intro unread buffer member
    obtain ⟨k, _, rfl⟩ := List.mem_map.mp member
    simp [unread (k + 1) (Nat.succ_pos k)]
  · intro unread k positive
    by_cases inside : k ≤ (line.chars.length - 1) / 1022
    · have member : piece line k ∈ tails line :=
        List.mem_map.mpr ⟨k - 1, List.mem_range.mpr (by omega), by rw [Nat.sub_add_cancel positive]⟩
      simpa using unread _ member
    · rw [piece, chunk_eq_nil (by decide) (Nat.lt_of_not_le inside)]
      decide

theorem chunks_line (line : KernelLine) : chunks 1022 line.chars = line.chars.take 1022 :: tails line :=
  chunks_eq 1022 line.chars

theorem newline_chars {base limit : ℕ} (small : base ≤ 16) (numeral : Numeral base limit) : '\n' ∉ numeral.chars := by
  intro member
  obtain ⟨digit, within, same⟩ := List.mem_map.mp member
  exact digitChar_ne ((numeral.lt_base digit within).trans_le small) (by decide) same

theorem newline_header (line : MapsLine) : '\n' ∉ header line := by
  have plain : '\n' ∉ line.perms.chars := by
    obtain ⟨read, write, exec, shared⟩ := line.perms
    cases read <;> cases write <;> cases exec <;> cases shared <;> decide
  simp [header, newline_chars, plain]

theorem ended_line (line : KernelLine) : Ended line.chars := by
  rw [chars_eq, MapsLine.rest]
  cases found : line.path with
  | none => exact ⟨header line.toMapsLine, newline_header _, rfl⟩
  | some path =>
    obtain ⟨padding, file⟩ := path
    obtain ⟨_, within, _⟩ := line.begins padding file found
    refine ⟨header line.toMapsLine ++ ' ' :: (List.replicate padding ' ' ++ file), ?_, by simp⟩
    simp [newline_header, within]

/-- The buffers of the file are its lines to `process_read_maps`. -/
theorem processReadMapsFile_buffers (files : Files) (contents : MapsContents) {fuel : ℕ}
    (enough : contents.chars.length < fuel) :
    processReadMapsFile fuel files (some contents.chars) =
      processReadMaps { files with maps := some (buffers contents) } := by
  obtain ⟨fuel, rfl⟩ : ∃ n, fuel = n + 1 := ⟨fuel - 1, by omega⟩
  have ended : ∀ line ∈ contents.lines.map fun line => line.chars, Ended line := by
    intro chars member
    obtain ⟨line, _, rfl⟩ := List.mem_map.mp member
    exact ended_line line
  have pieces : (contents.lines.map fun line => line.chars).flatMap (chunks (1023 - 1)) = buffers contents := by
    rw [List.flatMap_map]
    exact congrArg (contents.lines.flatMap ·) (funext chunks_line)
  rw [processReadMapsFile, MapsContents.chars, fgetsLoop_lines _ (by decide) ended (Nat.lt_succ_iff.mp enough), pieces]
  rfl

theorem processReadMapsFile_eq (files : Files) (contents : MapsContents) {fuel : ℕ}
    (enough : contents.chars.length < fuel) :
    processReadMapsFile fuel files (some contents.chars) =
      .ok ((buffers contents).reverse.flatMap (processReadMap files [])) := by
  rw [processReadMapsFile_buffers files contents enough, processReadMaps]
  dsimp only
  rw [foldl_processReadMap, List.append_nil]
  rfl

theorem readsMap_first (line : KernelLine) :
    (readsMap (line.chars.take 1022)).toNat = if line.Executable then 1 else 0 := by
  let files : Files := ⟨none, fun _ _ _ => none, fun _ => none, none, fun _ => none, id, fun _ _ => none⟩
  rw [← length_processReadMap files, processReadMap_first]
  split
  next => rfl
  next => rfl

/-- As many maps are read as there are buffers that are taken for one. -/
theorem length_read (files : Files) (buffers : List CString) :
    (buffers.flatMap (processReadMap files [])).length = buffers.countP readsMap := by
  induction buffers with
  | nil => rfl
  | cons buffer buffers inductionHypothesis =>
    rw [List.flatMap_cons, List.length_append, inductionHypothesis, length_processReadMap, List.countP_cons,
      Nat.add_comm]
    cases readsMap buffer <;> rfl

/-- Each line is taken for one if it is that of an executable mapping, and so may its tail be. -/
theorem countP_lines (lines : List KernelLine) :
    (lines.flatMap fun line => line.chars.take 1022 :: tails line).countP readsMap =
      (lines.filter (·.Executable)).length + (lines.flatMap tails).countP readsMap := by
  induction lines with
  | nil => rfl
  | cons line lines inductionHypothesis =>
    have first := readsMap_first line
    rw [List.flatMap_cons, List.cons_append, List.countP_cons, List.countP_append, inductionHypothesis, List.flatMap_cons,
      List.countP_append, List.filter_cons]
    by_cases executable : line.Executable
    · rw [if_pos executable] at first
      rw [if_pos (Bool.toNat_eq_one.mp first), if_pos (decide_eq_true executable), List.length_cons]
      omega
    · rw [if_neg executable] at first
      rw [if_neg (by simpa using Bool.toNat_eq_zero.mp first), if_neg (by simpa using executable)]
      omega

/-- Where nothing is made of the tails, the maps are those of the beginnings. -/
theorem flatMap_lines (files : Files) {lines : List KernelLine} (unread : ∀ line ∈ lines, TailsUnread line) :
    (lines.flatMap fun line => line.chars.take 1022 :: tails line).flatMap (processReadMap files []) =
      (lines.filter (·.Executable)).map (firstMap files) := by
  induction lines with
  | nil => rfl
  | cons line lines inductionHypothesis =>
    have nothing : (tails line).flatMap (processReadMap files []) = [] := by
      rw [← List.length_eq_zero_iff, length_read]
      exact (tailsUnread_iff line).mp (unread line (by simp))
    rw [List.flatMap_cons, List.flatMap_append, List.flatMap_cons, nothing,
      inductionHypothesis fun other member => unread other (by simp [member]), processReadMap_first, List.filter_cons,
      List.append_nil]
    by_cases executable : line.Executable
    · rw [if_pos executable, if_pos (decide_eq_true executable)]
      rfl
    · rw [if_neg executable, if_neg (by simpa using executable)]
      rfl

/-! ## What is recovered -/

/-- The path has no white space and at most 255 characters. -/
def NameKept (line : KernelLine) : Prop :=
  ∀ padding file, line.path = some (padding, file) → (∀ char ∈ file, isSpace char = false) ∧ file.length ≤ 255

theorem describes_firstMap_iff (files : Files) (line : KernelLine) : line.Describes (firstMap files line) ↔
    NameKept line := by
  have named : ∀ padding file, line.path = some (padding, file) → (firstMap files line).name = some (wordOf file) := by
    intro padding file found
    rw [firstMap, firstName, found]
  constructor
  · intro describes padding file found
    rw [← wordOf_eq_iff]
    exact Option.some.inj ((named padding file found).symm.trans (describes.name padding file found))
  · intro kept
    refine ⟨rfl, rfl, fun padding file found => ?_⟩
    rw [named padding file found, (wordOf_eq_iff file).mpr (kept padding file found)]

/-- Only one line has the address of a map. -/
theorem line_of_addr (contents : MapsContents) {line line' : KernelLine} (member : line ∈ contents.lines)
    (member' : line' ∈ contents.lines) (same : UInt64.ofNat line.start.value = .ofNat line'.start.value) :
    line = line' := by
  have value : line.start.value = line'.start.value := by
    have numbers := congrArg UInt64.toNat same
    rwa [UInt64.toNat_ofNat_of_lt' line.start.value_lt, UInt64.toNat_ofNat_of_lt' line'.start.value_lt] at numbers
  have apart : (contents.lines.map fun line => line.start.value).Nodup :=
    List.pairwise_map.mpr (contents.ascending.imp fun less => Nat.ne_of_lt less)
  exact List.inj_on_of_nodup_map apart member member' value

theorem exists_of_forall₂ {lines : List KernelLine} {maps : List ObjectMap}
    (each : List.Forall₂ KernelLine.Describes lines maps) {line : KernelLine} (member : line ∈ lines) :
    ∃ map ∈ maps, line.Describes map := by
  induction each with
  | nil => cases member
  | @cons first map lines maps describes _ inductionHypothesis =>
    rcases List.mem_cons.mp member with rfl | rest
    · exact ⟨map, by simp, describes⟩
    · obtain ⟨other, within, isOther⟩ := inductionHypothesis rest
      exact ⟨other, by simp [within], isOther⟩

theorem Recovered.tails {files : Files} {contents : MapsContents} (recovered : Recovered files contents) :
    ∀ line ∈ contents.lines, TailsUnread line := by
  obtain ⟨mapList, maps, ran, same, each⟩ := recovered
  have read := (ran _ (Nat.lt_succ_self _)).symm.trans (processReadMapsFile_eq files contents (Nat.lt_succ_self _))
  have counted : mapList.length = (contents.lines.filter (·.Executable)).length +
      (contents.lines.flatMap MapsFile.tails).countP readsMap := by
    rw [Except.ok.inj read, length_read, List.countP_reverse, buffers, countP_lines]
  have nothing : (contents.lines.flatMap MapsFile.tails).countP readsMap = 0 := by
    have := same.length_eq
    have := each.length_eq
    omega
  intro line member
  rw [tailsUnread_iff]
  rw [List.countP_eq_zero] at nothing ⊢
  exact fun buffer within => nothing buffer (List.mem_flatMap.mpr ⟨line, member, within⟩)

/-- The maps that are read if nothing is made of the tails. -/
theorem read_of_unread {files : Files} {contents : MapsContents} (unread : ∀ line ∈ contents.lines, TailsUnread line) :
    ∃ mapList : List ObjectMap, (∀ fuel, contents.chars.length < fuel →
        processReadMapsFile fuel files (some contents.chars) = .ok mapList) ∧
      mapList.Perm ((contents.lines.filter (·.Executable)).map (firstMap files)) := by
  refine ⟨_, fun fuel enough => processReadMapsFile_eq files contents enough, ?_⟩
  rw [← flatMap_lines files unread]
  exact (List.reverse_perm _).flatMap_right _

theorem Recovered.names {files : Files} {contents : MapsContents} (recovered : Recovered files contents) :
    ∀ line ∈ contents.lines, line.Executable → NameKept line := by
  obtain ⟨mapList', ran', isRead⟩ := @read_of_unread files contents recovered.tails
  obtain ⟨mapList, maps, ran, same, each⟩ := recovered
  cases (ran _ (Nat.lt_succ_self _)).symm.trans (ran' _ (Nat.lt_succ_self _))
  intro line member executable
  obtain ⟨map, within, describes⟩ := exists_of_forall₂ each (List.mem_filter.mpr ⟨member, decide_eq_true executable⟩)
  obtain ⟨line', member', rfl⟩ := List.mem_map.mp (isRead.subset (same.symm.subset within))
  have itself := line_of_addr contents member (List.mem_filter.mp member').1 describes.addr.symm
  subst itself
  exact (describes_firstMap_iff files line).mp describes

/-- For every contents: there is one map for each line of an executable mapping exactly if the
paths of these are short single words and no tail of a line looks like such a line. -/
theorem executables_recovered_iff (files : Files) (contents : MapsContents) :
    Recovered files contents ↔ (∀ line ∈ contents.lines, line.Executable → NameKept line) ∧
      ∀ line ∈ contents.lines, TailsUnread line := by
  constructor
  · exact fun recovered => ⟨recovered.names, recovered.tails⟩
  · rintro ⟨kept, unread⟩
    obtain ⟨mapList, ran, isRead⟩ := @read_of_unread files contents unread
    refine ⟨mapList, _, ran, isRead, ?_⟩
    rw [List.forall₂_map_right_iff, List.forall₂_same]
    intro line member
    obtain ⟨listed, executable⟩ := List.mem_filter.mp member
    exact (describes_firstMap_iff files line).mpr (kept line listed (of_decide_eq_true executable))

/-- `00400000-0040b000 r-xp 00000000 08:01 42 /a b` -/
def spacedLine : KernelLine where
  toMapsLine := { heapLine with perms := ⟨true, false, true, false⟩, path := some (0, ['/', 'a', ' ', 'b']) }
  short := by decide
  begins := by
    rintro padding file ⟨⟩
    exact ⟨by decide, by decide, '/', rfl, by decide⟩

def spaced : MapsContents := ⟨[spacedLine], List.pairwise_singleton _ _⟩

def noFiles : Files := ⟨none, fun _ _ _ => none, fun _ => none, none, fun _ => none, id, fun _ _ => none⟩

/-- The map has the name `/a`. -/
theorem recovered_spaced : ¬ Recovered noFiles spaced ∧
    (processReadMapsFile 60 noFiles (some spaced.chars)).map (List.map ObjectMap.name) = .ok [some ['/', 'a']] := by
  refine ⟨fun recovered => ?_, by decide⟩
  have kept := recovered.names spacedLine (by simp [spaced]) (by decide) 0 ['/', 'a', ' ', 'b'] rfl
  exact absurd (kept.1 ' ' (by decide)) (by decide)

end Memprof.MapsFile
