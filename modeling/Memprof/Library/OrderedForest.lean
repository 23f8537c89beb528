import Mathlib.Data.List.Basic
import Mathlib.Data.List.Nodup
import Mathlib.Data.List.Perm.Basic

/-! # Ordered forests

A row has a label and an ordered list of rows under it, and a path of indices leads to each
list of rows.  What stands where is said by the `links` of a forest: for each row the label
of the row above it, if there is one, and its own.  To change the list at a path changes
the links there and leaves the others as they are.
-/

namespace Memprof.Library

inductive Row (α : Type) where
  | mk (label : α) (rows : List (Row α))

namespace Row

variable {α : Type}

def label : Row α → α
  | .mk label _ => label

def rows : Row α → List (Row α)
  | .mk _ rows => rows

theorem mk_label_rows : ∀ row : Row α, mk row.label row.rows = row
  | .mk _ _ => rfl

/-- The rows at a path. -/
def rowsAt : List ℕ → List (Row α) → Option (List (Row α))
  | [], rows => some rows
  | i :: path, rows => rows[i]?.bind fun row => rowsAt path row.rows

/-- The rows at a path are changed. -/
def changeAt (change : List (Row α) → List (Row α)) : List ℕ → List (Row α) → List (Row α)
  | [], rows => change rows
  | i :: path, rows => rows.modify i fun row => .mk row.label (changeAt change path row.rows)

mutual

def links (above : Option α) : List (Row α) → List (Option α × α)
  | [] => []
  | row :: rows => rowLinks above row ++ links above rows

def rowLinks (above : Option α) : Row α → List (Option α × α)
  | .mk label rows => (above, label) :: links (some label) rows

end

/-- The labels of all rows. -/
def labels (above : Option α) (rows : List (Row α)) : List α := (links above rows).map Prod.snd

theorem links_append (above : Option α) (left right : List (Row α)) :
    links above (left ++ right) = links above left ++ links above right := by
  induction left with
  | nil => rw [links, List.nil_append, List.nil_append]
  | cons row left inductionHypothesis => rw [List.cons_append, links, links, inductionHypothesis, List.append_assoc]

theorem links_cons (above : Option α) (label : α) (rows rest : List (Row α)) :
    links above (.mk label rows :: rest) = (above, label) :: (links (some label) rows ++ links above rest) := by
  rw [links, rowLinks, List.cons_append]

theorem links_leaf (above : Option α) (label : α) : links above [.mk label []] = [(above, label)] := by
  rw [links_cons, links, links, List.append_nil]

mutual

/-- Only the first rows see what stands above them. -/
theorem labels_above (above above' : Option α) : ∀ rows : List (Row α), labels above rows = labels above' rows
  | [] => by rw [labels, labels, links, links]
  | row :: rows => by
    have first := rowLabels_above above above' row
    have rest := labels_above above above' rows
    rw [labels] at rest ⊢
    rw [labels] at rest ⊢
    rw [links, links, List.map_append, List.map_append, first, rest]

theorem rowLabels_above (above above' : Option α) : ∀ row : Row α,
    (rowLinks above row).map Prod.snd = (rowLinks above' row).map Prod.snd
  | .mk label rows => by rw [rowLinks, rowLinks, List.map_cons, List.map_cons]

end

mutual

/-- What stands above a row is a row itself, or stands above them all. -/
theorem above_mem {above : Option α} {upper label : α} :
    ∀ {rows : List (Row α)}, (some upper, label) ∈ links above rows →
    some upper = above ∨ upper ∈ labels above rows
  | [], member => by rw [links] at member; cases member
  | row :: rows, member => by
    rw [links, List.mem_append] at member
    rw [labels, links, List.map_append, List.mem_append]
    rcases member with first | rest
    · exact (rowAbove_mem first).imp id .inl
    · exact (above_mem rest).imp id .inr

theorem rowAbove_mem {above : Option α} {upper label : α} : ∀ {row : Row α}, (some upper, label) ∈ rowLinks above row →
    some upper = above ∨ upper ∈ (rowLinks above row).map Prod.snd
  | .mk own rows, member => by
    rw [rowLinks, List.mem_cons] at member
    rw [rowLinks, List.map_cons, List.mem_cons]
    rcases member with same | below
    · exact .inl (congrArg Prod.fst same)
    · rcases above_mem below with here | deeper
      · exact .inr (.inl (Option.some.inj here))
      · exact .inr (.inr deeper)

end

/-- The link of a row that goes up to another one. -/
def relink [DecidableEq α] (old : α) (above : Option α) (link : Option α × α) : Option α × α :=
  (if link.1 = some old then above else link.1, link.2)

mutual

/-- Rows that go up to what stands above the row they were under. -/
theorem links_relink [DecidableEq α] {old : α} (above : Option α) : ∀ {rows : List (Row α)},
    old ∉ labels (some old) rows → links above rows = (links (some old) rows).map (relink old above)
  | [], _ => by rw [links, links, List.map_nil]
  | row :: rows, absent => by
    rw [labels, links, List.map_append, List.mem_append, not_or] at absent
    rw [links, links, List.map_append, rowLinks_relink above absent.1, links_relink above absent.2]

theorem rowLinks_relink [DecidableEq α] {old : α} (above : Option α) : ∀ {row : Row α},
    old ∉ (rowLinks (some old) row).map Prod.snd →
    rowLinks above row = (rowLinks (some old) row).map (relink old above)
  | .mk label rows, absent => by
    rw [rowLinks, List.map_cons, List.mem_cons, not_or] at absent
    rw [rowLinks, rowLinks, List.map_cons]
    have kept : ∀ link ∈ links (some label) rows, relink old above link = link := by
      rintro ⟨upper, lower⟩ member
      have other : upper ≠ some old := by
        rintro rfl
        rcases above_mem member with here | deeper
        · exact absent.1 (Option.some.inj here)
        · exact absent.2 deeper
      rw [relink, if_neg other]
    rw [List.map_congr_left kept, List.map_id'']
    · rw [relink, if_pos rfl]
    · exact fun _ => rfl

end

/-! ## Paths -/

theorem rowsAt_append (path path' : List ℕ) (rows : List (Row α)) :
    rowsAt (path ++ path') rows = (rowsAt path rows).bind (rowsAt path') := by
  induction path generalizing rows with
  | nil => rfl
  | cons i path inductionHypothesis =>
    rw [List.cons_append, rowsAt, rowsAt]
    cases rows[i]? with
    | none => rfl
    | some row => exact inductionHypothesis row.rows

theorem changeAt_changeAt (change change' : List (Row α) → List (Row α)) (path : List ℕ) (rows : List (Row α)) :
    changeAt change path (changeAt change' path rows) = changeAt (fun rows => change (change' rows)) path rows := by
  induction path generalizing rows with
  | nil => rfl
  | cons i path inductionHypothesis =>
    rw [changeAt, changeAt, changeAt, List.modify_modify_eq]
    congr 1
    funext row
    exact congrArg (Row.mk row.label) (inductionHypothesis row.rows)

theorem changeAt_unchanged (path : List ℕ) (rows : List (Row α)) : changeAt (fun rows => rows) path rows = rows := by
  induction path generalizing rows with
  | nil => rfl
  | cons i path inductionHypothesis =>
    have same : (fun row : Row α => Row.mk row.label (changeAt (fun rows => rows) path row.rows)) = id := by
      funext row
      rw [inductionHypothesis]
      cases row
      rfl
    rw [changeAt, same, List.modify_id]

theorem rowsAt_changeAt (change : List (Row α) → List (Row α)) (path : List ℕ) (rows : List (Row α)) :
    rowsAt path (changeAt change path rows) = (rowsAt path rows).map change := by
  induction path generalizing rows with
  | nil => rfl
  | cons i path inductionHypothesis =>
    rw [rowsAt, rowsAt, changeAt, List.getElem?_modify_eq]
    cases rows[i]? with
    | none => rfl
    | some row => exact inductionHypothesis row.rows

theorem changeAt_append (change : List (Row α) → List (Row α)) (path path' : List ℕ) (rows : List (Row α)) :
    changeAt change (path ++ path') rows = changeAt (changeAt change path') path rows := by
  induction path generalizing rows with
  | nil => rfl
  | cons i path inductionHypothesis =>
    rw [List.cons_append, changeAt, changeAt]
    congr 1
    funext row
    exact congrArg (Row.mk row.label) (inductionHypothesis row.rows)

/-- Only what is done to the rows at the path matters. -/
theorem changeAt_congr {change change' : List (Row α) → List (Row α)} {path : List ℕ} {rows listed : List (Row α)}
    (found : rowsAt path rows = some listed) (same : change listed = change' listed) :
    changeAt change path rows = changeAt change' path rows := by
  induction path generalizing rows with
  | nil => cases found; exact same
  | cons i path inductionHypothesis =>
    obtain ⟨row, here, found⟩ := Option.bind_eq_some_iff.mp found
    obtain ⟨inside, rfl⟩ := List.getElem?_eq_some_iff.mp here
    rw [changeAt, changeAt, List.modify_eq_take_cons_drop inside, List.modify_eq_take_cons_drop inside,
      inductionHypothesis found]

theorem changeAt_last (change : List (Row α) → List (Row α)) (left : List (Row α)) (label : α)
    (below right : List (Row α)) :
    changeAt change [left.length] (left ++ .mk label below :: right) = left ++ .mk label (change below) :: right := by
  rw [changeAt, List.modify_eq_take_cons_drop (by simp)]
  simp [changeAt, Row.label, Row.rows]

/-- Rows that are appended are seen only at the path itself and above it. -/
theorem rowsAt_changeAt_append {path path' : List ℕ} (apart : ¬ path <+: path') (more : List (Row α))
    {rows listed : List (Row α)} (found : rowsAt path rows = some listed) :
    rowsAt path (changeAt (· ++ more) path' rows) = some listed := by
  induction path generalizing path' rows with
  | nil => exact absurd List.nil_prefix apart
  | cons i path inductionHypothesis =>
    rw [rowsAt] at found ⊢
    obtain ⟨row, here, deeper⟩ := Option.bind_eq_some_iff.mp found
    have inside := (List.getElem?_eq_some_iff.mp here).1
    cases path' with
    | nil => rw [changeAt, List.getElem?_append_left inside, here, Option.bind_some, deeper]
    | cons j path' =>
      rw [changeAt]
      by_cases same : j = i
      · subst same
        rw [List.getElem?_modify_eq, here]
        exact inductionHypothesis (fun before => apart ((List.cons_prefix_cons).mpr ⟨rfl, before⟩)) deeper
      · rw [List.getElem?_modify_ne _ _ same, here, Option.bind_some, deeper]

/-! ## Where a label stands -/

/-- The path of a row with the label. -/
inductive At (label : α) : List (Row α) → List ℕ → Prop
  | self {rows below : List (Row α)} {i : ℕ} (found : rows[i]? = some (.mk label below)) : At label rows [i]
  | child {rows : List (Row α)} {row : Row α} {i : ℕ} {path : List ℕ} (found : rows[i]? = some row)
      (deeper : At label row.rows path) : At label rows (i :: path)

theorem At.exists_siblings {label : α} {rows : List (Row α)} {path : List ℕ} (located : At label rows path) :
    ∃ start left below right, path = start ++ [left.length] ∧
      rowsAt start rows = some (left ++ .mk label below :: right) := by
  induction located with
  | @self rows below i found =>
    obtain ⟨inside, here⟩ := List.getElem?_eq_some_iff.mp found
    refine ⟨[], rows.take i, below, rows.drop (i + 1), by simp [Nat.min_eq_left (Nat.le_of_lt inside)], ?_⟩
    rw [rowsAt, ← here, ← List.drop_eq_getElem_cons inside, List.take_append_drop]
  | @child rows row i path found _ inductionHypothesis =>
    obtain ⟨start, left, below, right, same, listed⟩ := inductionHypothesis
    exact ⟨i :: start, left, below, right, by rw [same]; rfl, by rw [rowsAt, found]; exact listed⟩

/-- The links around the list at a path, which stands under `owner`. -/
structure Around (above owner : Option α) (before after : List (Option α × α)) : Prop where
  owner : owner = above ∨ ∃ label ∈ before.map Prod.snd, owner = some label
  closed : ∀ upper label, (some upper, label) ∈ before ++ after → some upper = above ∨
    upper ∈ (before ++ after).map Prod.snd

theorem Around.under {above owner : Option α} {label : α} {before after : List (Option α × α)}
    {left right : List (Row α)} (around : Around (some label) owner before after) :
    Around above owner (links above left ++ (above, label) :: before) (after ++ links above right) := by
  have cons : label ∈ (links above left ++ (above, label) :: before).map Prod.snd := by simp
  refine ⟨?_, fun upper lower member => ?_⟩
  · rcases around.owner with same | ⟨other, member, same⟩
    · exact .inr ⟨label, cons, same⟩
    · rw [List.map_append, List.map_cons]
      exact .inr ⟨other, List.mem_append_right _ (List.mem_cons_of_mem _ member), same⟩
  · have aside : ∀ rows : List (Row α), (some upper, lower) ∈ links above rows →
        some upper = above ∨ upper ∈ (links above rows).map Prod.snd := fun _ => above_mem
    have inner := around.closed upper lower
    simp only [List.mem_append, List.mem_cons, List.map_append, List.map_cons] at member inner ⊢
    grind

theorem links_changeAt {path : List ℕ} {above : Option α} {rows listed : List (Row α)}
    (found : rowsAt path rows = some listed) :
    ∃ owner before after, Around above owner before after ∧
      ∀ change, links above (changeAt change path rows) = before ++ (links owner (change listed) ++ after) := by
  induction path generalizing above rows with
  | nil =>
    cases found
    refine ⟨above, [], [], ⟨.inl rfl, fun _ _ member => nomatch member⟩, fun change => ?_⟩
    rw [changeAt, List.nil_append, List.append_nil]
  | cons i path inductionHypothesis =>
    obtain ⟨row, here, found⟩ := Option.bind_eq_some_iff.mp found
    obtain ⟨inside, rfl⟩ := List.getElem?_eq_some_iff.mp here
    obtain ⟨owner, before, after, around, changed⟩ := @inductionHypothesis (some rows[i].label) _ found
    have around : Around above owner (links above (rows.take i) ++ (above, rows[i].label) :: before)
        (after ++ links above (rows.drop (i + 1))) := around.under
    refine ⟨owner, _, _, around, fun change => ?_⟩
    rw [changeAt, List.modify_eq_take_cons_drop inside, links_append, links_cons, changed]
    simp only [List.append_assoc, List.cons_append]

/-- A row is taken out and the rows under it go to the end of the list it was in. -/
theorem links_dissolve [DecidableEq α] {path : List ℕ} {label : α} {rows left below right : List (Row α)}
    (found : rowsAt path rows = some (left ++ .mk label below :: right)) (distinct : (labels none rows).Nodup) :
    ∃ owner, (owner, label) ∈ links none rows ∧
      (∀ link ∈ links none (changeAt (fun _ => left ++ right ++ below) path rows),
        ∃ old ∈ links none rows, old.2 ≠ label ∧ link = relink label owner old) ∧
      (labels none (changeAt (fun _ => left ++ right ++ below) path rows)).Perm ((labels none rows).erase label) := by
  obtain ⟨owner, before, after, around, changed⟩ := @links_changeAt _ path none rows _ found
  have whole := changed fun rows => rows
  rw [changeAt_unchanged, links_append, links_cons] at whole
  have later := changed fun _ => left ++ right ++ below
  rw [links_append, links_append] at later
  have split : (label :: labels none (changeAt (fun _ => left ++ right ++ below) path rows)).Perm (labels none rows) := by
    have same := labels_above owner (some label) below
    rw [labels, labels] at same
    rw [labels, labels, later, whole]
    simp only [List.map_append, List.map_cons, same]
    grind
  -- the label stands nowhere else
  have alone : label ∉ (before ++ after).map Prod.snd ∧ label ∉ labels owner left ∧ label ∉ labels owner right ∧
      label ∉ labels (some label) below := by
    rw [labels, whole] at distinct
    simp only [List.map_append, List.map_cons, List.nodup_append, List.nodup_cons, List.mem_append, List.mem_cons] at distinct
    simp only [labels, List.map_append, List.mem_append]
    grind
  have apart : owner ≠ some label := by
    rintro rfl
    rcases around.owner with none | ⟨other, member, same⟩
    · cases none
    · cases same
      exact alone.1 (by rw [List.map_append]; exact List.mem_append_left _ member)
  have aside : ∀ link ∈ before ++ after, link.1 ≠ some label := by
    rintro ⟨upper, lower⟩ member rfl
    rcases around.closed label lower member with none | here
    · cases none
    · exact alone.1 here
  have beside : ∀ rows, label ∉ labels owner rows → ∀ link ∈ links owner rows, link.1 ≠ some label := by
    rintro rows absent ⟨upper, lower⟩ member rfl
    rcases above_mem member with same | here
    · exact apart same.symm
    · exact absent here
  have others : ∀ link ∈ links none (changeAt (fun _ => left ++ right ++ below) path rows), link.2 ≠ label := by
    intro link member same
    have twice := split.nodup_iff.mpr distinct
    exact (List.nodup_cons.mp twice).1 (same ▸ List.mem_map_of_mem member)
  refine ⟨owner, by rw [whole]; simp, fun link member => ?_, (List.cons_perm_iff_perm_erase.mp split).2⟩
  have other := others link member
  rw [later, links_relink owner alone.2.2.2] at member
  rw [whole]
  by_cases moved : link ∈ (links (some label) below).map (relink label owner)
  · obtain ⟨old, inside, rfl⟩ := List.mem_map.mp moved
    exact ⟨old, by simp [inside], other, rfl⟩
  · -- all but the rows that were under the label stay where they are
    have unmoved : link ∈ before ++ after ∨ link ∈ links owner left ∨ link ∈ links owner right := by
      simp only [List.mem_append] at member moved ⊢
      grind
    have stays : link.1 ≠ some label := by
      rcases unmoved with around | inLeft | inRight
      · exact aside link around
      · exact beside left alone.2.1 link inLeft
      · exact beside right alone.2.2.1 link inRight
    refine ⟨link, ?_, other, by rw [relink, if_neg stays]⟩
    simp only [List.mem_append, List.mem_cons] at unmoved ⊢
    grind

/-- A label that stands somewhere stands under one other label only. -/
theorem above_unique {above above' start : Option α} {label : α} {rows : List (Row α)}
    (distinct : (labels start rows).Nodup) (first : (above, label) ∈ links start rows)
    (second : (above', label) ∈ links start rows) : above = above' := by
  have same := List.inj_on_of_nodup_map distinct first second rfl
  exact congrArg Prod.fst same

/-- A row goes and the rows under it are appended to the list it was in; nothing else
changes, on any level. -/
inductive Dissolved (label : α) : List (Row α) → List (Row α) → Prop
  | here (left below right : List (Row α)) : Dissolved label (left ++ .mk label below :: right) (left ++ right ++ below)
  | under {rows rows' : List (Row α)} (left : List (Row α)) (other : α) (right : List (Row α))
      (deeper : Dissolved label rows rows') :
      Dissolved label (left ++ .mk other rows :: right) (left ++ .mk other rows' :: right)

theorem dissolved_changeAt {path : List ℕ} {label : α} {rows left below right : List (Row α)}
    (found : rowsAt path rows = some (left ++ .mk label below :: right)) :
    Dissolved label rows (changeAt (fun _ => left ++ right ++ below) path rows) := by
  induction path generalizing rows with
  | nil =>
    cases found
    exact .here left below right
  | cons i path inductionHypothesis =>
    obtain ⟨row, at_, found⟩ := Option.bind_eq_some_iff.mp found
    obtain ⟨inside, rfl⟩ := List.getElem?_eq_some_iff.mp at_
    have split : rows.take i ++ .mk rows[i].label rows[i].rows :: rows.drop (i + 1) = rows := by
      have whole := List.take_append_drop i rows
      rwa [List.drop_eq_getElem_cons inside, ← mk_label_rows rows[i]] at whole
    have dissolved := Dissolved.under (rows.take i) rows[i].label (rows.drop (i + 1)) (inductionHypothesis found)
    rw [split] at dissolved
    rwa [changeAt, List.modify_eq_take_cons_drop inside]

end Row

end Memprof.Library
