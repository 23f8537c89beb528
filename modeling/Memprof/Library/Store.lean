import Mathlib.Algebra.BigOperators.Group.List.Basic
import Mathlib.Tactic.Ring

/-! # Stores of reference counted objects

An object lives at the position it was allocated at; a released object leaves a
hole, and positions are never reused.  The second half adds the discipline of
reference counts: `retain` and `release` change the count of one object, the last
`release` frees it, and `refs` is the count seen from outside (`0` for a hole), so
that the effect of any sequence of them is an equation about `refs`.
-/

namespace Memprof.Library

structure Store (α : Type*) where
  cells : List (Option α) := []
deriving DecidableEq, Repr

namespace Store

variable {α : Type*}

def get (store : Store α) (i : ℕ) : Option α := store.cells[i]?.join

def alloc (store : Store α) (object : α) : Store α × ℕ :=
  (⟨store.cells ++ [some object]⟩, store.cells.length)

def put (store : Store α) (i : ℕ) (object : α) : Store α := ⟨store.cells.set i (some object)⟩

def free (store : Store α) (i : ℕ) : Store α := ⟨store.cells.set i none⟩

def size (store : Store α) : ℕ := store.cells.length

theorem lt_size_of_get {store : Store α} {i : ℕ} {object : α} (live : store.get i = some object) :
    i < store.size := by
  by_contra outside
  simp [get, List.getElem?_eq_none (Nat.le_of_not_lt outside)] at live

theorem get_of_size_le {store : Store α} {i : ℕ} (outside : store.size ≤ i) : store.get i = none := by
  simp [get, List.getElem?_eq_none outside]

@[simp] theorem alloc_snd (store : Store α) (object : α) : (store.alloc object).2 = store.size := rfl

@[simp] theorem size_alloc (store : Store α) (object : α) :
    (store.alloc object).1.size = store.size + 1 := by
  simp [alloc, size]

@[simp] theorem size_put (store : Store α) (i : ℕ) (object : α) : (store.put i object).size = store.size := by
  simp [put, size]

@[simp] theorem size_free (store : Store α) (i : ℕ) : (store.free i).size = store.size := by
  simp [free, size]

theorem get_alloc (store : Store α) (object : α) (j : ℕ) :
    (store.alloc object).1.get j = if j = store.size then some object else store.get j := by
  split
  next fresh => simp [get, alloc, fresh, size]
  next old =>
    rcases Nat.lt_or_gt_of_ne old with inside | outside
    · simp [get, alloc, List.getElem?_append_left inside]
    · rw [get_of_size_le (Nat.le_of_lt outside), get_of_size_le (by simp; omega)]

theorem get_put {store : Store α} {i : ℕ} (inside : i < store.size) (object : α) (j : ℕ) :
    (store.put i object).get j = if j = i then some object else store.get j := by
  unfold size at inside
  split
  next same => subst same; simp [get, put, inside]
  next other => simp [get, put, List.getElem?_set_ne (Ne.symm other)]

theorem get_free (store : Store α) (i j : ℕ) :
    (store.free i).get j = if j = i then none else store.get j := by
  split
  next same =>
    subst same
    rw [get, free, List.getElem?_set_self']
    cases store.cells[j]? <;> rfl
  next other => simp [get, free, List.getElem?_set_ne (Ne.symm other)]

end Store

/-- Objects that carry their own count. -/
class RefCounted (α : Type*) where
  refs : α → ℤ
  setRefs : ℤ → α → α
  refs_setRefs : ∀ n object, refs (setRefs n object) = n
  setRefs_setRefs : ∀ n m object, setRefs n (setRefs m object) = setRefs n object
  setRefs_refs : ∀ object, setRefs (refs object) object = object

attribute [simp] RefCounted.refs_setRefs RefCounted.setRefs_setRefs RefCounted.setRefs_refs

namespace Store

variable {α : Type*} [RefCounted α]

/-- The count of object `i`, `0` once it is gone. -/
def refs (store : Store α) (i : ℕ) : ℤ := (store.get i).elim 0 RefCounted.refs

/-- Take a reference; `none` when the object is gone. -/
def retain (store : Store α) (i : ℕ) : Option (Store α) :=
  (store.get i).map fun object => store.put i (RefCounted.setRefs (RefCounted.refs object + 1) object)

/-- Drop a reference, the last one frees the object; `none` when the object is gone. -/
def release (store : Store α) (i : ℕ) : Option (Store α) :=
  (store.get i).map fun object =>
    if RefCounted.refs object - 1 = 0 then store.free i
    else store.put i (RefCounted.setRefs (RefCounted.refs object - 1) object)

def retainAll (store : Store α) (ids : List ℕ) : Option (Store α) := ids.foldlM retain store

def releaseAll (store : Store α) (ids : List ℕ) : Option (Store α) := ids.foldlM release store

/-- Every object that is still there is referenced. -/
def Positive (store : Store α) : Prop := ∀ i object, store.get i = some object → 0 < RefCounted.refs object

/-- `later` has no object that `store` lacks, and its objects differ from those of
`store` in their counts only. -/
def SameBut (store later : Store α) : Prop :=
  ∀ i object', later.get i = some object' → i < store.size →
    ∃ object n, store.get i = some object ∧ object' = RefCounted.setRefs n object

theorem SameBut.refl (store : Store α) : store.SameBut store :=
  fun _ object live _ => ⟨object, RefCounted.refs object, live, by simp⟩

theorem SameBut.trans {first second third : Store α} (grows : first.size ≤ second.size)
    (left : first.SameBut second) (right : second.SameBut third) : first.SameBut third := by
  intro i object'' live inside
  obtain ⟨object', n, live', rfl⟩ := right i object'' live (Nat.lt_of_lt_of_le inside grows)
  obtain ⟨object, m, kept, rfl⟩ := left i object' live' inside
  exact ⟨object, n, kept, by simp⟩

theorem refs_of_get {store : Store α} {i : ℕ} {object : α} (live : store.get i = some object) :
    store.refs i = RefCounted.refs object := by simp [refs, live]

theorem exists_get_of_refs_pos {store : Store α} {i : ℕ} (referenced : 0 < store.refs i) :
    ∃ object, store.get i = some object := by
  cases live : store.get i with
  | none => simp [refs, live] at referenced
  | some object => exact ⟨object, rfl⟩

theorem Positive.refs_nonneg {store : Store α} (positive : store.Positive) (i : ℕ) : 0 ≤ store.refs i := by
  cases live : store.get i with
  | none => simp [refs, live]
  | some object => rw [refs_of_get live]; exact (positive i object live).le

theorem refs_alloc (store : Store α) (object : α) (j : ℕ) :
    (store.alloc object).1.refs j = if j = store.size then RefCounted.refs object else store.refs j := by
  simp only [refs, get_alloc]; split <;> rfl

theorem Positive.alloc {store : Store α} (positive : store.Positive) {object : α}
    (referenced : 0 < RefCounted.refs object) : (store.alloc object).1.Positive := by
  intro i other live
  rw [get_alloc] at live
  split at live
  · cases live; exact referenced
  · exact positive i other live

theorem sameBut_alloc (store : Store α) (object : α) : store.SameBut (store.alloc object).1 := by
  intro i other live inside
  rw [get_alloc, if_neg (Nat.ne_of_lt inside)] at live
  exact ⟨other, RefCounted.refs other, live, by simp⟩

theorem refs_put {store : Store α} {i : ℕ} (inside : i < store.size) (object : α) (j : ℕ) :
    (store.put i object).refs j = if j = i then RefCounted.refs object else store.refs j := by
  simp only [refs, get_put inside]; split <;> rfl

theorem refs_free (store : Store α) (i j : ℕ) :
    (store.free i).refs j = if j = i then 0 else store.refs j := by
  simp only [refs, get_free]; split <;> rfl

/-- What one `retain` or `release` does to the store as a whole. -/
structure Moves (store : Store α) (change : ℕ → ℤ) (later : Store α) : Prop where
  size : later.size = store.size
  refs : ∀ j, later.refs j = store.refs j + change j
  same : store.SameBut later
  positive : store.Positive → later.Positive

theorem Moves.refl (store : Store α) : store.Moves (fun _ => 0) store :=
  ⟨rfl, fun _ => (add_zero _).symm, SameBut.refl store, id⟩

theorem Moves.trans {first second third : Store α} {f g : ℕ → ℤ}
    (left : first.Moves f second) (right : second.Moves g third) :
    first.Moves (fun j => f j + g j) third where
  size := right.size.trans left.size
  refs j := by rw [right.refs, left.refs, add_assoc]
  same := left.same.trans left.size.ge right.same
  positive := right.positive ∘ left.positive

/-- An object with another count, which stays positive. -/
theorem put_moves {store : Store α} {i : ℕ} {object : α} (live : store.get i = some object) {n change : ℤ}
    (counted : n = RefCounted.refs object + change) (counts : 0 < n) :
    store.Moves (fun j => if j = i then change else 0) (store.put i (RefCounted.setRefs n object)) := by
  have inside := lt_size_of_get live
  refine ⟨by simp, fun j => ?_, fun j other held _ => ?_, fun positive j other held => ?_⟩
  · rw [refs_put inside]
    split
    next same => rw [same, refs_of_get live]; simp [counted]
    next => simp
  · rw [get_put inside] at held
    split at held
    next same => cases held; exact ⟨object, _, same ▸ live, rfl⟩
    next => exact ⟨other, RefCounted.refs other, held, by simp⟩
  · rw [get_put inside] at held
    split at held
    next => cases held; simpa using counts
    next => exact positive j other held

theorem retain_moves {store : Store α} {i : ℕ} {object : α} (live : store.get i = some object)
    (positive : store.Positive) :
    ∃ later, store.retain i = some later ∧ store.Moves (fun j => if j = i then 1 else 0) later := by
  have referenced := positive i object live
  exact ⟨_, by rw [retain, live]; rfl, put_moves live rfl (by omega)⟩

theorem release_moves {store : Store α} {i : ℕ} (referenced : 0 < store.refs i)
    (positive : store.Positive) :
    ∃ later, store.release i = some later ∧ store.Moves (fun j => if j = i then -1 else 0) later := by
  obtain ⟨object, live⟩ := exists_get_of_refs_pos referenced
  by_cases last : RefCounted.refs object - 1 = 0
  · refine ⟨store.free i, by simp [release, live, last], ?_⟩
    refine ⟨by simp, fun j => ?_, fun j other held _ => ?_, fun _ j other held => ?_⟩
    · rw [refs_free]
      split
      next same => rw [same, refs_of_get live]; omega
      next => simp
    · rw [get_free] at held
      split at held
      next => cases held
      next => exact ⟨other, RefCounted.refs other, held, by simp⟩
    · rw [get_free] at held
      split at held
      next => cases held
      next => exact positive j other held
  · have counts := positive i object live
    exact ⟨store.put i (RefCounted.setRefs (RefCounted.refs object - 1) object), by simp [release, live, last],
      put_moves live (sub_eq_add_neg _ _) (by omega)⟩

theorem exists_release {store : Store α} {i : ℕ} {object : α} (live : store.get i = some object) :
    ∃ later, store.release i = some later := by
  rw [release, live]
  exact ⟨_, rfl⟩

theorem release_inv {store later : Store α} {i : ℕ} (released : store.release i = some later) :
    ∃ object, store.get i = some object ∧ later = if RefCounted.refs object - 1 = 0 then store.free i
      else store.put i (RefCounted.setRefs (RefCounted.refs object - 1) object) := by
  obtain ⟨object, live, left⟩ := Option.map_eq_some_iff.mp released
  exact ⟨object, live, left.symm⟩

/-- The last reference takes the object with it. -/
theorem get_release {store later : Store α} {i : ℕ} (released : store.release i = some later) (j : ℕ) :
    later.get j = if j ≠ i then store.get j else if store.refs i = 1 then none
      else (store.get i).map fun object => RefCounted.setRefs (RefCounted.refs object - 1) object := by
  obtain ⟨object, live, rfl⟩ := release_inv released
  have inside := lt_size_of_get live
  rw [refs_of_get live, live, Option.map_some]
  by_cases last : RefCounted.refs object = 1
  · rw [if_pos (by omega), get_free, if_pos last]
    by_cases same : j = i <;> simp [same]
  · rw [if_neg (by omega), get_put inside, if_neg last]
    by_cases same : j = i <;> simp [same]

theorem get_release_of_ne {store later : Store α} {i j : ℕ} (released : store.release i = some later) (other : j ≠ i) :
    later.get j = store.get j := by
  rw [get_release released, if_pos other]

/-- What is left was there, but for its count. -/
theorem exists_get_of_release {store later : Store α} {i j : ℕ} {object' : α} (released : store.release i = some later)
    (live : later.get j = some object') : ∃ object n, store.get j = some object ∧
      object' = RefCounted.setRefs n object := by
  rw [get_release released] at live
  split at live
  next => exact ⟨object', RefCounted.refs object', live, by simp⟩
  next same =>
    split at live
    next => cases live
    next =>
      obtain ⟨object, held, rfl⟩ := Option.map_eq_some_iff.mp live
      exact ⟨object, _, by rwa [not_ne_iff.mp same], rfl⟩

theorem size_release {store later : Store α} {i : ℕ} (released : store.release i = some later) :
    later.size = store.size := by
  obtain ⟨object, _, rfl⟩ := release_inv released
  by_cases last : RefCounted.refs object - 1 = 0 <;> simp [last]

theorem count_cons_int (i j : ℕ) (ids : List ℕ) :
    (((i :: ids).count j : ℕ) : ℤ) = (if j = i then 1 else 0) + (ids.count j : ℤ) := by
  rw [List.count_cons]
  by_cases same : j = i
  · simp [same, add_comm]
  · simp [same, Ne.symm same]

theorem retainAll_moves {store : Store α} {ids : List ℕ} (live : ∀ i ∈ ids, 0 < store.refs i)
    (positive : store.Positive) :
    ∃ later, store.retainAll ids = some later ∧ store.Moves (fun j => (ids.count j : ℤ)) later := by
  induction ids generalizing store with
  | nil => exact ⟨store, rfl, by simpa using Moves.refl store⟩
  | cons i ids inductionHypothesis =>
    obtain ⟨object, held⟩ := exists_get_of_refs_pos (live i (by simp))
    obtain ⟨next, retained, moved⟩ := retain_moves held positive
    obtain ⟨later, rest, movedRest⟩ := @inductionHypothesis next
      (fun j member => by
        have := live j (by simp [member])
        rw [moved.refs]; split <;> omega)
      (moved.positive positive)
    refine ⟨later, by simpa [retainAll, retained] using rest, ?_⟩
    simpa only [count_cons_int] using moved.trans movedRest

/-- A holder of references may drop them all, in any order. -/
theorem releaseAll_moves {store : Store α} {ids : List ℕ} (held : ∀ i, (ids.count i : ℤ) ≤ store.refs i)
    (positive : store.Positive) :
    ∃ later, store.releaseAll ids = some later ∧ store.Moves (fun j => -(ids.count j : ℤ)) later := by
  induction ids generalizing store with
  | nil => exact ⟨store, rfl, by simpa using Moves.refl store⟩
  | cons i ids inductionHypothesis =>
    have headHeld := held i
    rw [count_cons_int, if_pos rfl] at headHeld
    have referenced : 0 < store.refs i := by omega
    obtain ⟨next, released, moved⟩ := release_moves referenced positive
    obtain ⟨later, rest, movedRest⟩ := @inductionHypothesis next
      (fun j => by
        have := held j
        rw [count_cons_int] at this
        rw [moved.refs]; split <;> simp_all; omega)
      (moved.positive positive)
    refine ⟨later, by simpa [releaseAll, released] using rest, ?_⟩
    have total := moved.trans movedRest
    refine ⟨total.size, fun j => ?_, total.same, total.positive⟩
    rw [total.refs, count_cons_int]
    split <;> ring

/-- `store` becomes `later` while a client's references go from `before` to `after`. -/
structure Exchanges (store : Store α) (before after : List ℕ) (later : Store α) : Prop where
  size : store.size ≤ later.size
  refs : ∀ j, later.refs j + before.count j = store.refs j + after.count j
  same : store.SameBut later
  positive : store.Positive → later.Positive

theorem Exchanges.refl (store : Store α) (ids : List ℕ) : store.Exchanges ids ids store :=
  ⟨Nat.le_refl _, fun _ => rfl, SameBut.refl store, id⟩

theorem Exchanges.trans {first second third : Store α} {a b c : List ℕ} (left : first.Exchanges a b second)
    (right : second.Exchanges b c third) : first.Exchanges a c third where
  size := left.size.trans right.size
  refs j := by have := left.refs j; have := right.refs j; omega
  same := left.same.trans left.size right.same
  positive := right.positive ∘ left.positive

theorem Exchanges.of_perm {store later : Store α} {a b a' b' : List ℕ} (exchange : store.Exchanges a b later)
    (left : a.Perm a') (right : b.Perm b') : store.Exchanges a' b' later where
  size := exchange.size
  refs j := by rw [← left.count_eq, ← right.count_eq]; exact exchange.refs j
  same := exchange.same
  positive := exchange.positive

theorem exchanges_alloc (store : Store α) (ids : List ℕ) {object : α} (counted : RefCounted.refs object = 1) :
    store.Exchanges ids (store.size :: ids) (store.alloc object).1 where
  size := by simp
  refs j := by
    rw [refs_alloc, count_cons_int, counted]
    split
    next fresh => subst fresh; simp [refs, get_of_size_le]
    next => ring
  same := sameBut_alloc store object
  positive positive := positive.alloc (by omega)

theorem release_exchanges {store : Store α} {i : ℕ} (referenced : 0 < store.refs i) (positive : store.Positive)
    (ids : List ℕ) : ∃ later, store.release i = some later ∧ store.Exchanges (i :: ids) ids later := by
  obtain ⟨later, released, moved⟩ := release_moves referenced positive
  refine ⟨later, released, moved.size.ge, fun j => ?_, moved.same, moved.positive⟩
  rw [moved.refs, count_cons_int]
  split <;> ring

theorem releaseAll_exchanges {store : Store α} {ids : List ℕ} (held : ∀ i, (ids.count i : ℤ) ≤ store.refs i)
    (positive : store.Positive) : ∃ later, store.releaseAll ids = some later ∧ store.Exchanges ids [] later := by
  obtain ⟨later, released, moved⟩ := releaseAll_moves held positive
  refine ⟨later, released, moved.size.ge, fun j => ?_, moved.same, moved.positive⟩
  rw [moved.refs]; simp

theorem retainAll_exchanges {store : Store α} {ids : List ℕ} (live : ∀ i ∈ ids, 0 < store.refs i)
    (positive : store.Positive) : ∃ later, store.retainAll ids = some later ∧ store.Exchanges [] ids later := by
  obtain ⟨later, retained, moved⟩ := retainAll_moves live positive
  refine ⟨later, retained, moved.size.ge, fun j => ?_, moved.same, moved.positive⟩
  rw [moved.refs]; simp

/-- A client that held what it gave up holds what it took. -/
theorem Exchanges.held {store later : Store α} {before after : List ℕ} (exchange : store.Exchanges before after later)
    (held : ∀ j, (before.count j : ℤ) ≤ store.refs j) (j : ℕ) : (after.count j : ℤ) ≤ later.refs j := by
  have := exchange.refs j
  have := held j
  omega

theorem refs_pos_of_held {store : Store α} {ids : List ℕ} (held : ∀ j, (ids.count j : ℤ) ≤ store.refs j) {j : ℕ}
    (member : j ∈ ids) : 0 < store.refs j := by
  have counted := List.count_pos_iff.mpr member
  have := held j
  omega

/-- An object that is still referenced afterwards is the one it was. -/
theorem Exchanges.get_eq {store later : Store α} {before after : List ℕ} (exchange : store.Exchanges before after later)
    {i : ℕ} {object : α} (live : store.get i = some object) (referenced : 0 < later.refs i) :
    ∃ n, later.get i = some (RefCounted.setRefs n object) := by
  obtain ⟨object', live'⟩ := exists_get_of_refs_pos referenced
  obtain ⟨original, n, held, rfl⟩ := exchange.same i object' live' (lt_size_of_get live)
  rw [live] at held
  cases held
  exact ⟨n, live'⟩

/-- The counts are those of a list of holders, each with the references it holds. -/
structure Shared (store : Store α) (holders : List (List ℕ)) : Prop where
  positive : store.Positive
  counted : ∀ j, store.refs j = (holders.flatten.count j : ℤ)

theorem Shared.held {store : Store α} {holders : List (List ℕ)} (shared : store.Shared holders) {ids : List ℕ}
    (holder : ids ∈ holders) (j : ℕ) : (ids.count j : ℤ) ≤ store.refs j := by
  rw [shared.counted]
  exact_mod_cast (List.sublist_flatten_of_mem holder).count_le j

theorem Shared.refs_pos {store : Store α} {holders : List (List ℕ)} (shared : store.Shared holders) {ids : List ℕ}
    (holder : ids ∈ holders) {j : ℕ} (member : j ∈ ids) : 0 < store.refs j :=
  refs_pos_of_held (shared.held holder) member

theorem count_flatten_set {holders : List (List ℕ)} {p : ℕ} {before : List ℕ} (holder : holders[p]? = some before)
    (after : List ℕ) (j : ℕ) :
    (holders.set p after).flatten.count j + before.count j = holders.flatten.count j + after.count j := by
  induction holders generalizing p with
  | nil => cases holder
  | cons ids holders inductionHypothesis =>
    cases p with
    | zero =>
      cases holder
      simp only [List.set_cons_zero, List.flatten_cons, List.count_append]
      omega
    | succ p =>
      have rest := inductionHypothesis (by simpa using holder)
      simp only [List.set_cons_succ, List.flatten_cons, List.count_append]
      omega

/-- One holder's exchange leaves the counts those of the holders. -/
theorem Shared.exchange {store later : Store α} {holders : List (List ℕ)} {p : ℕ} {before after : List ℕ}
    (shared : store.Shared holders) (holder : holders[p]? = some before)
    (exchange : store.Exchanges before after later) : later.Shared (holders.set p after) where
  positive := exchange.positive shared.positive
  counted j := by
    have := exchange.refs j
    have := shared.counted j
    have := count_flatten_set holder after j
    omega

/-- An object may be replaced by one with the same count. -/
theorem Shared.put {store : Store α} {holders : List (List ℕ)} (shared : store.Shared holders) {i : ℕ}
    {object object' : α} (live : store.get i = some object) (same : RefCounted.refs object' = RefCounted.refs object) :
    (store.put i object').Shared holders where
  positive j other held := by
    rw [get_put (lt_size_of_get live)] at held
    split at held
    next => cases held; rw [same]; exact shared.positive i object live
    next => exact shared.positive j other held
  counted j := by
    rw [← shared.counted, refs_put (lt_size_of_get live)]
    split
    next here => rw [here, same, refs_of_get live]
    next => rfl

theorem Shared.join {store : Store α} {holders : List (List ℕ)} (shared : store.Shared holders) :
    store.Shared (holders ++ [[]]) :=
  ⟨shared.positive, fun j => by rw [shared.counted]; simp⟩

/-- Every object that is there has the property. -/
def All (property : α → Prop) (store : Store α) : Prop := ∀ i object, store.get i = some object → property object

section All

variable {property : α → Prop} {store later : Store α}

omit [RefCounted α] in
theorem All.alloc (all : store.All property) {object : α} (holds : property object) :
    (store.alloc object).1.All property := by
  intro i other live
  rw [get_alloc] at live
  split at live
  · cases live
    exact holds
  · exact all i other live

variable (counts : ∀ n object, property object → property (RefCounted.setRefs n object))

include counts

theorem All.retain (all : store.All property) {i : ℕ} (retained : store.retain i = some later) :
    later.All property := by
  obtain ⟨object, live, rfl⟩ := Option.map_eq_some_iff.mp retained
  intro j other liveLater
  rw [get_put (lt_size_of_get live)] at liveLater
  split at liveLater
  · cases liveLater
    exact counts _ object (all i object live)
  · exact all j other liveLater

theorem All.release (all : store.All property) {i : ℕ} (released : store.release i = some later) :
    later.All property := by
  intro j other live
  obtain ⟨object, n, held, rfl⟩ := exists_get_of_release released live
  exact counts n object (all j object held)

theorem All.retainAll (all : store.All property) {ids : List ℕ} (retained : store.retainAll ids = some later) :
    later.All property := by
  induction ids generalizing store with
  | nil => cases retained; exact all
  | cons i ids inductionHypothesis =>
    obtain ⟨next, first, rest⟩ := Option.bind_eq_some_iff.mp retained
    exact inductionHypothesis (all.retain counts first) rest

end All

end Store

end Memprof.Library
