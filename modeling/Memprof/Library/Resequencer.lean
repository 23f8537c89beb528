import Mathlib.Data.List.Sort
import Memprof.Library.Outcome

/-! # Putting numbered items back in order

A consumer that may only apply item number `next`, and keeps the items that arrive
too early in a list sorted by number.  `deliver` is one arrival: an early item is
queued; the item that is due is applied and `settle` then drains the queue for as
long as its head is due.

The two algebraic facts behind the order independence are `deliver_eq_settle` (an
arrival is an insertion followed by settling) and `settle_enqueue` (settling first
does not change what an insertion followed by settling gives).  From them a whole
run of arrivals is one settling of the sorted list of everything that arrived.
-/

namespace Memprof.Library

variable {σ κ ε : Type} (next : σ → ℕ) (key : κ → ℕ) (apply : σ → κ → Except ε σ)

def enqueue (item : κ) (waiting : List κ) : List κ :=
  waiting.orderedInsert (fun left right => key left ≤ key right) item

def enqueueAll (items waiting : List κ) : List κ :=
  items.foldl (fun waiting item => enqueue key item waiting) waiting

def settle : σ → List κ → Except ε (σ × List κ)
  | state, [] => .ok (state, [])
  | state, item :: waiting =>
    if key item = next state then apply state item >>= fun later => settle later waiting
    else .ok (state, item :: waiting)

def deliver (pending : σ × List κ) (item : κ) : Except ε (σ × List κ) :=
  if key item = next pending.1 then
    apply pending.1 item >>= fun later => settle next key apply later pending.2
  else .ok (pending.1, enqueue key item pending.2)

/-- Below `bound`, applying the item that is due makes its successor due. -/
def Advances (bound : ℕ) : Prop :=
  ∀ state item later, key item = next state → key item < bound →
    apply state item = .ok later → next later = next state + 1

/-- Sorted, without two items of one number, from `first` on and below `bound`. -/
structure Waiting (first bound : ℕ) (waiting : List κ) : Prop where
  sorted : waiting.Pairwise (fun left right => key left < key right)
  from_first : ∀ item ∈ waiting, first ≤ key item
  below : ∀ item ∈ waiting, key item < bound

variable {next key apply}

theorem Waiting.tail {first bound : ℕ} {item : κ} {waiting : List κ}
    (ready : Waiting key first bound (item :: waiting)) : Waiting key (key item + 1) bound waiting where
  sorted := (List.pairwise_cons.mp ready.sorted).2
  from_first other member := (List.pairwise_cons.mp ready.sorted).1 other member
  below other member := ready.below other (List.mem_cons_of_mem _ member)

theorem mem_enqueue {item other : κ} {waiting : List κ} :
    other ∈ enqueue key item waiting ↔ other = item ∨ other ∈ waiting := by
  simp [enqueue, List.mem_orderedInsert]

theorem enqueue_perm (item : κ) (waiting : List κ) : (enqueue key item waiting).Perm (item :: waiting) :=
  List.perm_orderedInsert _ _ _

theorem enqueue_cons_of_lt {item head : κ} (late : key head < key item) (waiting : List κ) :
    enqueue key item (head :: waiting) = head :: enqueue key item waiting := by
  simp [enqueue, Nat.not_le.mpr late]

theorem enqueue_of_least {item : κ} {waiting : List κ} (least : ∀ other ∈ waiting, key item < key other) :
    enqueue key item waiting = item :: waiting := by
  cases waiting with
  | nil => rfl
  | cons head waiting => simp [enqueue, (least head (by simp)).le]

theorem Waiting.enqueue {first bound : ℕ} {item : κ} {waiting : List κ}
    (ready : Waiting key first bound waiting) (fresh : ∀ other ∈ waiting, key other ≠ key item)
    (from_first : first ≤ key item) (below : key item < bound) :
    Waiting key first bound (enqueue key item waiting) where
  sorted := by
    induction waiting generalizing first with
    | nil => simp [Library.enqueue]
    | cons head waiting inductionHypothesis =>
      rcases Nat.lt_or_gt_of_ne (fresh head (by simp)) with late | early
      · rw [enqueue_cons_of_lt late, List.pairwise_cons]
        refine ⟨fun other member => ?_, inductionHypothesis ready.tail
          (fun other member => fresh other (by simp [member])) (Nat.succ_le_of_lt late)⟩
        rcases mem_enqueue.mp member with rfl | member
        · exact late
        · exact (List.pairwise_cons.mp ready.sorted).1 other member
      · have least : ∀ other ∈ head :: waiting, key item < key other := by
          intro other member
          rcases List.mem_cons.mp member with rfl | member
          · exact early
          · exact early.trans ((List.pairwise_cons.mp ready.sorted).1 other member)
        rw [enqueue_of_least least, List.pairwise_cons]
        exact ⟨least, ready.sorted⟩
  from_first other member := by
    rcases mem_enqueue.mp member with rfl | member
    · exact from_first
    · exact ready.from_first other member
  below other member := by
    rcases mem_enqueue.mp member with rfl | member
    · exact below
    · exact ready.below other member

/-- The head is applied if it is due, and settling stops in front of it if not. -/
theorem settle_cons_inv {state later : σ} {item : κ} {waiting left : List κ}
    (settled : settle next key apply state (item :: waiting) = .ok (later, left)) :
    (key item = next state ∧ ∃ middle, apply state item = .ok middle ∧
      settle next key apply middle waiting = .ok (later, left)) ∨
    (key item ≠ next state ∧ later = state ∧ left = item :: waiting) := by
  rw [settle] at settled
  split at settled
  next due => exact .inl ⟨due, ok_of_bind settled⟩
  next notDue =>
    cases settled
    exact .inr ⟨notDue, rfl, rfl⟩

/-- What settling leaves: a queue whose head is not due yet, and no number was
skipped on the way. -/
theorem settle_spec {bound : ℕ} (advances : Advances next key apply bound) {state later : σ}
    {waiting left : List κ} (ready : Waiting key (next state) bound waiting)
    (settled : settle next key apply state waiting = .ok (later, left)) :
    Waiting key (next later + 1) bound left ∧ (∀ item ∈ left, item ∈ waiting) ∧
      ∀ number, next state ≤ number → number < next later → ∃ item ∈ waiting, key item = number := by
  induction waiting generalizing state with
  | nil =>
    cases settled
    exact ⟨⟨List.Pairwise.nil, by simp, by simp⟩, by simp, by intros; omega⟩
  | cons item waiting inductionHypothesis =>
    obtain ⟨due, middle, applied, settled⟩ | ⟨notDue, rfl, rfl⟩ := settle_cons_inv settled
    · have numbered := advances state item middle due (ready.below item (by simp)) applied
      obtain ⟨leftReady, leftSubset, covered⟩ :=
        inductionHypothesis (by rw [numbered, ← due]; exact ready.tail) settled
      refine ⟨leftReady, fun other member => List.mem_cons_of_mem _ (leftSubset other member), ?_⟩
      intro number lower upper
      rcases Nat.eq_or_lt_of_le lower with rfl | above
      · exact ⟨item, by simp, due⟩
      · obtain ⟨other, member, same⟩ := covered number (by omega) upper
        exact ⟨other, by simp [member], same⟩
    · have above := lt_of_le_of_ne (ready.from_first item (by simp)) (Ne.symm notDue)
      refine ⟨⟨ready.sorted, fun other member => ?_, ready.below⟩, fun _ member => member, by intros; omega⟩
      rcases List.mem_cons.mp member with rfl | member
      · exact above
      · exact above.trans ((List.pairwise_cons.mp ready.sorted).1 other member)

/-- Settling stops only at an empty queue or in front of an item that is not due. -/
theorem settle_stops {state later : σ} {waiting left : List κ}
    (settled : settle next key apply state waiting = .ok (later, left)) :
    ∀ item ∈ left.head?, key item ≠ next later := by
  induction waiting generalizing state with
  | nil => cases settled; simp
  | cons item waiting inductionHypothesis =>
    obtain ⟨_, _, _, settled⟩ | ⟨notDue, rfl, rfl⟩ := settle_cons_inv settled
    · exact inductionHypothesis settled
    · simpa using notDue

/-- What settling applies is a beginning of the queue. -/
theorem settle_takes {state later : σ} {waiting left : List κ}
    (settled : settle next key apply state waiting = .ok (later, left)) :
    ∃ taken, waiting = taken ++ left ∧ taken.foldlM apply state = .ok later := by
  induction waiting generalizing state with
  | nil => cases settled; exact ⟨[], rfl, rfl⟩
  | cons item waiting inductionHypothesis =>
    obtain ⟨_, middle, applied, settled⟩ | ⟨_, rfl, rfl⟩ := settle_cons_inv settled
    · obtain ⟨taken, divided, ran⟩ := inductionHypothesis settled
      refine ⟨item :: taken, by rw [divided, List.cons_append], ?_⟩
      rw [List.foldlM_cons, applied]
      exact ran
    · exact ⟨[], rfl, rfl⟩

theorem deliver_takes {state later : σ} {waiting left : List κ} {item : κ} (due : key item = next state)
    (delivered : deliver next key apply (state, waiting) item = .ok (later, left)) :
    ∃ taken, waiting = taken ++ left ∧ (item :: taken).foldlM apply state = .ok later := by
  rw [deliver, if_pos due] at delivered
  obtain ⟨middle, applied, settled⟩ := ok_of_bind delivered
  obtain ⟨taken, divided, ran⟩ := settle_takes settled
  refine ⟨taken, divided, ?_⟩
  rw [List.foldlM_cons, applied]
  exact ran

/-- Settling keeps what every application keeps. -/
theorem settle_ensures {allowed : ε → Prop} {invariant : σ → Prop} {waiting : List κ}
    (round : ∀ state item, item ∈ waiting → invariant state → Ensures allowed (apply state item) invariant)
    {state : σ} (initially : invariant state) :
    Ensures allowed (settle next key apply state waiting) fun pending =>
      invariant pending.1 ∧ ∀ item ∈ pending.2, item ∈ waiting := by
  induction waiting generalizing state with
  | nil => exact ensures_ok ⟨initially, by simp⟩
  | cons item waiting inductionHypothesis =>
    rw [settle]
    split
    next =>
      refine (round state item (by simp) initially).bind fun later held => ?_
      refine (inductionHypothesis (fun state other member => round state other (by simp [member])) held).imp ?_
      exact fun pending ⟨kept, subset⟩ => ⟨kept, fun other member => List.mem_cons_of_mem _ (subset other member)⟩
    next => exact ensures_ok ⟨initially, fun _ member => member⟩

theorem deliver_ensures {allowed : ε → Prop} {invariant : σ → Prop} {waiting : List κ} {item : κ}
    (round : ∀ state other, other ∈ item :: waiting → invariant state → Ensures allowed (apply state other) invariant)
    {state : σ} (initially : invariant state) :
    Ensures allowed (deliver next key apply (state, waiting) item) fun pending =>
      invariant pending.1 ∧ ∀ other ∈ pending.2, other ∈ item :: waiting := by
  unfold deliver
  split
  next =>
    refine (round state item (by simp) initially).bind fun later held => ?_
    refine (settle_ensures (fun state other member => round state other (by simp [member])) held).imp ?_
    exact fun pending ⟨kept, subset⟩ => ⟨kept, fun other member => List.mem_cons_of_mem _ (subset other member)⟩
  next => exact ensures_ok ⟨initially, fun other member => List.mem_cons.mpr (mem_enqueue.mp member)⟩

/-! ### Two consumers of the same items -/

section Agree

variable {σ' : Type} {next' : σ' → ℕ} {apply' : σ' → κ → Except ε σ'} {related : σ → σ' → Prop}

theorem settle_agree (same : ∀ state state', related state state' → next state = next' state')
    (round : ∀ state state' item, related state state' → Agree related (apply state item) (apply' state' item))
    {state : σ} {state' : σ'} (initially : related state state') (waiting : List κ) :
    Agree (fun left right => related left.1 right.1 ∧ left.2 = right.2) (settle next key apply state waiting)
      (settle next' key apply' state' waiting) := by
  induction waiting generalizing state state' with
  | nil => exact .ok ⟨initially, rfl⟩
  | cons item waiting inductionHypothesis =>
    rw [settle, settle, same state state' initially]
    split
    next => exact (round state state' item initially).bind fun _ _ held => inductionHypothesis held
    next => exact .ok ⟨initially, rfl⟩

theorem deliver_agree (same : ∀ state state', related state state' → next state = next' state')
    (round : ∀ state state' item, related state state' → Agree related (apply state item) (apply' state' item))
    {state : σ} {state' : σ'} (initially : related state state') (waiting : List κ) (item : κ) :
    Agree (fun left right => related left.1 right.1 ∧ left.2 = right.2) (deliver next key apply (state, waiting) item)
      (deliver next' key apply' (state', waiting) item) := by
  unfold deliver
  rw [same state state' initially]
  split
  next => exact (round state state' item initially).bind fun _ _ held => settle_agree same round held waiting
  next => exact .ok ⟨initially, rfl⟩

end Agree

/-- An arrival at a settled queue is an insertion followed by settling. -/
theorem deliver_eq_settle {bound : ℕ} {state : σ} {waiting : List κ}
    (ready : Waiting key (next state + 1) bound waiting) (item : κ) :
    deliver next key apply (state, waiting) item = settle next key apply state (enqueue key item waiting) := by
  unfold deliver
  split
  next due =>
    have least : ∀ other ∈ waiting, key item < key other := fun other member =>
      lt_of_eq_of_lt due (ready.from_first other member)
    rw [enqueue_of_least least]
    simp only at due
    simp [settle, due]
  next notDue =>
    simp only at notDue
    cases inserted : enqueue key item waiting with
    | nil => rfl
    | cons head rest =>
      have headNotDue : key head ≠ next state := by
        rcases mem_enqueue.mp (inserted ▸ List.mem_cons_self : head ∈ enqueue key item waiting) with rfl | member
        · exact notDue
        · have := ready.from_first head member; omega
      simp [settle, headNotDue]

/-- Settling before an insertion changes nothing after the next settling. -/
theorem settle_enqueue {bound : ℕ} (advances : Advances next key apply bound) {state : σ}
    {waiting : List κ} {item : κ} (ready : Waiting key (next state) bound waiting)
    (fresh : ∀ other ∈ waiting, key other ≠ key item) (from_first : next state ≤ key item) :
    (settle next key apply state waiting >>= fun pending =>
      settle next key apply pending.1 (enqueue key item pending.2)) =
      settle next key apply state (enqueue key item waiting) := by
  induction waiting generalizing state with
  | nil => rfl
  | cons head waiting inductionHypothesis =>
    rw [settle]
    split
    next due =>
      have late : key head < key item :=
        lt_of_le_of_ne (due ▸ from_first) (fresh head (by simp))
      rw [enqueue_cons_of_lt late, settle, if_pos due]
      cases applied : apply state head with
      | error _ => rfl
      | ok later =>
        have numbered := advances state head later due (ready.below head (by simp)) applied
        exact inductionHypothesis (by rw [numbered, ← due]; exact ready.tail)
          (fun other member => fresh other (by simp [member])) (by omega)
    next notDue => rfl

/-- A run of arrivals is one settling of everything that arrived. -/
theorem settle_bind_deliver {bound : ℕ} (advances : Advances next key apply bound) {state : σ}
    {waiting items : List κ} (ready : Waiting key (next state) bound waiting)
    (distinct : (items.map key).Nodup) (fresh : ∀ item ∈ items, ∀ other ∈ waiting, key other ≠ key item)
    (from_first : ∀ item ∈ items, next state ≤ key item) (below : ∀ item ∈ items, key item < bound) :
    (settle next key apply state waiting >>= fun pending => items.foldlM (deliver next key apply) pending) =
      settle next key apply state (enqueueAll key items waiting) := by
  induction items generalizing waiting with
  | nil =>
    simp only [List.foldlM_nil, enqueueAll, List.foldl_nil]
    cases settle next key apply state waiting <;> rfl
  | cons item items inductionHypothesis =>
    simp only [List.map_cons, List.nodup_cons, List.mem_map, not_exists, not_and] at distinct
    have arrival : ∀ pending, settle next key apply state waiting = .ok pending →
        deliver next key apply pending item =
          settle next key apply pending.1 (enqueue key item pending.2) := by
      intro pending settled
      exact deliver_eq_settle (settle_spec advances ready settled).1 item
    calc (settle next key apply state waiting >>= fun pending =>
          (item :: items).foldlM (deliver next key apply) pending)
        = (settle next key apply state waiting >>= fun pending =>
            settle next key apply pending.1 (enqueue key item pending.2)) >>= fun pending =>
              items.foldlM (deliver next key apply) pending := by
          cases settled : settle next key apply state waiting with
          | error _ => rfl
          | ok pending =>
            simp only [List.foldlM_cons, Bind.bind, Except.bind]
            rw [arrival pending settled]
      _ = settle next key apply state (enqueue key item waiting) >>= fun pending =>
              items.foldlM (deliver next key apply) pending := by
          rw [settle_enqueue advances ready (fresh item (by simp)) (from_first item (by simp))]
      _ = settle next key apply state (enqueueAll key (item :: items) waiting) := by
          apply inductionHypothesis
          · exact ready.enqueue (fresh item (by simp)) (from_first item (by simp)) (below item (by simp))
          · exact distinct.2
          · intro later member other queued
            rcases mem_enqueue.mp queued with rfl | queued
            · exact fun same => distinct.1 later member same.symm
            · exact fresh later (by simp [member]) other queued
          · exact fun later member => from_first later (by simp [member])
          · exact fun later member => below later (by simp [member])

theorem enqueueAll_perm (items waiting : List κ) : (enqueueAll key items waiting).Perm (items ++ waiting) := by
  induction items generalizing waiting with
  | nil => exact List.Perm.refl _
  | cons item items inductionHypothesis =>
    exact (inductionHypothesis _).trans
      (((enqueue_perm item waiting).append_left items).trans List.perm_middle)

theorem Waiting.enqueueAll {first bound : ℕ} {items waiting : List κ} (ready : Waiting key first bound waiting)
    (distinct : (items.map key).Nodup) (fresh : ∀ item ∈ items, ∀ other ∈ waiting, key other ≠ key item)
    (from_first : ∀ item ∈ items, first ≤ key item) (below : ∀ item ∈ items, key item < bound) :
    Waiting key first bound (enqueueAll key items waiting) := by
  induction items generalizing waiting with
  | nil => exact ready
  | cons item items inductionHypothesis =>
    simp only [List.map_cons, List.nodup_cons, List.mem_map, not_exists, not_and] at distinct
    refine inductionHypothesis
      (ready.enqueue (fresh item (by simp)) (from_first item (by simp)) (below item (by simp)))
      distinct.2 ?_ (fun later member => from_first later (by simp [member]))
      (fun later member => below later (by simp [member]))
    intro later member other queued
    rcases mem_enqueue.mp queued with rfl | queued
    · exact fun same => distinct.1 later member same.symm
    · exact fresh later (by simp [member]) other queued

/-- Two sorted queues of the same items are the same queue. -/
theorem Waiting.eq_of_perm {first bound : ℕ} {left right : List κ} (leftReady : Waiting key first bound left)
    (rightReady : Waiting key first bound right) (permuted : left.Perm right) : left = right :=
  permuted.eq_of_pairwise (fun _ _ _ _ before after => absurd before (Nat.lt_asymm after))
    leftReady.sorted rightReady.sorted

/-- What settling applies would also have been applied if it had arrived alone and in order. -/
theorem settle_taken {bound : ℕ} (advances : Advances next key apply bound) {state later : σ} {waiting left : List κ}
    (below : ∀ item ∈ waiting, key item < bound)
    (settled : settle next key apply state waiting = .ok (later, left)) :
    ∃ taken, waiting = taken ++ left ∧ taken.foldlM (deliver next key apply) (state, []) = .ok (later, []) ∧
      taken.map key = List.range' (next state) taken.length ∧ next later = next state + taken.length := by
  induction waiting generalizing state with
  | nil => cases settled; exact ⟨[], rfl, rfl, rfl, rfl⟩
  | cons item waiting inductionHypothesis =>
    obtain ⟨due, middle, applied, settled⟩ | ⟨_, rfl, rfl⟩ := settle_cons_inv settled
    · have numbered := advances state item middle due (below item (by simp)) applied
      obtain ⟨taken, divided, ran, range, counted⟩ :=
        inductionHypothesis (fun other member => below other (by simp [member])) settled
      refine ⟨item :: taken, by rw [divided, List.cons_append], ?_, ?_, ?_⟩
      · have delivered : deliver next key apply (state, []) item = .ok (middle, []) := by
          rw [deliver, if_pos due, applied]
          rfl
        rw [List.foldlM_cons, delivered]
        exact ran
      · rw [List.map_cons, range, numbered, due, List.length_cons, List.range'_succ]
      · rw [counted, numbered, List.length_cons]
        omega
    · exact ⟨[], rfl, rfl, rfl, rfl⟩

/-- Of all that has arrived, what does not wait would have been applied without the rest. -/
theorem delivered_taken {bound : ℕ} (advances : Advances next key apply bound) {state later : σ}
    {items left : List κ} (distinct : (items.map key).Nodup) (from_first : ∀ item ∈ items, next state ≤ key item)
    (below : ∀ item ∈ items, key item < bound)
    (ran : items.foldlM (deliver next key apply) (state, []) = .ok (later, left)) :
    ∃ taken, items.Perm (taken ++ left) ∧
      taken.foldlM (deliver next key apply) (state, []) = .ok (later, []) ∧
      taken.map key = List.range' (next state) taken.length ∧ next later = next state + taken.length := by
  have empty : Waiting key (next state) bound ([] : List κ) := ⟨List.Pairwise.nil, by simp, by simp⟩
  have settled : settle next key apply state (enqueueAll key items []) = .ok (later, left) :=
    (settle_bind_deliver advances empty distinct (by simp) from_first below).symm.trans ran
  have permuted : (enqueueAll key items []).Perm (items ++ []) := enqueueAll_perm items []
  rw [List.append_nil] at permuted
  obtain ⟨taken, divided, delivered⟩ :=
    settle_taken advances (fun item member => below item (permuted.mem_iff.mp member)) settled
  exact ⟨taken, divided ▸ permuted.symm, delivered⟩

/-- Arrivals of the same items in two orders end in the same state. -/
theorem deliver_perm {bound : ℕ} (advances : Advances next key apply bound) (state : σ) {items arrival : List κ}
    (permuted : arrival.Perm items) (distinct : (items.map key).Nodup)
    (from_first : ∀ item ∈ items, next state ≤ key item) (below : ∀ item ∈ items, key item < bound) :
    arrival.foldlM (deliver next key apply) (state, []) = items.foldlM (deliver next key apply) (state, []) := by
  have empty : Waiting key (next state) bound ([] : List κ) := ⟨List.Pairwise.nil, by simp, by simp⟩
  have distinct' : (arrival.map key).Nodup := (permuted.map key).nodup_iff.mpr distinct
  have from_first' : ∀ item ∈ arrival, next state ≤ key item :=
    fun item member => from_first item (permuted.mem_iff.mp member)
  have below' : ∀ item ∈ arrival, key item < bound :=
    fun item member => below item (permuted.mem_iff.mp member)
  have sorted := Waiting.eq_of_perm
    (empty.enqueueAll distinct' (by simp) from_first' below')
    (empty.enqueueAll distinct (by simp) from_first below)
    (((enqueueAll_perm arrival []).trans (permuted.append_right [])).trans (enqueueAll_perm items []).symm)
  have run := settle_bind_deliver advances empty distinct (by simp) from_first below
  have run' := settle_bind_deliver advances empty distinct' (by simp) from_first' below'
  rw [sorted] at run'
  exact run'.trans run.symm

end Memprof.Library
