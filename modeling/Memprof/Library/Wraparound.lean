import Mathlib.Data.List.Induction
import Mathlib.Data.Nat.ModEq
import Memprof.Library.Resequencer

/-! # Numbers that wrap around

A resequencer whose items carry the numbers from `start` on, modulo `modulus`.  The queue is
sorted by the plain numbers, so that an item after the wrap stands in front of all that come
before it, and only the head is ever taken.  `offset` is the place of an item in the true
order.
-/

namespace Memprof.Library

variable {σ κ ε : Type}

/-- The numbers are those from `start` on, and no place is taken twice. -/
structure Circular (start modulus : ℕ) (key offset : κ → ℕ) (items : List κ) : Prop where
  inside : start < modulus
  key_eq : ∀ item ∈ items, key item = (start + offset item) % modulus
  fits : ∀ item ∈ items, offset item < modulus
  distinct : (items.map offset).Nodup

/-- An item that is due is applied, and the next number is due. -/
def Applies (modulus : ℕ) (next : σ → ℕ) (key : κ → ℕ) (apply : σ → κ → Except ε σ) (invariant : σ → Prop)
    (items : List κ) : Prop :=
  ∀ state, invariant state → ∀ item ∈ items, key item = next state →
    ∃ later, apply state item = .ok later ∧ invariant later ∧ next later = (next state + 1) % modulus

/-- Of what was seen the first `count` items were applied, and the others wait. -/
structure Progress (start modulus : ℕ) (next : σ → ℕ) (key offset : κ → ℕ) (seen : List κ) (count : ℕ) (state : σ)
    (queue : List κ) : Prop where
  next_eq : next state = (start + count) % modulus
  passed : ∀ place < count, ∃ item ∈ seen, offset item = place
  queued : ∀ item, item ∈ queue ↔ item ∈ seen ∧ count ≤ offset item
  sorted : Waiting key 0 modulus queue

section

variable {start modulus : ℕ} {next : σ → ℕ} {key offset : κ → ℕ} {apply : σ → κ → Except ε σ} {invariant : σ → Prop}
  {items seen queue : List κ} {count : ℕ} {state : σ}

theorem Circular.key_lt (circular : Circular start modulus key offset items) {item : κ} (member : item ∈ items) :
    key item < modulus := by
  rw [circular.key_eq item member]
  exact Nat.mod_lt _ (Nat.zero_lt_of_lt circular.inside)

theorem Circular.eq_of_offset (circular : Circular start modulus key offset items) {item other : κ}
    (member : item ∈ items) (member' : other ∈ items) (same : offset item = offset other) : item = other :=
  List.inj_on_of_nodup_map circular.distinct member member' same

/-- Within one round a number names one place. -/
theorem place_of_key {place count : ℕ} (same : (start + place) % modulus = (start + count) % modulus)
    (lower : count ≤ place) (upper : place < modulus) : place = count := by
  have congruent : Nat.ModEq modulus place count := Nat.ModEq.add_left_cancel' start same
  have divides : modulus ∣ place - count := (Nat.modEq_iff_dvd' lower).mp congruent.symm
  have nothing : place - count = 0 := Nat.eq_zero_of_dvd_of_lt divides (by omega)
  omega

/-- Different places have different numbers. -/
theorem Circular.key_ne (circular : Circular start modulus key offset items) {item other : κ} (member : item ∈ items)
    (member' : other ∈ items) (different : offset item ≠ offset other) : key item ≠ key other := by
  intro same
  rw [circular.key_eq item member, circular.key_eq other member'] at same
  rcases Nat.le_total (offset other) (offset item) with le | le
  · exact different (place_of_key same le (circular.fits item member))
  · exact different (place_of_key same.symm le (circular.fits other member')).symm

/-- What is due is the item at the next place. -/
theorem Progress.offset_of_due (progress : Progress start modulus next key offset seen count state queue)
    (circular : Circular start modulus key offset items) {item : κ} (member : item ∈ items)
    (waiting : count ≤ offset item) (due : key item = next state) : offset item = count := by
  rw [circular.key_eq item member, progress.next_eq] at due
  exact place_of_key due waiting (circular.fits item member)

theorem Progress.due_of_offset (progress : Progress start modulus next key offset seen count state queue)
    (circular : Circular start modulus key offset items) {item : κ} (member : item ∈ items)
    (place : offset item = count) : key item = next state := by
  rw [circular.key_eq item member, progress.next_eq, place]

/-- The item at the next place is applied. -/
theorem Progress.advance (progress : Progress start modulus next key offset seen count state queue)
    (circular : Circular start modulus key offset items) (known : ∀ item ∈ seen, item ∈ items) {item : κ}
    (member : item ∈ items) (place : offset item = count) {rest seen' : List κ} {later : σ}
    (following : next later = (next state + 1) % modulus) (seen_iff : ∀ other, other ∈ seen' ↔ other ∈ seen ∨ other = item)
    (rest_iff : ∀ other, other ∈ rest ↔ other ∈ queue ∧ other ≠ item) (sorted : Waiting key 0 modulus rest) :
    Progress start modulus next key offset seen' (count + 1) later rest where
  next_eq := by rw [following, progress.next_eq, Nat.mod_add_mod, Nat.add_assoc]
  passed other below := by
    rcases Nat.lt_succ_iff_lt_or_eq.mp below with before | rfl
    · obtain ⟨earlier, memberSeen, same⟩ := progress.passed other before
      exact ⟨earlier, (seen_iff earlier).mpr (.inl memberSeen), same⟩
    · exact ⟨item, (seen_iff item).mpr (.inr rfl), place⟩
  queued other := by
    rw [rest_iff, progress.queued, seen_iff]
    constructor
    · rintro ⟨⟨memberSeen, waiting⟩, different⟩
      have notHere : offset other ≠ count := fun same =>
        different (circular.eq_of_offset (known other memberSeen) member (same.trans place.symm))
      exact ⟨.inl memberSeen, by omega⟩
    · rintro ⟨memberSeen | rfl, waiting⟩
      · refine ⟨⟨memberSeen, by omega⟩, ?_⟩
        rintro rfl
        omega
      · omega
  sorted := sorted

/-- Settling goes on as far as the head is due.  It never comes past an item that has one of
a later place in front of it. -/
theorem Progress.settle (circular : Circular start modulus key offset items) (known : ∀ item ∈ seen, item ∈ items)
    (applies : Applies modulus next key apply invariant items)
    (progress : Progress start modulus next key offset seen count state queue) (holds : invariant state) :
    ∃ count' state' queue', settle next key apply state queue = .ok (state', queue') ∧ invariant state' ∧
      count ≤ count' ∧ Progress start modulus next key offset seen count' state' queue' ∧
      ∀ blocked ∈ seen, ∀ front ∈ seen, key front < key blocked → offset blocked < offset front →
        count ≤ offset blocked → count' ≤ offset blocked := by
  induction queue generalizing count state with
  | nil => exact ⟨count, state, [], rfl, holds, Nat.le_refl _, progress, fun _ _ _ _ _ _ before => before⟩
  | cons head queue inductionHypothesis =>
    obtain ⟨memberSeen, waiting⟩ := (progress.queued head).mp (by simp)
    have member := known head memberSeen
    rw [Library.settle]
    by_cases due : key head = next state
    · obtain ⟨later, applied, holdsLater, following⟩ := applies state holds head member due
      have place := progress.offset_of_due circular member waiting due
      have apart : head ∉ queue := fun again =>
        Nat.lt_irrefl _ ((List.pairwise_cons.mp progress.sorted.sorted).1 head again)
      have advanced : Progress start modulus next key offset seen (count + 1) later queue := by
        refine progress.advance circular known member place following ?_ ?_ ?_
        · intro other
          constructor
          · exact .inl
          · rintro (memberOther | rfl)
            · exact memberOther
            · exact memberSeen
        · intro other
          rw [List.mem_cons]
          constructor
          · exact fun memberOther => ⟨.inr memberOther, fun same => apart (same ▸ memberOther)⟩
          · rintro ⟨same | memberOther, different⟩
            · exact absurd same different
            · exact memberOther
        · exact ⟨progress.sorted.tail.sorted, fun _ _ => Nat.zero_le _, progress.sorted.tail.below⟩
      obtain ⟨count', state', queue', settled, holds', grown, progress', stuck⟩ :=
        inductionHypothesis advanced holdsLater
      rw [if_pos due, applied, ok_bind]
      refine ⟨count', state', queue', settled, holds', by omega, progress', ?_⟩
      intro blocked memberBlocked front memberFront before after below
      refine stuck blocked memberBlocked front memberFront before after ?_
      -- The head is in front of everything, so it is not what is blocked.
      have notHead : offset blocked ≠ count := by
        intro same
        have isHead := circular.eq_of_offset (known blocked memberBlocked) member (same.trans place.symm)
        have inQueue := (progress.queued front).mpr ⟨memberFront, by omega⟩
        cases List.mem_cons.mp inQueue with
        | inl isFront =>
          rw [isFront, isHead] at before
          exact Nat.lt_irrefl _ before
        | inr behind =>
          have := (List.pairwise_cons.mp progress.sorted.sorted).1 front behind
          rw [isHead] at before
          omega
      omega
    · rw [if_neg due]
      exact ⟨count, state, head :: queue, rfl, holds, Nat.le_refl _, progress, fun _ _ _ _ _ _ before => before⟩

/-- An arrival is applied and the queue settles, or it waits. -/
theorem Progress.deliver (circular : Circular start modulus key offset items) (known : ∀ item ∈ seen, item ∈ items)
    (applies : Applies modulus next key apply invariant items)
    (progress : Progress start modulus next key offset seen count state queue) (holds : invariant state) {item : κ}
    (member : item ∈ items) (fresh : item ∉ seen) :
    ∃ count' state' queue', deliver next key apply (state, queue) item = .ok (state', queue') ∧ invariant state' ∧
      Progress start modulus next key offset (seen ++ [item]) count' state' queue' ∧
      (∀ blocked ∈ seen, ∀ front ∈ seen, key front < key blocked → offset blocked < offset front →
        count ≤ offset blocked → count' ≤ offset blocked) ∧
      (offset item = count ∧ count < count' ∧ (∀ head ∈ queue'.head?, key head ≠ next state') ∨
        offset item ≠ count ∧ count' = count) ∧ count ≤ offset item := by
  have waiting : count ≤ offset item := by
    by_contra before
    obtain ⟨other, memberSeen, same⟩ := progress.passed (offset item) (Nat.lt_of_not_le before)
    exact fresh (circular.eq_of_offset (known other memberSeen) member same ▸ memberSeen)
  have knownLater : ∀ other ∈ seen ++ [item], other ∈ items :=
    List.forall_mem_append.mpr ⟨known, List.forall_mem_singleton.mpr member⟩
  unfold Library.deliver
  by_cases due : key item = next state
  · obtain ⟨later, applied, holdsLater, following⟩ := applies state holds item member due
    have place := progress.offset_of_due circular member waiting due
    have advanced : Progress start modulus next key offset (seen ++ [item]) (count + 1) later queue := by
      refine progress.advance circular known member place following (by simp) ?_ progress.sorted
      intro other
      refine (and_iff_left_of_imp fun queuedOther => ?_).symm
      rintro rfl
      exact fresh ((progress.queued _).mp queuedOther).1
    obtain ⟨count', state', queue', settled, holds', grown, progress', stuck⟩ :=
      advanced.settle circular knownLater applies holdsLater
    refine ⟨count', state', queue', ?_, holds', progress', ?_, .inl ⟨place, grown, settle_stops settled⟩, waiting⟩
    · rw [if_pos due, applied, ok_bind, settled]
    · intro blocked memberBlocked front memberFront before after below
      refine stuck blocked (by simp [memberBlocked]) front (by simp [memberFront]) before after ?_
      have notItem : offset blocked ≠ count := fun same =>
        fresh (circular.eq_of_offset (known blocked memberBlocked) member (same.trans place.symm) ▸ memberBlocked)
      omega
  · have notPlace : offset item ≠ count := fun same => due (progress.due_of_offset circular member same)
    refine ⟨count, state, enqueue key item queue, if_neg due, holds, ⟨progress.next_eq, ?_, ?_, ?_⟩,
      fun _ _ _ _ _ _ below => below, .inr ⟨notPlace, rfl⟩, waiting⟩
    · intro place below
      obtain ⟨other, memberSeen, same⟩ := progress.passed place below
      exact ⟨other, by simp [memberSeen], same⟩
    · intro other
      rw [mem_enqueue, progress.queued, List.mem_append, List.mem_singleton]
      constructor
      · rintro (rfl | ⟨memberSeen, after⟩)
        · exact ⟨.inr rfl, waiting⟩
        · exact ⟨.inl memberSeen, after⟩
      · rintro ⟨memberSeen | rfl, after⟩
        · exact .inr ⟨memberSeen, after⟩
        · exact .inl rfl
    · refine progress.sorted.enqueue ?_ (Nat.zero_le _) (circular.key_lt member)
      intro other queuedOther
      have memberSeen := ((progress.queued other).mp queuedOther).1
      refine circular.key_ne (known other memberSeen) member fun same => fresh ?_
      exact circular.eq_of_offset (known other memberSeen) member same ▸ memberSeen

/-! ## Arrivals that block each other -/

/-- An item from before the wrap comes after a later one of these and after one from behind
the wrap. -/
def Overtaken (start : ℕ) (key : κ → ℕ) (arrival : List κ) : Prop :=
  ∃ seen item rest, arrival = seen ++ item :: rest ∧ start ≤ key item ∧
    (∃ blocked ∈ seen, key item < key blocked) ∧ ∃ front ∈ seen, key front < start

theorem overtaken_concat {arrival : List κ} {item : κ} :
    Overtaken start key (arrival ++ [item]) ↔ Overtaken start key arrival ∨
      start ≤ key item ∧ (∃ blocked ∈ arrival, key item < key blocked) ∧ ∃ front ∈ arrival, key front < start := by
  constructor
  · rintro ⟨seen, other, rest, spelled, after⟩
    cases rest using List.reverseRecOn with
    | nil =>
      obtain ⟨rfl, same⟩ := List.append_inj' spelled rfl
      cases same
      exact .inr after
    | append_singleton rest last =>
      rw [← List.cons_append, ← List.append_assoc] at spelled
      exact .inl ⟨seen, other, rest, (List.append_inj' spelled rfl).1, after⟩
  · rintro (⟨seen, other, rest, rfl, after⟩ | after)
    · exact ⟨seen, other, rest ++ [item], by simp, after⟩
    · exact ⟨arrival, item, [], rfl, after⟩

/-- A number is the place counted from the start, less one round behind the wrap. -/
theorem Circular.key_cases (circular : Circular start modulus key offset items) {item : κ} (member : item ∈ items) :
    start + offset item < modulus ∧ key item = start + offset item ∨
      key item < start ∧ key item + modulus = start + offset item := by
  have fits := circular.fits item member
  have inside := circular.inside
  have same := circular.key_eq item member
  by_cases wrapped : modulus ≤ start + offset item
  · rw [Nat.mod_eq_sub_mod wrapped, Nat.mod_eq_of_lt (by omega)] at same
    exact .inr ⟨by omega, by omega⟩
  · rw [Nat.mod_eq_of_lt (by omega)] at same
    exact .inl ⟨by omega, same⟩

/-- What is due and waits is behind a head that is not due: the head has a later place, so its
number has wrapped. -/
theorem Progress.overtakes (circular : Circular start modulus key offset items) {item : κ}
    (known : ∀ other ∈ seen ++ [item], other ∈ items)
    (progress : Progress start modulus next key offset (seen ++ [item]) count state queue) (passed : offset item < count)
    (stops : ∀ head ∈ queue.head?, key head ≠ next state) {other : κ} (queued : other ∈ queue)
    (place : offset other = count) :
    start ≤ key item ∧ (∃ blocked ∈ seen, key item < key blocked) ∧ ∃ front ∈ seen, key front < start := by
  have old : ∀ entry ∈ seen ++ [item], count ≤ offset entry → entry ∈ seen := by
    intro entry member waits
    cases List.mem_append.mp member with
    | inl old => exact old
    | inr new =>
      rw [List.mem_singleton.mp new] at waits
      omega
  cases queue with
  | nil => cases queued
  | cons head queue =>
    obtain ⟨seenOther, _⟩ := (progress.queued other).mp queued
    obtain ⟨seenHead, after⟩ := (progress.queued head).mp (by simp)
    have due := progress.due_of_offset circular (known other seenOther) place
    have notDue := stops head (by simp)
    have notPlace : offset head ≠ count := fun same =>
      notDue (progress.due_of_offset circular (known head seenHead) same)
    have inFront : key head < key other := by
      cases List.mem_cons.mp queued with
      | inl isHead => exact absurd (isHead ▸ due) notDue
      | inr inRest => exact (List.pairwise_cons.mp progress.sorted.sorted).1 other inRest
    have caseItem := circular.key_cases (known item (by simp))
    have caseOther := circular.key_cases (known other seenOther)
    have caseHead := circular.key_cases (known head seenHead)
    refine ⟨?_, ⟨other, old other seenOther place.ge, ?_⟩, ⟨head, old head seenHead after, ?_⟩⟩
    · omega
    · omega
    · omega

/-- What the arrivals so far have led to: nothing that is due waits, unless an item is
blocked for good. -/
theorem deliver_run (circular : Circular start modulus key offset items)
    (applies : Applies modulus next key apply invariant items) (holds : invariant state) (first : next state = start)
    {rest : List κ} (arrived : items = seen ++ rest) :
    ∃ count state' queue, seen.foldlM (Library.deliver next key apply) (state, []) = .ok (state', queue) ∧
      invariant state' ∧ Progress start modulus next key offset seen count state' queue ∧
      (¬ Overtaken start key seen → ∀ item ∈ queue, offset item ≠ count) ∧
      (Overtaken start key seen → ∃ blocked ∈ seen, ∃ front ∈ seen, key front < key blocked ∧
        offset blocked < offset front ∧ count ≤ offset blocked) := by
  induction seen using List.reverseRecOn generalizing rest with
  | nil =>
    have empty : Waiting key 0 modulus ([] : List κ) := ⟨.nil, by simp, by simp⟩
    refine ⟨0, state, [], rfl, holds, ⟨?_, by simp, by simp, empty⟩, by simp, ?_⟩
    · rw [first, Nat.add_zero, Nat.mod_eq_of_lt circular.inside]
    · rintro ⟨seen, item, rest, spelled, _⟩
      simp at spelled
  | append_singleton seen item inductionHypothesis =>
    rw [List.append_assoc] at arrived
    obtain ⟨count, middle, queue, ran, holdsMiddle, progress, free, stuck⟩ := inductionHypothesis arrived
    have known : ∀ other ∈ seen, other ∈ items := fun other memberOther => arrived ▸ List.mem_append_left _ memberOther
    have member : item ∈ items := by rw [arrived]; simp
    have fresh : item ∉ seen := by
      intro again
      have distinct := List.Nodup.of_map _ circular.distinct
      rw [arrived] at distinct
      exact (List.nodup_append.mp distinct).2.2 item again item (by simp) rfl
    obtain ⟨count', later, queue', delivered, holdsLater, progressLater, blocks, outcome, waiting⟩ :=
      progress.deliver circular known applies holdsMiddle member fresh
    have knownLater : ∀ other ∈ seen ++ [item], other ∈ items :=
      List.forall_mem_append.mpr ⟨known, List.forall_mem_singleton.mpr member⟩
    refine ⟨count', later, queue', ?_, holdsLater, progressLater, ?_, ?_⟩
    · rw [List.foldlM_append, ran, ok_bind, List.foldlM_cons, delivered, ok_bind]
      rfl
    · intro straight other queued same
      rw [overtaken_concat, not_or] at straight
      obtain ⟨seenOther, _⟩ := (progressLater.queued other).mp queued
      rcases outcome with ⟨place, grown, stops⟩ | ⟨notPlace, unchanged⟩
      · exact straight.2 (progressLater.overtakes circular knownLater (by omega) stops queued same)
      · rw [unchanged] at same
        have seenBefore : other ∈ seen := by
          cases List.mem_append.mp seenOther with
          | inl old => exact old
          | inr new => exact absurd (List.mem_singleton.mp new ▸ same) notPlace
        exact free straight.1 other ((progress.queued other).mpr ⟨seenBefore, same.ge⟩) same
    · intro overtaken
      rcases overtaken_concat.mp overtaken with before | ⟨unwrapped, ⟨blocked, seenBlocked, less⟩, ⟨front, seenFront, wrapped⟩⟩
      · obtain ⟨blocked, seenBlocked, front, seenFront, inFront, after, below⟩ := stuck before
        exact ⟨blocked, by simp [seenBlocked], front, by simp [seenFront], inFront, after,
          blocks blocked seenBlocked front seenFront inFront after below⟩
      · have caseItem := circular.key_cases member
        have caseBlocked := circular.key_cases (known blocked seenBlocked)
        have caseFront := circular.key_cases (known front seenFront)
        exact ⟨blocked, by simp [seenBlocked], front, by simp [seenFront], by omega, by omega,
          blocks blocked seenBlocked front seenFront (by omega) (by omega) (by omega)⟩

/-- Nothing that is due is ever left to wait, and in the end nothing waits, unless an arrival
is overtaken across the wrap. -/
theorem deliver_unstuck_iff (circular : Circular start modulus key offset items)
    (applies : Applies modulus next key apply invariant items) (holds : invariant state) (first : next state = start)
    (complete : ∀ item ∈ items, ∀ place < offset item, ∃ other ∈ items, offset other = place) :
    (∀ seen rest, items = seen ++ rest → ∃ later queue,
        seen.foldlM (Library.deliver next key apply) (state, []) = .ok (later, queue) ∧
          ∀ item ∈ queue, key item ≠ next later) ∧
      (∃ later, items.foldlM (Library.deliver next key apply) (state, []) = .ok (later, [])) ↔
      ¬ Overtaken start key items := by
  obtain ⟨count, last, queue, ran, _, progress, free, stuck⟩ :=
    deliver_run circular applies holds first (List.append_nil items).symm
  constructor
  · rintro ⟨_, later, ended⟩ overtaken
    obtain ⟨blocked, member, _, _, _, _, waits⟩ := stuck overtaken
    rw [ran] at ended
    cases ended
    have queued := (progress.queued blocked).mpr ⟨member, waits⟩
    cases queued
  · intro straight
    refine ⟨fun seen rest arrived => ?_, last, ?_⟩
    · obtain ⟨count, later, queue, ran, _, progress, free, _⟩ := deliver_run circular applies holds first arrived
      have known : ∀ item ∈ seen, item ∈ items := fun item member => arrived ▸ List.mem_append_left _ member
      have straightSoFar : ¬ Overtaken start key seen := by
        rintro ⟨before, item, after, spelled, crossing⟩
        exact straight ⟨before, item, after ++ rest, by rw [arrived, spelled]; simp, crossing⟩
      refine ⟨later, queue, ran, fun item queued due => free straightSoFar item queued ?_⟩
      obtain ⟨memberSeen, waiting⟩ := (progress.queued item).mp queued
      exact progress.offset_of_due circular (known item memberSeen) waiting due
    · have empty : queue = [] := by
        rw [List.eq_nil_iff_forall_not_mem]
        intro item queued
        obtain ⟨member, waiting⟩ := (progress.queued item).mp queued
        rcases Nat.eq_or_lt_of_le waiting with same | before
        · exact free straight item queued same.symm
        · obtain ⟨other, memberOther, place⟩ := complete item member count before
          exact free straight other ((progress.queued other).mpr ⟨memberOther, place.ge⟩) place
      rw [ran, empty]

end

end Memprof.Library
