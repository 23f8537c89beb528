import Memprof.Verified.Gathering

/-! # The profile of a traced program with threads

From end to end, like `Pipeline`, for any number of threads: their calls interleave, each
reports on its own channel, and the channels are read in any order.  Where no report overtakes
an earlier call about one of its addresses, the profile is that of the blocks that are left.
-/

namespace Memprof.Concurrent

open Library Blocks Accounting Serving Memprof.Sequential Threads Nested CallTree FlatProfile Pipeline RoundTrip
  Delivery

variable {layout : Layout}

/-! ## When everything has arrived -/

theorem say_advances : Advances awaited number say (2 ^ 32 - 1) := by
  rintro ⟨contents, seqno⟩ command later due below said
  simp only [awaited] at due ⊢
  have counted : later.2 = seqno + 1 := by
    unfold say at said
    cases operation : command.info.operation <;> rw [operation] at said <;> cases said <;> rfl
  rw [counted, UInt32.toNat_add]
  simp only [UInt32.reduceToNat]
  omega

/-- The numbers of messages, from `first` on without a gap. -/
def Counted (first : ℕ) (all : List (Message layout)) : Prop :=
  all.map (·.info.seqno) = (List.range' first all.length).map UInt32.ofNat

theorem counted_cons {first : ℕ} {message : Message layout} {all : List (Message layout)} :
    Counted first (message :: all) ↔ message.info.seqno = .ofNat first ∧ Counted (first + 1) all := by
  rw [Counted, List.length_cons, List.range'_succ, List.map_cons, List.map_cons, List.cons.injEq, Counted]

theorem counted_concat {all : List (Message layout)} {message : Message layout} (counted : Counted 0 all)
    (next : message.info.seqno = .ofNat all.length) : Counted 0 (all ++ [message]) := by
  rw [Counted, List.map_append, counted, List.length_append, List.length_singleton, List.range'_concat,
    List.map_append, List.map_singleton, List.map_singleton, next, Nat.zero_add, Nat.one_mul]

theorem counted_append {first : ℕ} {left right : List (Message layout)} :
    Counted first (left ++ right) ↔ Counted first left ∧ Counted (first + left.length) right := by
  induction left generalizing first with
  | nil => simp [Counted]
  | cons message left inductionHypothesis =>
    rw [List.cons_append, counted_cons, counted_cons, inductionHypothesis, and_assoc, List.length_cons,
      Nat.add_assoc, Nat.add_comm 1]

theorem Counted.range {first : ℕ} {all : List (Message layout)} (counted : Counted first all)
    (few : first + all.length < 2 ^ 32) :
    (all.map fun message => message.info.seqno.toNat) = List.range' first all.length := by
  have same : all.map (fun message => message.info.seqno.toNat) = (all.map (·.info.seqno)).map UInt32.toNat := by
    rw [List.map_map]
    rfl
  rw [same, counted, List.map_map]
  refine (List.map_congr_left fun i member => ?_).trans (List.map_id _)
  rw [List.mem_range'_1] at member
  show (UInt32.ofNat i).toNat = i
  rw [UInt32.toNat_ofNat']
  omega

theorem Counted.within {first : ℕ} {all : List (Message layout)} (counted : Counted first all)
    (few : first + all.length < 2 ^ 32) {message : Message layout} (member : message ∈ all) :
    first ≤ message.info.seqno.toNat ∧ message.info.seqno.toNat < first + all.length := by
  rw [← List.mem_range'_1, ← counted.range few]
  exact List.mem_map_of_mem member

/-- Commands that arrive in the order of their numbers, each of which the table is told. -/
theorem sequenced_due {stashes : Store StackStash} {commands : List Command} {all : List (Message layout)}
    (brings : List.Forall₂ (Brings stashes) commands all) (fits : ∀ message ∈ all, message.Fits)
    {tell : Known → Message layout → Known}
    (told : ∀ message ∈ all, ∀ contents known stack, Tells stashes contents known →
      StackTrace stashes stack message.frames →
      Tells stashes (contents.apply (message.info.seqno + 1) message.info stack) (tell known message))
    {contents : Contents} {known : Known} {first : ℕ} (counted : Counted first all)
    (tells : Tells stashes contents known) :
    ∃ contents', commands.foldlM (deliver awaited number say) ((contents, .ofNat first), []) =
        .ok ((contents', .ofNat (first + all.length)), []) ∧
      Tells stashes contents' (all.foldl tell known) := by
  induction brings generalizing contents known first with
  | nil => exact ⟨contents, rfl, tells⟩
  | cons brought rest inductionHypothesis =>
    rename_i command message commands all
    obtain ⟨due, countedRest⟩ := counted_cons.mp counted
    have reported : IsReport command.info.operation := brought.1 ▸ (fits message (by simp)).isReport
    have isDue : number command = awaited (contents, .ofNat first) := by rw [number, brought.1, due]; rfl
    have next : (UInt32.ofNat first + 1 : UInt32) = .ofNat (first + 1) := by rw [UInt32.ofNat_add]; rfl
    have delivered : deliver awaited number say ((contents, .ofNat first), []) command =
        .ok ((contents.apply (.ofNat first + 1) command.info command.stack, .ofNat (first + 1)), []) := by
      rw [deliver, if_pos isDue, say_of_report reported, next]
      rfl
    have tellsNext := told message (by simp) contents known command.stack tells brought.2
    rw [due, ← brought.1] at tellsNext
    obtain ⟨contents', ran, tellsLater⟩ := inductionHypothesis (fun other member => fits other (by simp [member]))
      (fun other member => told other (by simp [member])) countedRest tellsNext
    refine ⟨contents', ?_, tellsLater⟩
    rw [List.foldlM_cons, delivered, ok_bind, ran, List.length_cons, Nat.add_assoc, Nat.add_comm 1]

theorem numbers_of_brings {stashes : Store StackStash} {commands : List Command} {messages : List (Message layout)}
    (brings : List.Forall₂ (Brings stashes) commands messages) :
    commands.map number = messages.map (·.info.seqno.toNat) := by
  refine List.forall₂_eq_eq_eq ▸ (List.forall₂_map_left_iff.mpr (List.forall₂_map_right_iff.mpr ?_))
  exact brings.imp fun command message same => by rw [number, same.1]

/-- Whatever the order in which they came, they have been put in order. -/
theorem Gathers.sequenced {root : ProcId} {told all : List (Message layout)} {world : World}
    (gathers : Gathers root told world) (whole : told.Perm all) (counted : Counted 0 all)
    (few : all.length < 2 ^ 32) :
    ∃ process commands, world.process root = .ok process ∧ List.Forall₂ (Brings world.stashes) commands all ∧
      Memprof.Concurrent.sequenced commands =
        .ok ((contents world.blocks process.table, process.seqno), process.commandQueue) := by
  obtain ⟨process, arrived, found, _, brings, sequence⟩ := gathers.process
  obtain ⟨commands, permuted, bringsAll⟩ :
      Relation.Comp List.Perm (List.Forall₂ (Brings world.stashes)) arrived all := by
    rw [← List.forall₂_comp_perm_eq_perm_comp_forall₂]
    exact ⟨told, brings, whole⟩
  have range : commands.map number = List.range' 0 all.length := by
    rw [← counted.range (by simpa using few), numbers_of_brings bringsAll]
  have inRange : ∀ command ∈ commands, number command < 2 ^ 32 - 1 := by
    intro command member
    have listed := List.mem_map_of_mem (f := number) member
    rw [range, List.mem_range'_1] at listed
    omega
  have same : Memprof.Concurrent.sequenced arrived = Memprof.Concurrent.sequenced commands :=
    deliver_perm say_advances _ permuted (by rw [range]; exact List.nodup_range') (fun _ _ => Nat.zero_le _) inRange
  exact ⟨process, commands, found, bringsAll, by rw [← same, sequence]⟩

/-- The messages with the first numbers are the first messages. -/
theorem Counted.first_perm {taken before after : List (Message layout)} (counted : Counted 0 (before ++ after))
    (few : (before ++ after).length < 2 ^ 32) (listed : ∀ message ∈ taken, message ∈ before ++ after)
    (range : taken.map (·.info.seqno.toNat) = List.range' 0 before.length) : taken.Perm before := by
  have subset : taken ⊆ before := by
    intro message member
    have early := List.mem_map_of_mem (f := fun message : Message layout => message.info.seqno.toNat) member
    rw [range, List.mem_range'_1] at early
    refine (List.mem_append.mp (listed message member)).resolve_right fun late => ?_
    have late := (counted_append.mp counted).2.within (by rw [Nat.zero_add, ← List.length_append]; exact few) late
    omega
  have distinct : taken.Nodup := by
    refine List.Nodup.of_map (·.info.seqno.toNat) ?_
    rw [range]
    exact List.nodup_range'
  have size := congrArg List.length range
  rw [List.length_map, List.length_range'] at size
  exact (List.subperm_of_subset distinct subset).perm_of_length_le size.ge

/-- When the next number is that of the first message of `after`, all those of `before` have been taken. -/
theorem Gathers.taken {root : ProcId} {told waiting before after : List (Message layout)} {world : World}
    (gathers : Gathers root told world) (whole : (told ++ waiting).Perm (before ++ after))
    (counted : Counted 0 (before ++ after)) (few : (before ++ after).length < 2 ^ 32) {process : MPProcess}
    (found : world.process root = .ok process) (due : process.seqno = .ofNat before.length) :
    ∃ taken arrived, taken.Perm before ∧ List.Forall₂ (Brings world.stashes) arrived taken ∧
      Memprof.Concurrent.sequenced arrived = .ok ((contents world.blocks process.table, process.seqno), []) := by
  obtain ⟨_, arrived, found', _, brings, sequence⟩ := gathers.process
  cases found.symm.trans found'
  have range := counted.range (by omega)
  have distinctAll : ((told ++ waiting).map (·.info.seqno.toNat)).Nodup := by
    rw [(whole.map (·.info.seqno.toNat)).nodup_iff, range]
    exact List.nodup_range'
  rw [List.map_append] at distinctAll
  have distinct := (List.nodup_append.mp distinctAll).1
  have listed : ∀ message ∈ told, message ∈ before ++ after := fun message member =>
    whole.mem_iff.mp (List.mem_append_left _ member)
  have inRange : ∀ command ∈ arrived, number command < 2 ^ 32 - 1 := by
    intro command member
    have numbered := List.mem_map_of_mem (f := number) member
    rw [numbers_of_brings brings] at numbered
    obtain ⟨message, member, same⟩ := List.mem_map.mp numbered
    have within := counted.within (by omega) (listed message member)
    omega
  obtain ⟨commands, permuted, ran, range', next⟩ := delivered_taken say_advances
    (by rwa [numbers_of_brings brings]) (fun _ _ => Nat.zero_le _) inRange sequence
  have size : commands.length = before.length := by
    have next : process.seqno.toNat = 0 + commands.length := next
    rw [due, UInt32.toNat_ofNat'] at next
    rw [List.length_append] at few
    omega
  -- The messages of what has been taken.
  obtain ⟨messages, bringsAll, permutedAll⟩ :
      Relation.Comp (List.Forall₂ (Brings world.stashes)) List.Perm (commands ++ process.commandQueue) told := by
    rw [List.forall₂_comp_perm_eq_perm_comp_forall₂]
    exact ⟨arrived, permuted.symm, brings⟩
  have bringsTaken := (List.forall₂_take_append messages commands process.commandQueue bringsAll.flip).flip
  have rangeTaken : (messages.take commands.length).map (·.info.seqno.toNat) = List.range' 0 before.length := by
    rw [← numbers_of_brings bringsTaken, range', size]
    rfl
  have listedTaken : ∀ message ∈ messages.take commands.length, message ∈ before ++ after := fun message member =>
    listed message (permutedAll.mem_iff.mp (List.mem_of_mem_take member))
  exact ⟨messages.take commands.length, commands, counted.first_perm few listedTaken rangeTaken, bringsTaken, ran⟩

/-- The table says what the messages tell. -/
theorem Gathers.tells {root : ProcId} {told all : List (Message layout)} {world : World}
    (gathers : Gathers root told world) (whole : told.Perm all) (counted : Counted 0 all)
    (few : all.length < 2 ^ 32) (fits : ∀ message ∈ all, message.Fits) {tell : Known → Message layout → Known}
    (step : ∀ message ∈ all, ∀ contents known stack, Tells world.stashes contents known →
      StackTrace world.stashes stack message.frames →
      Tells world.stashes (contents.apply (message.info.seqno + 1) message.info stack) (tell known message)) :
    ∃ process, world.process root = .ok process ∧ process.commandQueue = [] ∧
      Tells world.stashes (contents world.blocks process.table) (all.foldl tell fun _ => none) := by
  obtain ⟨process, commands, found, brings, sequence⟩ := gathers.sequenced whole counted few
  have empty : Tells world.stashes (fun _ => none) (fun _ => none) := fun _ => .none
  obtain ⟨contents', ran, tells⟩ := sequenced_due brings fits step counted empty
  have both : Memprof.Concurrent.sequenced commands = .ok ((contents', .ofNat (0 + all.length)), []) := ran
  rw [sequence] at both
  simp only [Except.ok.injEq, Prod.mk.injEq] at both
  obtain ⟨⟨table, _⟩, queue⟩ := both
  exact ⟨process, found, queue, by rwa [table]⟩

theorem Numbered.counted {first : ℕ} {all : List (Message layout)} (numbered : Numbered (.ofNat first) all) :
    Counted first all := by
  induction all generalizing first with
  | nil => rfl
  | cons message all inductionHypothesis =>
    obtain ⟨⟨_, _, due⟩, rest⟩ := numbered
    refine counted_cons.mpr ⟨due, inductionHypothesis ?_⟩
    rw [UInt32.ofNat_add]
    exact rest

theorem Numbered.taken {seqno : UInt32} {all : List (Message layout)} (numbered : Numbered seqno all) :
    ∀ message ∈ all, IsAllocation message.info ∨ message.info.operation = .exit := by
  induction all generalizing seqno with
  | nil => simp
  | cons first all inductionHypothesis =>
    intro message member
    rcases List.mem_cons.mp member with rfl | member
    · exact numbered.1.2.1
    · exact inductionHypothesis numbered.2 message member

/-- Reports of allocations. -/
theorem tells_tell {stashes : Store StackStash} {message : Message layout}
    (taken : IsAllocation message.info ∨ message.info.operation = .exit) (contents : Contents) (known : Known)
    (stack : StackPtr) (tells : Tells stashes contents known) (traced : StackTrace stashes stack message.frames) :
    Tells stashes (contents.apply (message.info.seqno + 1) message.info stack) (known.tell message) := by
  cases taken with
  | inl allocation =>
    rw [Known.tell, if_neg (not_exit_of_allocation allocation), apply_of_allocation allocation]
    exact tells.report message.info traced
  | inr exit =>
    rw [Contents.apply, exit, Known.tell, if_pos exit]
    exact tells

/-! ## Reports that overtake others -/

theorem remove_apply (known : Known) (oldPtr address : Addr) :
    known.remove oldPtr address = if oldPtr ≠ 0 ∧ address = oldPtr then none else known address := by
  unfold Known.remove
  by_cases null : oldPtr = 0
  · rw [if_pos null, if_neg fun named => named.1 null]
  · rw [if_neg null, Function.update_apply]
    simp [null]

theorem report_apply (known : Known) (info : MIInfo) (frames : List Addr) (address : Addr) :
    known.report info frames address =
      if (info.newPtr ≠ 0 ∧ known.remove info.oldPtr info.newPtr = none) ∧ address = info.newPtr then
        some (info.size.toUInt32, frames)
      else known.remove info.oldPtr address := by
  unfold Known.report Known.insert
  by_cases fresh : info.newPtr ≠ 0 ∧ known.remove info.oldPtr info.newPtr = none
  · rw [if_pos fresh, Function.update_apply]
    simp [fresh]
  · rw [if_neg fresh, if_neg fun both => fresh both.1]

/-- A report tells nothing about the addresses of another call. -/
theorem report_other {known : Known} {info : MIInfo} {frames : List Addr} {address : Addr}
    (other : address ∉ addresses info) : known.report info frames address = known address := by
  by_cases null : address = 0
  · subst null
    have notNew : ¬ ((info.newPtr ≠ 0 ∧ known.remove info.oldPtr info.newPtr = none) ∧ (0 : Addr) = info.newPtr) :=
      fun both => both.1.1 both.2.symm
    have notOld : ¬ (info.oldPtr ≠ 0 ∧ (0 : Addr) = info.oldPtr) := fun both => both.1 both.2.symm
    rw [report_apply, if_neg notNew, remove_apply, if_neg notOld]
  · simp only [addresses, Finset.mem_erase, Finset.mem_insert, Finset.mem_singleton, not_and, not_or] at other
    obtain ⟨notOld, notNew⟩ := other null
    rw [report_apply, if_neg fun both => notNew both.2, remove_apply, if_neg fun both => notOld both.2]

/-- What a report tells about its own addresses depends on these only. -/
theorem report_own {known known' : Known} {info : MIInfo}
    (same : ∀ address ∈ addresses info, known address = known' address)
    (frames : List Addr) {address : Addr} (own : address ∈ addresses info) :
    known.report info frames address = known'.report info frames address := by
  have removed : ∀ other ∈ addresses info, known.remove info.oldPtr other = known'.remove info.oldPtr other := by
    intro other member
    rw [remove_apply, remove_apply, same other member]
  rw [report_apply, report_apply, removed address own]
  by_cases null : info.newPtr = 0
  · simp [null]
  · rw [removed info.newPtr (by simp [addresses, null])]

/-- Reports about different addresses commute. -/
theorem report_comm {first second : MIInfo} (apart : Disjoint (addresses first) (addresses second)) (known : Known)
    (frames frames' : List Addr) :
    (known.report first frames).report second frames' = (known.report second frames').report first frames := by
  have others : ∀ known' : Known, ∀ address ∈ addresses first,
      known'.report second frames' address = known' address :=
    fun known' address own => report_other (Finset.disjoint_left.mp apart own)
  have others' : ∀ known' : Known, ∀ address ∈ addresses second,
      known'.report first frames address = known' address :=
    fun known' address own => report_other (Finset.disjoint_right.mp apart own)
  funext address
  by_cases own : address ∈ addresses first
  · rw [others _ address own]
    exact (report_own (fun other member => others known other member) frames own).symm
  · rw [@report_other _ first frames address own]
    by_cases own' : address ∈ addresses second
    · exact report_own (fun other member => others' known other member) frames' own'
    · rw [report_other own', report_other own', report_other own]

theorem reports_overtake {before after : List (Origin layout)} {origin : Origin layout}
    (apart : ∀ other ∈ before, Disjoint (addresses other.call.info) (addresses origin.call.info)) (known : Known) :
    reports known (before ++ origin :: after) =
      reports (known.report origin.call.info origin.frames) (before ++ after) := by
  induction before generalizing known with
  | nil => rfl
  | cons other before inductionHypothesis =>
    simp only [reports, List.cons_append, List.foldl_cons] at inductionHypothesis ⊢
    rw [inductionHypothesis (fun member listed => apart member (by simp [listed])),
      report_comm (apart other (by simp))]

/-! ## The program -/

section Writing

variable {τ : Type} [DecidableEq τ]

/-- A report that overtakes no earlier call about one of its addresses. -/
def Ordered (program : Program layout τ) : Event layout τ → Prop
  | .report thread => ∀ origin ∈ program.unreported thread, ∀ other ∈ program.earlier thread,
      Disjoint (addresses other.call.info) (addresses origin.call.info)
  | .call _ _ | .exit _ _ => True

def OrderedRun (program : Program layout τ) : List (Event layout τ) → Prop
  | [] => True
  | event :: events => Ordered program event ∧ ∀ later ∈ program.step event, OrderedRun later events

instance (program : Program layout τ) : (event : Event layout τ) → Decidable (Ordered program event)
  | .report thread => inferInstanceAs (Decidable (∀ origin ∈ program.unreported thread,
      ∀ other ∈ program.earlier thread, Disjoint (addresses other.call.info) (addresses origin.call.info)))
  | .call _ _ | .exit _ _ => inferInstanceAs (Decidable True)

instance decidableOrderedRun :
    (program : Program layout τ) → (events : List (Event layout τ)) → Decidable (OrderedRun program events)
  | _, [] => inferInstanceAs (Decidable True)
  | program, event :: events =>
    let _ := fun later => decidableOrderedRun later events
    inferInstanceAs (Decidable (Ordered program event ∧ ∀ later ∈ program.step event, OrderedRun later events))

/-- What has been sent, in the order of the counter and with the thread of each message. -/
structure Consistent (threads : List τ) (program : Program layout τ) (sent : List (τ × Message layout))
    (lost : Finset Addr) : Prop where
  knows : Knows (reports ((sent.map Prod.snd).foldl Known.tell fun _ => none) (program.pending.map Prod.snd))
    program.heap lost
  numbered : Numbered 0 (sent.map Prod.snd)
  counted : program.seqno = .ofNat sent.length
  streams : ∀ thread, messages (program.calls thread) (program.exit thread) =
    (sent.filter (·.1 = thread)).map Prod.snd
  few : ∀ thread, ∀ call ∈ program.calls thread, call.frames.length ≤ 20000
  running : ∀ call ∈ program.pending, program.exit call.1 = none
  senders : ∀ entry ∈ sent, entry.1 ∈ threads

theorem consistent_start (threads : List τ) : Consistent threads ({} : Program layout τ) [] ∅ where
  knows := knows_start
  numbered := trivial
  counted := rfl
  streams _ := rfl
  few := by simp
  running := by simp
  senders := by simp

theorem numbered_append {seqno : UInt32} {left right : List (Message layout)} :
    Numbered seqno (left ++ right) ↔ Numbered seqno left ∧ Numbered (seqno + .ofNat left.length) right := by
  induction left generalizing seqno with
  | nil => simp [Numbered]
  | cons message left inductionHypothesis =>
    simp only [List.cons_append, Numbered, inductionHypothesis, List.length_cons, add_one_add_length, and_assoc]

/-- An unreported call cuts the calls into those before it and those after it. -/
theorem unreported_cut {program : Program layout τ} {thread : τ} {origin : Origin layout}
    (waiting : program.unreported thread = some origin) :
    ∃ before after, program.pending = before ++ (thread, origin) :: after ∧
      program.earlier thread = before.map Prod.snd ∧
      program.pending.eraseP (fun call => call.1 = thread) = before ++ after := by
  obtain ⟨⟨_, _⟩, found, rfl⟩ := Option.map_eq_some_iff.mp waiting
  obtain ⟨same, before, after, split, others⟩ := List.find?_eq_some_iff_append.mp found
  have same : _ = thread := of_decide_eq_true same
  subst same
  refine ⟨before, after, split, ?_, ?_⟩
  · rw [Program.earlier, split, List.takeWhile_append_of_pos (by simpa using others)]
    simp
  · rw [split, List.eraseP_append_right _ (by simpa using others)]
    simp

theorem Consistent.call {threads : List τ} {program : Program layout τ} {sent : List (τ × Message layout)}
    {lost : Finset Addr} (consistent : Consistent threads program sent lost) {thread : τ} {origin : Origin layout}
    (runs : program.Runs thread) (possible : origin.call.Possible program.heap.live) :
    Consistent threads
      { program with heap := origin.effect program.heap, pending := program.pending ++ [(thread, origin)] } sent
      (strand lost origin.call) where
  knows := by
    simp only [List.map_append, reports, List.foldl_append]
    exact consistent.knows.step possible
  numbered := consistent.numbered
  counted := consistent.counted
  streams := consistent.streams
  few := consistent.few
  running call member := by
    rcases List.mem_append.mp member with old | new
    · exact consistent.running call old
    · rw [List.mem_singleton.mp new]
      exact runs.2
  senders := consistent.senders

/-- A message more of one thread. -/
theorem streams_append {sent : List (τ × Message layout)} {thread : τ} {message : Message layout} (other : τ) :
    ((sent ++ [(thread, message)]).filter (·.1 = other)).map Prod.snd =
      (sent.filter (·.1 = other)).map Prod.snd ++ if thread = other then [message] else [] := by
  rw [List.filter_append, List.map_append]
  by_cases same : thread = other
  · simp [same]
  · simp [same]

theorem Consistent.report {threads : List τ} {program : Program layout τ} {sent : List (τ × Message layout)}
    {lost : Finset Addr} (consistent : Consistent threads program sent lost) {thread : τ} (known : thread ∈ threads)
    {origin : Origin layout} (waiting : program.unreported thread = some origin)
    (apart : ∀ other ∈ program.earlier thread, Disjoint (addresses other.call.info) (addresses origin.call.info))
    (few : origin.frames.length ≤ 20000) :
    Consistent threads
      { program with
        pending := program.pending.eraseP fun call => call.1 = thread
        seqno := program.seqno + 1
        calls := Function.update program.calls thread (program.calls thread ++ [origin.stackCall program.seqno]) }
      (sent ++ [(thread, callMessage (origin.stackCall program.seqno))]) lost := by
  obtain ⟨before, after, split, earlier, erased⟩ := unreported_cut waiting
  have running : program.exit thread = none := consistent.running (thread, origin) (by simp [split])
  have allocation := origin.call.allocation
  refine ⟨?_, ?_, ?_, fun other => ?_, fun other call member => ?_, fun call member => ?_, fun entry member => ?_⟩
  · -- Those made before it and not reported yet are about other addresses.
    have apart : ∀ other ∈ before.map Prod.snd,
        Disjoint (addresses other.call.info) (addresses origin.call.info) := by
      rwa [← earlier]
    have knows := consistent.knows
    rw [split, List.map_append, List.map_cons, reports_overtake apart] at knows
    simp only [erased, List.map_append, List.foldl_append, List.map_cons, List.map_nil, List.foldl_cons,
      List.foldl_nil]
    rw [tell_callMessage]
    exact knows
  · rw [List.map_append, numbered_append, List.length_map, UInt32.zero_add, ← consistent.counted]
    refine ⟨consistent.numbered, ⟨⟨.inl ⟨carriesStack_of_allocation allocation, ?_⟩, .inl allocation, rfl⟩, trivial⟩⟩
    show (UInt32.ofNat origin.frames.length).toNat = origin.frames.length
    rw [UInt32.toNat_ofNat']
    omega
  · rw [List.length_append, List.length_singleton, UInt32.ofNat_add, ← consistent.counted]
    rfl
  · rw [streams_append, ← consistent.streams]
    by_cases own : other = thread
    · subst own
      simp [messages, running]
    · simp [Function.update_of_ne own, Ne.symm own]
  · by_cases own : other = thread
    · subst own
      simp only [Function.update_self] at member
      rcases List.mem_append.mp member with old | new
      · exact consistent.few other call old
      · rw [List.mem_singleton.mp new]
        exact few
    · simp only [Function.update_of_ne own] at member
      exact consistent.few other call member
  · exact consistent.running call (List.mem_of_mem_eraseP member)
  · rcases List.mem_append.mp member with old | new
    · exact consistent.senders entry old
    · rw [List.mem_singleton.mp new]
      exact known

theorem Consistent.exit {threads : List τ} {program : Program layout τ} {sent : List (τ × Message layout)}
    {lost : Finset Addr} (consistent : Consistent threads program sent lost) {thread : τ} (known : thread ∈ threads)
    (runs : program.Runs thread) (pid : Pid) :
    Consistent threads
      { program with
        seqno := program.seqno + 1
        exit := Function.update program.exit thread (some (pid, program.seqno)) }
      (sent ++ [(thread, exitMessage (pid, program.seqno))]) lost where
  knows := by
    simp only [List.map_append, List.foldl_append, List.map_cons, List.map_nil, List.foldl_cons, List.foldl_nil]
    rw [Known.tell, if_pos (show (exitMessage (pid, program.seqno) : Message layout).info.operation = .exit from rfl)]
    exact consistent.knows
  numbered := by
    rw [List.map_append, numbered_append, List.length_map, UInt32.zero_add, ← consistent.counted]
    exact ⟨consistent.numbered, ⟨⟨.inr ⟨rfl, rfl⟩, .inr rfl, rfl⟩, trivial⟩⟩
  counted := by
    rw [List.length_append, List.length_singleton, UInt32.ofNat_add, ← consistent.counted]
    rfl
  streams other := by
    rw [streams_append, ← consistent.streams]
    by_cases own : other = thread
    · subst own
      simp [messages, runs.2]
    · simp [Function.update_of_ne own, Ne.symm own]
  few := consistent.few
  running call member := by
    have running := consistent.running call member
    by_cases own : call.1 = thread
    · -- A thread that has reported what it has done has nothing pending.
      have idle := runs.1
      rw [Program.unreported, Option.map_eq_none_iff, List.find?_eq_none] at idle
      exact absurd (idle call member) (by simp [own])
    · simp only [Function.update_of_ne own]
      exact running
  senders entry member := by
    rcases List.mem_append.mp member with old | new
    · exact consistent.senders entry old
    · rw [List.mem_singleton.mp new]
      exact known

/-- The calls of a run, in the order of the real allocator. -/
def origins (events : List (Event layout τ)) : List (Origin layout) := events.filterMap Event.origin

theorem Consistent.step {threads : List τ} {program later : Program layout τ} {sent : List (τ × Message layout)}
    {lost : Finset Addr} (consistent : Consistent threads program sent lost) {event : Event layout τ}
    (known : event.thread ∈ threads) (ordered : Ordered program event) (taken : program.step event = some later) :
    ∃ more, Consistent threads later (sent ++ more) (((origins [event]).map Origin.call).foldl strand lost) ∧
      later.heap = effects program.heap (origins [event]) ∧ more.length ≤ 1 := by
  cases event with
  | call thread origin =>
    simp only [Program.step] at taken
    split at taken
    next made =>
      cases taken
      exact ⟨[], by rw [List.append_nil]; exact consistent.call made.1 made.2, rfl, Nat.zero_le _⟩
    next => cases taken
  | report thread =>
    obtain ⟨origin, waiting, taken⟩ := Option.bind_eq_some_iff.mp taken
    split at taken
    next few =>
      cases taken
      exact ⟨_, consistent.report known waiting (ordered origin waiting) few, rfl, Nat.le_refl _⟩
    next => cases taken
  | exit thread pid =>
    simp only [Program.step] at taken
    split at taken
    next runs =>
      cases taken
      exact ⟨_, consistent.exit known runs pid, rfl, Nat.le_refl _⟩
    next => cases taken

theorem Consistent.run {threads : List τ} {program later : Program layout τ} {sent : List (τ × Message layout)}
    {lost : Finset Addr} (consistent : Consistent threads program sent lost) {events : List (Event layout τ)}
    (known : ∀ event ∈ events, event.thread ∈ threads) (ordered : OrderedRun program events)
    (ran : program.run events = some later) :
    ∃ more, Consistent threads later (sent ++ more) (((origins events).map Origin.call).foldl strand lost) ∧
      later.heap = effects program.heap (origins events) ∧ more.length ≤ events.length := by
  induction events generalizing program sent lost with
  | nil =>
    cases ran
    exact ⟨[], by rwa [List.append_nil], rfl, Nat.le_refl _⟩
  | cons event events inductionHypothesis =>
    obtain ⟨next, taken, ran⟩ := Option.bind_eq_some_iff.mp ran
    obtain ⟨next', consistentNext, heapNext, few⟩ := consistent.step (known event (by simp)) ordered.1 taken
    obtain ⟨more, consistentLater, heapLater, fewLater⟩ := inductionHypothesis consistentNext
      (fun other member => known other (by simp [member])) (ordered.2 next taken) ran
    have split : origins (event :: events) = origins [event] ++ origins events := by
      rw [origins, origins, origins, ← List.filterMap_append]
      rfl
    refine ⟨next' ++ more, ?_, ?_, by rw [List.length_append, List.length_cons]; omega⟩
    · rwa [split, List.map_append, List.foldl_append, ← List.append_assoc]
    · rw [heapLater, heapNext, split, effects, effects, effects, List.foldl_append]

/-- The messages of all threads are the messages of each. -/
theorem streams_perm {threads : List τ} (distinct : threads.Nodup) {α : Type} {sent : List (τ × α)}
    (senders : ∀ entry ∈ sent, entry.1 ∈ threads) :
    ((threads.map fun thread => (sent.filter (·.1 = thread)).map Prod.snd).flatten).Perm (sent.map Prod.snd) := by
  induction threads generalizing sent with
  | nil =>
    cases sent with
    | nil => exact .refl _
    | cons entry sent => exact absurd (senders entry (by simp)) List.not_mem_nil
  | cons thread threads inductionHypothesis =>
    obtain ⟨absent, distinct⟩ := List.nodup_cons.mp distinct
    have others := @inductionHypothesis distinct (sent.filter (·.1 ≠ thread)) fun entry member => by
      obtain ⟨member, other⟩ := List.mem_filter.mp member
      exact (List.mem_cons.mp (senders entry member)).resolve_left (of_decide_eq_true other)
    have same : (threads.map fun other => ((sent.filter (·.1 ≠ thread)).filter (·.1 = other)).map Prod.snd) =
        threads.map fun other => (sent.filter (·.1 = other)).map Prod.snd := by
      refine List.map_congr_left fun other member => ?_
      rw [List.filter_filter]
      congr 1
      refine List.filter_congr fun entry _ => ?_
      have apart : other ≠ thread := fun same => absent (same ▸ member)
      by_cases here : entry.1 = other
      · simp [here, apart]
      · simp [here]
    rw [same] at others
    rw [List.map_cons, List.flatten_cons]
    refine (others.append_left _).trans ?_
    rw [← List.map_append]
    have whole := List.filter_append_perm (fun entry : τ × α => decide (entry.1 = thread)) sent
    simp only [← decide_not] at whole
    exact whole.map Prod.snd

/-- What the threads write, each on its channel, and all of it in one order. -/
structure Streams (threads : List τ) (calls : τ → List (StackCall layout)) (exit : τ → Option (Pid × UInt32))
    (sent : List (τ × Message layout)) : Prop where
  divided : ∀ thread, (messages (calls thread) (exit thread)).Perm ((sent.filter (·.1 = thread)).map Prod.snd)
  few : ∀ thread, ∀ call ∈ calls thread, call.frames.length ≤ 20000
  fits : ∀ message ∈ sent.map Prod.snd, message.Fits
  senders : ∀ entry ∈ sent, entry.1 ∈ threads

theorem Streams.holds {threads : List τ} {calls : τ → List (StackCall layout)} {exit : τ → Option (Pid × UInt32)}
    {sent : List (τ × Message layout)} (streams : Streams threads calls exit sent) {results : τ → List SendResult}
    (harmless : ∀ thread, ∀ result ∈ results thread, Harmless result) (watch : τ → Watch) (writers : List τ) :
    List.Forall₂ Holds
      (writers.map fun thread =>
        ⟨watch thread, (writeChannel layout (calls thread) (exit thread) (results thread)).1.sent⟩)
      (writers.map fun thread => messages (calls thread) (exit thread)) := by
  rw [List.forall₂_map_left_iff, List.forall₂_map_right_iff, List.forall₂_same]
  intro thread _
  obtain ⟨outlet, written, bytes⟩ := writeChannel_ok (streams.few thread) (exit thread) (harmless thread)
  refine ⟨by rw [written]; exact bytes, fun message member => streams.fits message ?_⟩
  obtain ⟨entry, sentByThread, rfl⟩ := List.mem_map.mp ((streams.divided thread).mem_iff.mp member)
  exact List.mem_map_of_mem (List.mem_of_mem_filter sentByThread)

theorem Streams.perm {threads : List τ} {calls : τ → List (StackCall layout)} {exit : τ → Option (Pid × UInt32)}
    {sent : List (τ × Message layout)} (streams : Streams threads calls exit sent) (distinct : threads.Nodup) :
    (threads.map fun thread => messages (calls thread) (exit thread)).flatten.Perm (sent.map Prod.snd) := by
  refine List.Perm.trans (List.Perm.flatten_congr ?_) (streams_perm distinct streams.senders)
  rw [List.forall₂_map_left_iff, List.forall₂_map_right_iff, List.forall₂_same]
  exact fun thread _ => streams.divided thread

/-- The channels of the writers, of which nothing has been read. -/
theorem Streams.begins {threads : List τ} {calls : τ → List (StackCall layout)} {exit : τ → Option (Pid × UInt32)}
    {sent : List (τ × Message layout)} (streams : Streams threads calls exit sent) (writers : List τ)
    {results : τ → List SendResult} (harmless : ∀ thread, ∀ result ∈ results thread, Harmless result) {root : ProcId}
    {told : List (Message layout)} {world : World} (gathers : Gathers root told world) {watch : τ → Watch}
    (feeds : ∀ thread ∈ writers, Feeds root world (watch thread))
    (tags : (writers.map fun thread => (watch thread).tag).Nodup)
    (divided : (told ++ (writers.map fun thread => messages (calls thread) (exit thread)).flatten).Perm
      (sent.map Prod.snd)) :
    Reads root (sent.map Prod.snd) told (writers.map fun thread => messages (calls thread) (exit thread))
      ⟨world, writers.map fun thread =>
        ⟨watch thread, (writeChannel layout (calls thread) (exit thread) (results thread)).1.sent⟩⟩ where
  gathers := gathers
  holds := streams.holds harmless watch writers
  feeds inlet member := by
    obtain ⟨thread, known, rfl⟩ := List.mem_map.mp member
    exact feeds thread known
  distinct := by
    rw [List.map_map]
    exact tags
  divided := divided

theorem Streams.reads {threads : List τ} {calls : τ → List (StackCall layout)} {exit : τ → Option (Pid × UInt32)}
    {sent : List (τ × Message layout)} (streams : Streams threads calls exit sent) (distinct : threads.Nodup)
    {results : τ → List SendResult} (harmless : ∀ thread, ∀ result ∈ results thread, Harmless result) {root : ProcId}
    {world : World} (starts : Gathers root ([] : List (Message layout)) world) {watch : τ → Watch}
    (feeds : ∀ thread ∈ threads, Feeds root world (watch thread))
    (tags : (threads.map fun thread => (watch thread).tag).Nodup) :
    Reads root (sent.map Prod.snd) [] (threads.map fun thread => messages (calls thread) (exit thread))
      ⟨world, threads.map fun thread =>
        ⟨watch thread, (writeChannel layout (calls thread) (exit thread) (results thread)).1.sent⟩⟩ :=
  streams.begins threads harmless starts feeds tags (streams.perm distinct)

theorem Consistent.written {threads : List τ} {program : Program layout τ} {sent : List (τ × Message layout)}
    {lost : Finset Addr} (consistent : Consistent threads program sent lost) :
    Streams threads program.calls program.exit sent where
  divided thread := by rw [consistent.streams]
  few := consistent.few
  fits := consistent.numbered.fits
  senders := consistent.senders

theorem Consistent.reads {threads : List τ} {program : Program layout τ} {sent : List (τ × Message layout)}
    {lost : Finset Addr} (consistent : Consistent threads program sent lost) (distinct : threads.Nodup)
    {results : τ → List SendResult} (harmless : ∀ thread, ∀ result ∈ results thread, Harmless result) {root : ProcId}
    {world : World} (starts : Gathers root ([] : List (Message layout)) world) {watch : τ → Watch}
    (feeds : ∀ thread ∈ threads, Feeds root world (watch thread))
    (tags : (threads.map fun thread => (watch thread).tag).Nodup) :
    Reads root (sent.map Prod.snd) []
      (threads.map fun thread => messages (program.calls thread) (program.exit thread))
      ⟨world, program.inlets threads watch results⟩ :=
  consistent.written.reads distinct harmless starts feeds tags

/-- Whatever the order in which the messages came, the table says what they tell. -/
theorem Consistent.tells {threads : List τ} {program : Program layout τ} {sent : List (τ × Message layout)}
    {lost : Finset Addr} (consistent : Consistent threads program sent lost) {root : ProcId}
    {told : List (Message layout)} {world : World} (gathers : Gathers root told world)
    (whole : told.Perm (sent.map Prod.snd)) (few : (sent.map Prod.snd).length < 2 ^ 32) :
    ∃ process, world.process root = .ok process ∧ process.commandQueue = [] ∧
      Tells world.stashes (contents world.blocks process.table)
        ((sent.map Prod.snd).foldl Known.tell fun _ => none) :=
  gathers.tells whole (Numbered.counted consistent.numbered) few consistent.numbered.fits
    fun message member => tells_tell (Numbered.taken consistent.numbered message member)

/-! ## From end to end -/

variable {σ μ : Type} [DecidableEq σ] {locate : μ → Addr → Option σ × μ}

/-- What the threads have written, read to its end. -/
theorem Consistent.profiled {threads : List τ} {events : List (Event layout τ)} {program : Program layout τ}
    {sent : List (τ × Message layout)}
    (consistent : Consistent threads program sent (((origins events).map Origin.call).foldl strand ∅))
    (heap : program.heap = heapOf (origins events)) (reported : program.pending = []) (few : sent.length < 2 ^ 32)
    {root : ProcId} {told : List (Message layout)} {waiting : List (List (Message layout))} {later : Profiler}
    (reads : Reads root (sent.map Prod.snd) told waiting later) (ended : later.inlets = []) {symbolOf : Addr → σ}
    {maps : μ} (fixed : Fixed locate (IsFrameOf (origins events)) symbolOf maps) (name : σ → String)
    (skipFuncs : List String) :
    ∃ addresses : List Addr, ∃ profiled maps' profile, addresses.Nodup ∧
      (∀ address, address ∈ addresses ↔
        program.heap.live address ≠ none ∧ address ∉ stranded ((origins events).map Origin.site)) ∧
      profileCreate locate name maps later.world root skipFuncs = .ok (profiled, maps', profile) ∧
      Denotes profile (keptSamples name skipFuncs symbolOf (addresses.map program.heap.sample)) ∧
      Flat profile (keptSamples name skipFuncs symbolOf (addresses.map program.heap.sample)) := by
  have lost : ((origins events).map Origin.call).foldl strand ∅ = stranded ((origins events).map Origin.site) := by
    rw [stranded, List.map_map]
    rfl
  have knows := consistent.knows
  rw [lost, reported, heap] at knows
  have nothing : waiting = [] := by
    have holds := reads.holds
    rw [ended, List.forall₂_nil_left_iff] at holds
    exact holds
  have whole := reads.divided
  rw [nothing, List.flatten_nil, List.append_nil] at whole
  obtain ⟨process, found, _, tells⟩ := consistent.tells reads.gathers whole (by rwa [List.length_map])
  rw [heap]
  exact profileCreate_tells reads.gathers.served.sound found knows tells fixed name skipFuncs

/-- However the calls and the reports of the threads interleave, as long as no report overtakes
an earlier call about one of its addresses, and in whatever turns the channels are read: no call
fails, the channels can be read to their ends, and then the profile is that of the blocks that
the program has left, except those whose last `realloc` failed.  When these are freed their
stacks are written. -/
theorem threads_profiled {threads : List τ} (distinct : threads.Nodup) {events : List (Event layout τ)}
    {program : Program layout τ} (ran : Program.run {} events = some program)
    (known : ∀ event ∈ events, event.thread ∈ threads) (ordered : OrderedRun {} events)
    (reported : program.pending = []) (few : events.length < 2 ^ 32) {results : τ → List SendResult}
    (harmless : ∀ thread, ∀ result ∈ results thread, Harmless result) {root : ProcId} {world : World}
    (starts : Gathers root ([] : List (Message layout)) world) {watch : τ → Watch}
    (feeds : ∀ thread ∈ threads, Feeds root world (watch thread))
    (tags : (threads.map fun thread => (watch thread).tag).Nodup) {turns : List Turn}
    (spares : ∀ turn ∈ turns, Spares layout root turn.before) {files : ProcId → ℕ → Files}
    (writable : ∀ p, Dumping.Writable (files p)) (frames : StackPtr → List Addr) {symbolOf : Addr → σ} {maps : μ}
    (fixed : Fixed locate (IsFrameOf (origins events)) symbolOf maps) (name : σ → String) (skipFuncs : List String) :
    ∃ later, dispatchAll layout ⟨world, program.inlets threads watch results⟩ turns = .ok later ∧
      Dumping.Writes files frames later.world ∧
      (∃ count final, dispatchAll layout later (enough count) = .ok final ∧ final.inlets = []) ∧
      (later.inlets = [] → ∃ addresses : List Addr, ∃ profiled maps' profile, addresses.Nodup ∧
        (∀ address, address ∈ addresses ↔
          program.heap.live address ≠ none ∧ address ∉ stranded ((origins events).map Origin.site)) ∧
        profileCreate locate name maps later.world root skipFuncs = .ok (profiled, maps', profile) ∧
        Denotes profile (keptSamples name skipFuncs symbolOf (addresses.map program.heap.sample)) ∧
        Flat profile (keptSamples name skipFuncs symbolOf (addresses.map program.heap.sample))) := by
  obtain ⟨sent, consistent, heap, fewer⟩ := (consistent_start threads).run known ordered ran
  obtain ⟨later, told, waiting, dispatched, reads⟩ :=
    dispatchAll_reads (consistent.reads distinct harmless starts feeds tags) spares
  refine ⟨later, dispatched, Dumping.writes_of_writable writable frames later.world, dispatchAll_ends reads,
    fun ended => ?_⟩
  exact consistent.profiled heap reported (fewer.trans_lt few) reads ended fixed name skipFuncs

end Writing

/-! ## A program with two threads -/

/-- A process that has just connected, with whatever clones it has. -/
theorem gathers_fresh {world : World} (served : Served world)
    (idle : ∀ process ∈ world.processes, process.commandQueue = []) {root : ProcId} {process : MPProcess}
    (found : world.process root = .ok process) (alone : process.cloneOf = none) (counted : process.seqno = 0)
    (empty : process.table = ∅) : Gathers root ([] : List (Message layout)) world where
  served := served
  reports p process held command waiting := by
    rw [idle process (World.mem_of_process held)] at waiting
    cases waiting
  process := by
    refine ⟨process, [], found, alone, .nil, ?_⟩
    rw [idle process (World.mem_of_process found), counted, empty]
    rfl

def cloned : World :=
  (((tracing false).controlClone 2 (newProcessInfo 101 100 .clone)).toOption.map Prod.fst).getD {}

/-- The second thread makes its first call later than the other one, and reports it earlier.
The first one frees a block whose `realloc` has failed. -/
def crossing : List (Event lp64 Bool) :=
  [.call true ⟨.malloc 24 4096, 100, [16, 32], Object.zero _⟩,
    .call false ⟨.malloc 8 8192, 101, [20, 32], Object.zero _⟩, .report false, .report true,
    .call false ⟨.realloc 8192 48 12288, 101, [24], Object.zero _⟩,
    .call true ⟨.realloc 4096 64 0, 100, [16], Object.zero _⟩, .report true,
    .call true ⟨.free 4096, 100, [16], Object.zero _⟩, .report true, .exit true 100, .report false]

def crossingWatch (thread : Bool) : Watch := if thread then ⟨1, 1, 0⟩ else ⟨2, 2, 1⟩

theorem cloned_gathers : Gathers 0 ([] : List (Message lp64)) cloned ∧
    ∀ thread, Feeds 0 cloned (crossingWatch thread) := by
  have fresh : (tracing false).Fresh 2 := World.fresh_of_single rfl (by decide)
  have served := (controlClone_served tracing_ready.served fresh (show (101 : Pid) ≠ 0 by decide)).of_ok
    (rfl : (tracing false).controlClone 2 (newProcessInfo 101 100 .clone) = .ok (cloned, true))
  refine ⟨gathers_fresh served ?_ (rfl : cloned.process 0 = .ok (traced false)) rfl rfl rfl, fun thread => ?_⟩
  · intro process member
    rcases List.mem_cons.mp member with rfl | member
    · rfl
    · rw [List.mem_singleton.mp member]
  · cases thread with
    | true => exact ⟨by decide, rfl⟩
    | false => exact ⟨by decide, rfl⟩

/-- The block that has been moved is the one in the profile. -/
theorem threads_profiled_crossing : ∃ program profiler count, ∃ addresses : List Addr, ∃ profiled maps' profile,
    Program.run {} crossing = some program ∧
      dispatchAll lp64 ⟨cloned, program.inlets [true, false] crossingWatch fun _ => [.sent 5, .eintr]⟩
        ({ inlet := 1, conditions := [true] } :: enough count) = .ok profiler ∧
      Dumping.Writes (fun _ _ => Dumping.blankFiles) Nested.framesOnce profiler.world ∧ addresses = [12288] ∧
      profileCreate locateStart nameStart () profiler.world 0 [] = .ok (profiled, maps', profile) ∧
      Denotes profile [([24], 48)] ∧ Flat profile [([24], 48)] := by
  let program : Program lp64 Bool := (Program.run {} crossing).getD {}
  have ran : Program.run {} crossing = some program := rfl
  have known : ∀ event ∈ crossing, event.thread ∈ [true, false] := by decide
  have harmless : ∀ thread : Bool, ∀ result ∈ (fun _ => [.sent 5, .eintr] : Bool → List SendResult) thread,
      Harmless result := by decide
  obtain ⟨starts, feeds⟩ := cloned_gathers
  have profiled := fun (turns : List Turn) (spares : ∀ turn ∈ turns, Spares lp64 0 turn.before) =>
    threads_profiled (by decide) ran known (by decide +kernel) rfl (by decide) harmless starts
      (fun thread _ => feeds thread) (by decide) spares (fun _ => Dumping.writable_blankFiles) Nested.framesOnce
      (fixed_locateStart _) nameStart []
  have spares : ∀ turns : List Turn, (∀ turn ∈ turns, turn.before = id) → ∀ turn ∈ turns, Spares lp64 0 turn.before :=
    fun turns same turn member => by rw [same turn member]; exact spares_id 0
  -- The channel of the clone is read first.
  obtain ⟨middle, first, _, ⟨count, final, rest, ended⟩, _⟩ :=
    profiled [{ inlet := 1, conditions := [true] }] (spares _ (by simp))
  obtain ⟨later, dispatched, dumped, _, made⟩ := profiled ({ inlet := 1, conditions := [true] } :: enough count)
    (spares _ (by simp [enough]))
  have same : later = final := by
    have both : dispatchAll lp64 _ ([{ inlet := 1, conditions := [true] }] ++ enough count) = _ := dispatched
    rw [dispatchAll, List.foldlM_append] at both
    rw [dispatchAll] at first
    rw [first, ok_bind] at both
    exact (Except.ok.inj (rest.symm.trans both)).symm
  obtain ⟨addresses, profiled, maps', profile, distinct, listed, returned, denotes, flat⟩ := made (same ▸ ended)
  have none : stranded ((origins crossing).map Origin.site) = ∅ := by decide
  have heap : program.heap = ((((Heap.obtain (fun _ => .none) 4096 24 [16, 32]).obtain 8192 8 [20, 32]).release
      8192).obtain 12288 48 [24]).release 4096 := rfl
  have only : addresses = [12288] := by
    rw [← List.perm_singleton, List.perm_ext_iff_of_nodup distinct (List.nodup_singleton _)]
    intro address
    rw [listed, none, heap]
    simp only [Heap.live, Heap.release, Heap.obtain, Function.update_apply]
    by_cases moved : address = 12288 <;> by_cases freed : address = 4096 <;> by_cases old : address = 8192 <;>
      simp [moved, freed, old]
  subst only
  exact ⟨program, later, count, _, profiled, maps', profile, ran, dispatched, dumped, rfl, returned, denotes, flat⟩

end Memprof.Concurrent
