import Memprof.Verified.Registration

/-! # The clones of a process

The leak detector takes the members of a group from the `pid_table`.  A registry is
`Complete` when everybody who is present is listed, and then the table gives each group
exactly; a registration that overwrites an entry ends that for good as long as the process
it displaced is there.
-/

namespace Memprof.CloneGroups

open Library Accounting Serving Registration

/-! ## Complete registries -/

/-- Who is listed is present, and listed under the own pid. -/
def Consistent (registry : Registry) : Prop :=
  ∀ pid p, registry.listed.lookup pid = some p →
    ∃ e, registry.entries[p]? = some e ∧ e.pid = pid ∧ e.present = true

def Complete (registry : Registry) : Prop :=
  ∀ p e, registry.entries[p]? = some e → e.present = true → registry.listed.lookup e.pid = some p

section Change

variable {before after : Registry}

theorem Consistent.inside {registry : Registry} (consistent : Consistent registry) {pid : Pid} {p : ProcId}
    (listed : registry.listed.lookup pid = some p) : p < registry.entries.length := by
  obtain ⟨e, found, _⟩ := consistent pid p listed
  exact (List.getElem?_eq_some_iff.mp found).1

/-- An entry whose `present` changes, seen from the others. -/
theorem getElem?_set_present {entries : List Entry} {p q : ProcId} {e other : Entry} {present : Bool}
    (found : entries[p]? = some e) (held : (entries.set p { e with present := present })[q]? = some other) :
    (q = p ∧ other = { e with present := present }) ∨ (q ≠ p ∧ entries[q]? = some other) := by
  by_cases same : q = p
  · subst same
    rw [List.getElem?_set_self (List.getElem?_eq_some_iff.mp found).1] at held
    exact .inl ⟨rfl, (Option.some.inj held).symm⟩
  · rw [List.getElem?_set_ne (Ne.symm same)] at held
    exact .inr ⟨same, held⟩

theorem Consistent.change {overwrites : Prop} {ending : Option ProcId} (consistent : Consistent before)
    (change : Change overwrites ending before after) : Consistent after := by
  cases change with
  | none _ => exact consistent
  | @ended p e found _ _ =>
    intro pid q listed
    have own_pid : ∀ pid, before.listed.lookup pid = some p → e.pid = pid := by
      intro pid listed
      obtain ⟨e', found', samePid, _⟩ := consistent pid p listed
      rw [found] at found'
      cases found'
      exact samePid
    -- Whoever is still listed was listed before and is not the one that ended: that one
    -- was listed under its own pid only, and this entry is gone.
    have kept : before.listed.lookup pid = some q ∧ q ≠ p := by
      by_cases own : before.listed.lookup e.pid = some p
      · simp only [own, if_true] at listed
        by_cases same : pid = e.pid
        · rw [same, AList.lookup_erase] at listed
          cases listed
        · rw [AList.lookup_erase_ne same] at listed
          refine ⟨listed, ?_⟩
          rintro rfl
          exact same (own_pid pid listed).symm
      · simp only [own, if_false] at listed
        refine ⟨listed, ?_⟩
        rintro rfl
        exact own (own_pid pid listed ▸ listed)
    obtain ⟨e', found', rest⟩ := consistent pid q kept.1
    exact ⟨e', by rw [List.getElem?_set_ne (Ne.symm kept.2), found'], rest⟩
  | @renewed p e found _ _ =>
    intro pid q listed
    obtain ⟨e', found', samePid, present⟩ := consistent pid q listed
    by_cases same : q = p
    · subst same
      rw [found] at found'
      cases found'
      exact ⟨_, List.getElem?_set_self (List.getElem?_eq_some_iff.mp found).1, samePid, rfl⟩
    · exact ⟨e', by rw [List.getElem?_set_ne (Ne.symm same), found'], samePid, present⟩
  | @added e present _ _ =>
    intro pid q listed
    -- The new process is at the end of the list and listed under its pid.
    by_cases same : pid = e.pid
    · rw [same, AList.lookup_insert] at listed
      cases listed
      exact ⟨e, by simp, same.symm, present⟩
    · rw [AList.lookup_insert_ne same] at listed
      obtain ⟨e', found', rest⟩ := consistent pid q listed
      exact ⟨e', by rw [List.getElem?_append_left (consistent.inside listed), found'], rest⟩

/-- A change leaves the registry complete exactly when it overwrites nothing. -/
theorem Complete.change_iff {overwrites : Prop} {ending : Option ProcId} (complete : Complete before)
    (consistent : Consistent before) (change : Change overwrites ending before after) : Complete after ↔
      ¬overwrites := by
  cases change with
  | none keeps => exact iff_of_true complete keeps
  | @ended p e found keeps _ =>
    refine iff_of_true (fun q other held present => ?_) keeps
    cases getElem?_set_present found held with
    | inl own =>
      rw [own.2] at present
      cases present
    | inr others =>
      have listed := complete q other others.2 present
      split
      next own =>
        by_cases same : other.pid = e.pid
        · rw [same, own] at listed
          exact (others.1 (Option.some.inj listed).symm).elim
        · rw [AList.lookup_erase_ne same, listed]
      next => exact listed
  | @renewed p e found named keeps =>
    refine iff_of_true (fun q other held present => ?_) keeps
    cases getElem?_set_present found held with
    | inl own =>
      rw [own.1, own.2]
      exact named
    | inr others => exact complete q other others.2 present
  | @added e present _ overwriting =>
    rw [overwriting, not_not]
    constructor
    · intro completeAfter
      cases taken : before.listed.lookup e.pid with
      | none => rfl
      | some q =>
        -- The process displaced is still there, but the table names the new one.
        obtain ⟨e', found, samePid, presentBefore⟩ := consistent e.pid q taken
        have inside := consistent.inside taken
        have listed := completeAfter q e' (by rw [List.getElem?_append_left inside, found]) presentBefore
        rw [samePid, AList.lookup_insert, Option.some.injEq] at listed
        exact (Nat.ne_of_gt inside listed).elim
    · intro unlisted q other held presentOther
      rcases Nat.lt_or_ge q before.entries.length with inside | outside
      · rw [List.getElem?_append_left inside] at held
        have listed := complete q other held presentOther
        have apart : other.pid ≠ e.pid := by
          intro same
          rw [same, unlisted] at listed
          cases listed
        rw [AList.lookup_insert_ne apart, listed]
      · rw [List.getElem?_append_right outside, List.getElem?_singleton] at held
        split at held
        next last =>
          cases held
          rw [AList.lookup_insert, Nat.le_antisymm outside (Nat.le_of_sub_eq_zero last)]
        next => cases held

end Change

/-! ## Groups -/

/-- The process is connected, or it was started and is still expected to connect. -/
def Present (world : World) (q : ProcId) : Prop :=
  ∃ process, world.process q = .ok process ∧ (process.inputChannel.isSome = true ∨ process.status = .starting)

/-- For every root the list of its clones is the root and the clones that are present, each
of them once. -/
def Grouped (world : World) : Prop :=
  ∀ r root, world.process r = .ok root → root.cloneOf = none →
    ∃ clones, world.mpServerGetProcessClones r = .ok clones ∧ clones.Nodup ∧
      ∀ q, q ∈ clones ↔ world.rootOf q = .ok r ∧ Present world q

theorem present_iff {world : World} {q : ProcId} :
    Present world q ↔ ∃ e, (registry world).entries[q]? = some e ∧ e.present = true := by
  constructor
  · rintro ⟨process, found, present⟩
    exact ⟨entry process, entry_of_process found, by simpa [entry] using present⟩
  · rintro ⟨e, found, present⟩
    rw [registry, List.getElem?_map, Option.map_eq_some_iff] at found
    obtain ⟨process, held, rfl⟩ := found
    exact ⟨process, World.process_eq_ok.mpr held, by simpa [entry] using present⟩

theorem addClone_foldlM {world : World} {r : ProcId} {processes : List ProcId}
    (rooted : ∀ q ∈ processes, ∃ root, world.rootOf q = .ok root) (result : List ProcId) :
    processes.foldlM (world.addClone r) result =
      .ok ((processes.filter fun q => world.rootOf q = .ok r).reverse ++ result) := by
  induction processes generalizing result with
  | nil => rfl
  | cons q processes inductionHypothesis =>
    obtain ⟨root, ran⟩ := rooted q (by simp)
    rw [List.foldlM_cons, World.addClone, ran, ok_bind, ok_bind,
      inductionHypothesis fun other member => rooted other (by simp [member])]
    by_cases same : root = r
    · simp [same, ran]
    · simp [same, ran]

/-- The list is the part of the `pid_table` whose chains end in `r`. -/
theorem getProcessClones_ok {world : World} (served : Served world) (r : ProcId) :
    ∃ clones, world.mpServerGetProcessClones r = .ok clones ∧ clones.Nodup ∧
      ∀ q, q ∈ clones ↔ world.rootOf q = .ok r ∧ ∃ pid, world.mpServerFindProcess pid = some q := by
  have owner : ∀ pid q, (world.pidTable.getD ∅).lookup pid = some q →
      ∃ process, world.process q = .ok process ∧ process.pid = pid := by
    intro pid q listed
    have listed' : world.mpServerFindProcess pid = some q := by rw [find_eq]; exact listed
    obtain ⟨_, process, found, same⟩ := served.listed pid q listed'
    exact ⟨process, found, same⟩
  have rooted : ∀ q ∈ (world.pidTable.getD ∅).values, ∃ root, world.rootOf q = .ok root := by
    intro q member
    obtain ⟨pid, listed⟩ := HashTable.mem_values_iff.mp member
    obtain ⟨process, found, _⟩ := owner pid q listed
    obtain ⟨root, _, ran, _⟩ := rootOf_ok served.older found
    exact ⟨root, ran⟩
  -- A process has one pid, so that no table lists it twice.
  have single : (world.pidTable.getD ∅).values.Nodup := by
    refine HashTable.values_nodup fun pid pid' q listed listed' => ?_
    obtain ⟨process, found, same⟩ := owner pid q listed
    obtain ⟨process', found', same'⟩ := owner pid' q listed'
    rw [found] at found'
    cases found'
    rw [← same, ← same']
  refine ⟨_, addClone_foldlM rooted [], ?_, fun q => ?_⟩
  · rw [List.append_nil, List.nodup_reverse]
    exact single.filter _
  · rw [List.append_nil, List.mem_reverse, List.mem_filter, decide_eq_true_eq, HashTable.mem_values_iff, and_comm]
    simp only [find_eq]
    rfl

/-- The groups are right exactly when everybody who is present is listed. -/
theorem grouped_iff {world : World} (served : Served world) (consistent : Consistent (registry world)) :
    Grouped world ↔ Complete (registry world) := by
  constructor
  · intro grouped q e found present
    obtain ⟨process, held, _⟩ := present_iff.mpr ⟨e, found, present⟩
    obtain ⟨r, root, rooted, foundRoot, isRoot, _⟩ := rootOf_ok served.older held
    obtain ⟨clones, ran, _, members⟩ := grouped r root foundRoot isRoot
    obtain ⟨clones', ran', _, members'⟩ := getProcessClones_ok served r
    rw [ran] at ran'
    cases ran'
    -- Being present, `q` is on the list of its root, and whatever is on a list is listed.
    have member := (members q).mpr ⟨rooted, present_iff.mpr ⟨e, found, present⟩⟩
    obtain ⟨_, pid, listed⟩ := (members' q).mp member
    rw [find_eq] at listed
    obtain ⟨e', found', samePid, _⟩ := consistent pid q listed
    rw [found] at found'
    cases found'
    rw [samePid, listed]
  · intro complete r root _ _
    obtain ⟨clones, ran, nodup, members⟩ := getProcessClones_ok served r
    refine ⟨clones, ran, nodup, fun q => (members q).trans (and_congr_right fun _ => ?_)⟩
    rw [present_iff]
    constructor
    · rintro ⟨pid, listed⟩
      rw [find_eq] at listed
      obtain ⟨e, found, _, present⟩ := consistent pid q listed
      exact ⟨e, found, present⟩
    · rintro ⟨e, found, present⟩
      exact ⟨e.pid, by rw [find_eq, complete q e found present]⟩

/-! ## Runs -/

theorem consistent_start (followFork followExec : Bool) :
    Consistent (registry { defaultFollowFork := followFork, defaultFollowExec := followExec }) := by
  intro pid p listed
  cases listed

theorem complete_start (followFork followExec : Bool) :
    Complete (registry { defaultFollowFork := followFork, defaultFollowExec := followExec }) := by
  intro p e found
  cases found

/-- Along any run of the main loop the groups are right in every state exactly if no
registration overwrites an entry of the `pid_table`. -/
theorem run_grouped_iff {followFork followExec : Bool} {events : List World.Event} {world : World}
    (ran : run followFork followExec events = .ok world) (possible : Possible followFork followExec events) :
    (∀ earlier reached, earlier <+: events → run followFork followExec earlier = .ok reached → Grouped reached) ↔
      ∀ earlier event reached, earlier ++ [event] <+: events → run followFork followExec earlier = .ok reached →
        ¬Overwrites reached event := by
  have always := @foldlM_always_iff _ _ _ World.handle (fun world => Served world ∧ Consistent (registry world))
    Grouped World.Admissible (fun world event => ¬Overwrites world event)
    { defaultFollowFork := followFork, defaultFollowExec := followExec } ?_ ?_ events world ran possible
  · exact always
  · have served := served_start followFork followExec
    have consistent := consistent_start followFork followExec
    exact ⟨⟨served, consistent⟩, (grouped_iff served consistent).mpr (complete_start followFork followExec)⟩
  · rintro before event after ⟨served, consistent⟩ grouped admissible handled
    have servedAfter := served.step (World.step_iff.mpr ⟨event, admissible, handled⟩)
    have change := handle_change served admissible handled
    have consistentAfter := consistent.change change
    have complete := (grouped_iff served consistent).mp grouped
    exact ⟨⟨servedAfter, consistentAfter⟩,
      (grouped_iff servedAfter consistentAfter).trans (complete.change_iff consistent change)⟩

/-- A program with two clones, each under a pid of its own, of which one ends. -/
theorem run_grouped_iff_clones :
    let events : List World.Event :=
      [.run 100, .connect 1 (newProcessInfo 100 0 .new), .connect 2 (newProcessInfo 101 100 .clone),
        .connect 3 (newProcessInfo 102 101 .clone), .eof ⟨2, 2, 1⟩]
    ∃ world, run false false events = .ok world ∧
      ((∀ earlier reached, earlier <+: events → run false false earlier = .ok reached → Grouped reached) ↔
        ∀ earlier event reached, earlier ++ [event] <+: events → run false false earlier = .ok reached →
          ¬Overwrites reached event) := by
  intro events
  have returns : (run false false events).toOption.isSome = true := by decide +kernel
  obtain ⟨world, returned⟩ := Option.isSome_iff_exists.mp returns
  have ran := ok_of_toOption returned
  exact ⟨world, ran, run_grouped_iff ran (by decide +kernel)⟩

/-- A thread that has the pid of its program takes the place of the main thread. -/
theorem run_displaced :
    ¬ ∀ (followFork followExec : Bool) (events : List World.Event) (world : World),
      run followFork followExec events = .ok world → Possible followFork followExec events → Grouped world := by
  intro claim
  have displaced : ∃ world, run false false [.run 100, .connect 1 (newProcessInfo 100 0 .new),
        .connect 2 (newProcessInfo 100 100 .clone)] = .ok world ∧
      (world.mpServerGetProcessClones 0 = .ok [1] ∧ world.rootOf 0 = .ok 0 ∧
        ∃ process ∈ world.processes[0]?, process.inputChannel = some 1 ∧ process.cloneOf = none) :=
    exists_ok_of_any (by decide +kernel)
  obtain ⟨world, ran, listed, rooted, process, found, connected, isRoot⟩ := displaced
  have held : world.process 0 = .ok process := World.process_eq_ok.mpr found
  obtain ⟨clones, ran', _, members⟩ := claim _ _ _ world ran (by decide +kernel) 0 process held isRoot
  rw [listed] at ran'
  cases ran'
  have member := (members 0).mpr ⟨rooted, process, held, .inl (by rw [connected]; rfl)⟩
  exact absurd (List.mem_singleton.mp member) (by decide)

end Memprof.CloneGroups
