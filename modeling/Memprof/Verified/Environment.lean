import Memprof.Environment
import Memprof.Library.Links

/-! # Tracing that is off stays off

An image that does not trace passes on no name of a socket, so that what it forks and runs does
not trace either, and so on; and an image that does trace connects to the socket of the
server that it has been started by.  The library does not see a program call `execve` itself,
which may pass the name on.
-/

namespace Memprof.Environment

open Library
open Tracing (Connection)

/-! ## One call -/

theorem newProcess_origin (image : Image) (connection : Connection) :
    (newProcess image connection).1.origin = image.origin := by
  cases connection with
  | failed | unsent => rfl
  | answered outfd response =>
    simp only [newProcess]
    split <;> rfl

theorem findThread_origin (image : Image) (registration : Option Connection) :
    (findThread image registration).1.origin = image.origin := by
  cases registration with
  | none => rfl
  | some connection => exact newProcess_origin image connection

theorem newImage_origin (origin : Option ℕ) (envp : List EnvString) (loaded : Bool) (connection : Connection) :
    (newImage origin envp loaded connection).1.origin = origin := by
  unfold newImage
  simp only
  split
  · unfold memprofInit
    split
    · rfl
    · split
      · rfl
      · rw [newProcess_origin]
  · rfl

/-! ## One event -/

/-- An event changes its image, adds at most one that comes from it, and connects for
these two. -/
structure Performed (system later : System) (e : ℕ) (image : Image) (added : List Image)
    (tried : List (ℕ × EnvString)) : Prop where
  images : ∃ image' : Image, image'.origin = image.origin ∧ later.images = system.images.set e image' ++ added
  few : added.length ≤ 1
  origins : ∀ new ∈ added, new.origin = some e
  connects : later.connects = system.connects ++ tried
  tried : ∀ entry ∈ tried, entry.1 = e ∨ entry.1 = system.images.length ∧ added ≠ []

theorem performed_set {system : System} {e : ℕ} {image : Image} (result : Image × Option EnvString)
    (origin : result.1.origin = image.origin) :
    Performed system (system.set e result) e image [] (result.2.toList.map (e, ·)) where
  images := ⟨result.1, origin, (List.append_nil _).symm⟩
  few := Nat.zero_le _
  origins _ member := by cases member
  connects := rfl
  tried entry member := by
    obtain ⟨path, _, rfl⟩ := List.mem_map.mp member
    exact .inl rfl

theorem performed_add {system : System} {e : ℕ} {image : Image} (held : system.images[e]? = some image)
    (result : Image × Option EnvString) (origin : result.1.origin = some e) :
    Performed system (system.add result) e image [result.1] (result.2.toList.map (system.images.length, ·)) where
  images := by
    obtain ⟨inside, rfl⟩ := List.getElem?_eq_some_iff.mp held
    exact ⟨_, rfl, by rw [List.set_getElem_self]; rfl⟩
  few := Nat.le_refl _
  origins new member := by rwa [List.mem_singleton.mp member]
  connects := rfl
  tried entry member := by
    obtain ⟨path, _, rfl⟩ := List.mem_map.mp member
    exact .inr ⟨rfl, List.cons_ne_nil _ _⟩

/-- After a change of the image itself. -/
theorem Performed.trans {system middle later : System} {e : ℕ} {image image' : Image} {added : List Image}
    {tried tried' : List (ℕ × EnvString)} (first : Performed system middle e image [] tried)
    (same : image'.origin = image.origin) (second : Performed middle later e image' added tried') :
    Performed system later e image added (tried ++ tried') := by
  obtain ⟨changed, _, imagesFirst⟩ := first.images
  obtain ⟨changed', origin, imagesSecond⟩ := second.images
  rw [List.append_nil] at imagesFirst
  refine ⟨⟨changed', origin.trans same, by rw [imagesSecond, imagesFirst, List.set_set]⟩, second.few, second.origins,
    by rw [second.connects, first.connects, List.append_assoc], fun entry member => ?_⟩
  rcases List.mem_append.mp member with before | member
  · rcases first.tried entry before with own | ⟨_, none⟩
    · exact .inl own
    · exact absurd rfl none
  · rcases second.tried entry member with own | ⟨new, some⟩
    · exact .inl own
    · exact .inr ⟨by rw [new, imagesFirst, List.length_set], some⟩

theorem performed_nothing {system : System} {e : ℕ} {image : Image} (held : system.images[e]? = some image) :
    Performed system system e image [] [] where
  images := by
    obtain ⟨inside, rfl⟩ := List.getElem?_eq_some_iff.mp held
    exact ⟨_, rfl, by rw [List.set_getElem_self, List.append_nil]⟩
  few := Nat.zero_le _
  origins _ member := by cases member
  connects := (List.append_nil _).symm
  tried _ member := by cases member

theorem performed_register {system : System} {e : ℕ} {image : Image} (held : system.images[e]? = some image)
    (registration : Option Connection) {next : System → Image → System}
    (goesOn : ∀ (middle : System) (found : Image), middle.images[e]? = some found → found.origin = image.origin →
      ∃ added tried, Performed middle (next middle found) e found added tried) :
    ∃ added tried, Performed system (system.register e image registration next) e image added tried := by
  have origin := findThread_origin image registration
  have first := @performed_set system e image (findThread image registration) origin
  unfold System.register
  simp only
  split
  · have heldFound : (system.set e (findThread image registration)).images[e]? =
        some (findThread image registration).1 :=
      List.getElem?_set_self (List.getElem?_eq_some_iff.mp held).1
    obtain ⟨added, tried, second⟩ := goesOn _ _ heldFound origin
    exact ⟨added, _, first.trans origin second⟩
  · exact ⟨[], _, first⟩

theorem perform_ok {system : System} {image : Image} {event : Event}
    (held : system.images[event.image]? = some image) :
    ∃ added tried, Performed system (system.perform image event) event.image image added tried := by
  by_cases traces : image.Traces
  · cases event with
    | report m registration sent =>
      rw [System.perform, if_pos traces]
      refine performed_register held registration fun middle found heldFound _ => ⟨[], _, performed_set _ ?_⟩
      split <;> rfl
    | fork m registration connection =>
      rw [System.perform, if_pos traces]
      refine performed_register held registration fun middle found heldFound _ =>
        ⟨_, _, performed_add heldFound _ ?_⟩
      rw [newProcess_origin]
      rfl
    | vfork m registration connection =>
      rw [System.perform, if_pos traces]
      refine performed_register held registration fun middle found heldFound _ => ⟨[], _, performed_set _ ?_⟩
      exact newProcess_origin found connection
    | execve m interposed envp loaded connection => exact ⟨_, _, performed_add held _ (newImage_origin _ _ _ _)⟩
    | exit m registration parent =>
      rw [System.perform, if_pos traces]
      exact performed_register held registration fun middle found heldFound _ => ⟨[], _, performed_set _ rfl⟩
  · cases event with
    | report m registration sent | vfork m registration connection =>
      rw [System.perform, if_neg traces]
      exact ⟨[], [], performed_nothing held⟩
    | fork m registration connection =>
      rw [System.perform, if_neg traces]
      exact ⟨_, _, performed_add held _ rfl⟩
    | execve m interposed envp loaded connection => exact ⟨_, _, performed_add held _ (newImage_origin _ _ _ _)⟩
    | exit m registration parent =>
      rw [System.perform, if_neg traces]
      exact ⟨[], _, performed_set _ rfl⟩

/-! ## An image that does not trace -/

/-- Every name of a socket among the strings is empty. -/
def Blank (strings : List EnvString) : Prop := ∀ string ∈ strings, memprofSocket <+: string → string = memprofSocket

/-- The image has ended or does not trace, or it has no library and no socket to name. -/
def Barred (image : Image) : Prop :=
  image.alive = false ∨ image.loaded = true ∧ image.tracing = false ∨
    image.loaded = false ∧ Blank image.envp ∧ Blank image.environ

theorem blank_execEnvp {image : Image} (barred : Barred image) (alive : image.alive = true) {envp : List EnvString}
    (honest : ∀ string ∈ envp, memprofSocket <+: string → string ∈ image.envp ∨ string ∈ image.environ) :
    Blank (execEnvp image envp) := by
  intro string member named
  rcases barred with ended | off | ⟨bare, blankEnvp, blankEnviron⟩
  · rw [alive] at ended
    cases ended
  · rw [execEnvp, if_pos off] at member
    obtain ⟨before, _, rfl⟩ := List.mem_map.mp member
    by_cases namedBefore : memprofSocket <+: before
    · rw [if_pos namedBefore]
      exact (List.prefix_iff_eq_take.mp namedBefore).symm
    · rw [if_neg namedBefore] at named
      exact absurd named namedBefore
  · have passed : execEnvp image envp = envp := if_neg fun off => by rw [bare] at off; cases off.1
    rw [passed] at member
    rcases honest string member named with own | own
    · exact blankEnvp string own named
    · exact blankEnviron string own named

/-- Where no socket is named an image does not begin to trace. -/
theorem newImage_barred (origin : Option ℕ) {envp : List EnvString} (blank : Blank envp) (loaded : Bool)
    (connection : Connection) :
    Barred (newImage origin envp loaded connection).1 ∧ (newImage origin envp loaded connection).2 = none := by
  unfold newImage
  cases loaded with
  | false => exact ⟨.inr (.inr ⟨rfl, blank, blank⟩), rfl⟩
  | true =>
    simp only [if_true]
    unfold memprofInit
    split
    next => exact ⟨.inl rfl, rfl⟩
    next path named =>
      obtain ⟨string, found, rfl⟩ := Option.map_eq_some_iff.mp named
      have prefixed : memprofSocket <+: string := by simpa using List.find?_some found
      have empty : string.drop memprofSocket.length = [] := by
        rw [blank string (List.mem_of_find?_eq_some found) prefixed, List.drop_length]
      rw [if_pos empty]
      exact ⟨.inr (.inl ⟨rfl, rfl⟩), rfl⟩

theorem Barred.not_traces {image : Image} (barred : Barred image) (alive : image.alive = true) : ¬ image.Traces := by
  rintro ⟨loaded, tracing⟩
  rcases barred with ended | ⟨_, off⟩ | ⟨bare, _⟩
  · rw [alive] at ended
    cases ended
  · rw [tracing] at off
    cases off
  · rw [loaded] at bare
    cases bare

/-- Where tracing is off, `execve` itself is called without the name of a socket. -/
def Covered (image : Image) : Event → Prop
  | .execve _ false envp _ _ => image.loaded = true → image.tracing = false → Blank envp
  | .execve _ true _ _ _ | .report _ _ _ | .fork _ _ _ | .vfork _ _ _ | .exit _ _ _ => True

/-- What a barred image does leaves it barred, and so is what it makes. -/
theorem perform_barred {system : System} {image : Image} {event : Event}
    (held : system.images[event.image]? = some image) (alive : image.alive = true)
    (honest : System.Honest image event) (covered : Covered image event) (barred : Barred image) :
    ∃ image' added, (system.perform image event).images = system.images.set event.image image' ++ added ∧
      Barred image' ∧ (∀ new ∈ added, Barred new) ∧ (system.perform image event).connects = system.connects := by
  have off := barred.not_traces alive
  have same : system.images.set event.image image = system.images := by
    obtain ⟨inside, rfl⟩ := List.getElem?_eq_some_iff.mp held
    rw [List.set_getElem_self]
  have still : ∀ alive origin, Barred { image with alive := alive, origin := origin } := by
    intro alive origin
    cases alive with
    | false => exact .inl rfl
    | true => exact .inr (barred.resolve_left (by simp_all))
  cases event with
  | report m registration sent | vfork m registration connection =>
    refine ⟨image, [], ?_, barred, by simp, ?_⟩
    · rw [same, List.append_nil, System.perform, if_neg off]
    · rw [System.perform, if_neg off]
  | fork m registration connection =>
    refine ⟨image, [{ image with origin := some m }], ?_, barred, ?_, ?_⟩
    · rw [same, System.perform, if_neg off]
      rfl
    · intro new member
      rw [List.mem_singleton.mp member]
      exact still image.alive (some m)
    · rw [System.perform, if_neg off]
      exact List.append_nil _
  | execve m interposed envp loaded connection =>
    have blank : Blank (if interposed then execEnvp image envp else envp) := by
      cases interposed with
      | true => exact blank_execEnvp barred alive honest
      | false =>
        rcases barred with ended | off | ⟨bare, blankEnvp, blankEnviron⟩
        · rw [alive] at ended
          cases ended
        · exact covered off.1 off.2
        · intro string member named
          exact (honest string member named).elim (blankEnvp string · named) (blankEnviron string · named)
    obtain ⟨barredNew, none⟩ := newImage_barred (some m) blank loaded connection
    refine ⟨image, [_], by rw [same]; rfl, barred, ?_, ?_⟩
    · intro new member
      rw [List.mem_singleton.mp member]
      exact barredNew
    · show system.connects ++ _ = _
      rw [none]
      exact List.append_nil _
  | exit m registration parent =>
    refine ⟨{ image with alive := parent }, [], ?_, still parent image.origin, by simp, ?_⟩
    · rw [System.perform, if_neg off, List.append_nil]
      rfl
    · rw [System.perform, if_neg off]
      exact List.append_nil _

/-! ## Whatever comes from it -/

/-- The images that come from number `m`, by way of those since number `start`. -/
inductive Stems (images : List Image) (start m : ℕ) : ℕ → Prop
  | self : Stems images start m m
  | child {i o : ℕ} {image : Image} (since : start ≤ i) (held : images[i]? = some image)
      (comes : image.origin = some o) (stems : Stems images start m o) : Stems images start m i

namespace Performed

variable {system later : System} {e : ℕ} {image : Image} {added : List Image} {tried : List (ℕ × EnvString)}

theorem old (performed : Performed system later e image added tried) (held : system.images[e]? = some image) {i : ℕ}
    (inside : i < system.images.length) {new : Image} (heldNew : later.images[i]? = some new) :
    ∃ before, system.images[i]? = some before ∧ new.origin = before.origin := by
  obtain ⟨image', origin, images⟩ := performed.images
  rw [images, List.getElem?_append_left (by rwa [List.length_set])] at heldNew
  by_cases own : e = i
  · subst own
    rw [List.getElem?_set_self inside, Option.some.injEq] at heldNew
    exact ⟨image, held, by rw [← heldNew, origin]⟩
  · rw [List.getElem?_set_ne own] at heldNew
    exact ⟨new, heldNew, rfl⟩

theorem new (performed : Performed system later e image added tried) {i : ℕ} (outside : system.images.length ≤ i)
    {new : Image} (heldNew : later.images[i]? = some new) :
    i = system.images.length ∧ new ∈ added ∧ new.origin = some e := by
  obtain ⟨image', origin, images⟩ := performed.images
  rw [images, List.getElem?_append_right (by rwa [List.length_set]), List.length_set] at heldNew
  have member := List.mem_of_getElem? heldNew
  have := (List.getElem?_eq_some_iff.mp heldNew).1
  have := performed.few
  exact ⟨by omega, member, performed.origins new member⟩

theorem length (performed : Performed system later e image added tried) :
    system.images.length ≤ later.images.length := by
  obtain ⟨image', _, images⟩ := performed.images
  rw [images, List.length_append, List.length_set]
  omega

theorem older (performed : Performed system later e image added tried) (held : system.images[e]? = some image)
    (older : Older system.images Image.origin) : Older later.images Image.origin := by
  intro i new j heldNew comes
  by_cases inside : i < system.images.length
  · obtain ⟨before, heldBefore, same⟩ := performed.old held inside heldNew
    exact older i before j heldBefore (by rw [← same, comes])
  · obtain ⟨_, _, origin⟩ := performed.new (Nat.le_of_not_lt inside) heldNew
    rw [comes, Option.some.injEq] at origin
    have := (List.getElem?_eq_some_iff.mp held).1
    omega

/-- An event adds no image to those that came before. -/
theorem stems (performed : Performed system later e image added tried) (held : system.images[e]? = some image)
    (older : Older later.images Image.origin) {start m i : ℕ} (stems : Stems later.images start m i)
    (inside : i < system.images.length) : Stems system.images start m i := by
  induction stems with
  | self => exact .self
  | child since heldNew comes _ inductionHypothesis =>
    obtain ⟨before, heldBefore, same⟩ := performed.old held inside heldNew
    have earlier := older _ _ _ heldNew comes
    exact .child since heldBefore (same.symm.trans comes) (inductionHypothesis (by omega))

/-- A new image comes from the one that made it. -/
theorem stems_new (performed : Performed system later e image added tried) (held : system.images[e]? = some image)
    (older : Older later.images Image.origin) {start m i : ℕ} (stems : Stems later.images start m i)
    (named : m < system.images.length) (outside : system.images.length ≤ i) : Stems system.images start m e := by
  cases stems with
  | self => omega
  | child since heldNew comes above =>
    obtain ⟨_, _, origin⟩ := performed.new outside heldNew
    rw [comes, Option.some.injEq] at origin
    subst origin
    exact performed.stems held older above (List.getElem?_eq_some_iff.mp held).1

end Performed

/-- Since `earlier` nothing that comes from `m` has traced. -/
structure Silent (earlier : System) (m : ℕ) (system : System) : Prop where
  named : m < system.images.length
  older : Older system.images Image.origin
  barred : ∀ (i : ℕ) (image : Image), system.images[i]? = some image →
    Stems system.images earlier.images.length m i → Barred image
  connects : ∃ tried, system.connects = earlier.connects ++ tried ∧
    ∀ entry ∈ tried, entry.1 < system.images.length ∧ ¬ Stems system.images earlier.images.length m entry.1

/-- A step in which nothing names a socket behind the back of a library that does not trace. -/
inductive CoveredStep : System → System → Prop
  | event {system : System} {image : Image} (event : Event) (held : system.images[event.image]? = some image)
      (alive : image.alive = true) (honest : System.Honest image event) (covered : Covered image event) :
      CoveredStep system (system.perform image event)

theorem Silent.step {earlier system later : System} {m : ℕ} (silent : Silent earlier m system)
    (step : CoveredStep system later) : Silent earlier m later := by
  obtain ⟨event, held, alive, honest, covered⟩ := step
  rename_i image
  obtain ⟨added, tried, performed⟩ := perform_ok held
  have older := performed.older held silent.older
  have inside := (List.getElem?_eq_some_iff.mp held).1
  obtain ⟨triedBefore, connects, apart⟩ := silent.connects
  -- Of what comes from `m` no image is new that was there before.
  have apartLater : ∀ entry ∈ triedBefore, entry.1 < (system.perform image event).images.length ∧
      ¬ Stems (system.perform image event).images earlier.images.length m entry.1 := by
    intro entry member
    obtain ⟨known, unrelated⟩ := apart entry member
    exact ⟨known.trans_le performed.length, fun stems => unrelated (performed.stems held older stems known)⟩
  by_cases own : Stems system.images earlier.images.length m event.image
  · obtain ⟨image', added', images, barredOwn, barredNew, quiet⟩ :=
      perform_barred held alive honest covered (silent.barred _ image held own)
    refine ⟨silent.named.trans_le performed.length, older, fun i new heldNew stems => ?_,
      triedBefore, by rw [quiet, connects], apartLater⟩
    by_cases known : i < system.images.length
    · rw [images, List.getElem?_append_left (by rwa [List.length_set])] at heldNew
      by_cases same : event.image = i
      · rw [same, List.getElem?_set_self known, Option.some.injEq] at heldNew
        exact heldNew ▸ barredOwn
      · rw [List.getElem?_set_ne same] at heldNew
        exact silent.barred i new heldNew (performed.stems held older stems known)
    · rw [images, List.getElem?_append_right (by rw [List.length_set]; omega)] at heldNew
      exact barredNew new (List.mem_of_getElem? heldNew)
  · refine ⟨silent.named.trans_le performed.length, older, fun i new heldNew stems => ?_,
      triedBefore ++ tried, by rw [performed.connects, connects, List.append_assoc], fun entry member => ?_⟩
    · by_cases known : i < system.images.length
      · have before := performed.stems held older stems known
        have other : event.image ≠ i := fun same => own (same ▸ before)
        obtain ⟨image', _, images⟩ := performed.images
        rw [images, List.getElem?_append_left (by rwa [List.length_set]), List.getElem?_set_ne other] at heldNew
        exact silent.barred i new heldNew before
      · exact absurd (performed.stems_new held older stems silent.named (Nat.le_of_not_lt known)) own
    · rcases List.mem_append.mp member with before | member
      · exact apartLater entry before
      · rcases performed.tried entry member with same | ⟨new, some⟩
        · rw [same]
          exact ⟨inside.trans_le performed.length, fun stems => own (performed.stems held older stems inside)⟩
        · rw [new]
          obtain ⟨image', _, images⟩ := performed.images
          refine ⟨?_, fun stems => own (performed.stems_new held older stems silent.named (Nat.le_refl _))⟩
          rw [images, List.length_append, List.length_set]
          have := List.length_pos_iff.mpr some
          omega

/-- What a server has started, and what has come of it. -/
def Reaches (start later : System) : Prop := Relation.ReflTransGen System.Step start later

theorem older_instrument (environ : List EnvString) (path libLocation : EnvString) (loaded : Bool)
    (connection : Connection) :
    Older (System.instrument environ path libLocation loaded connection).images Image.origin := by
  intro i image j held comes
  rw [List.mem_singleton.mp (List.mem_of_getElem? held), newImage_origin] at comes
  cases comes

theorem Reaches.older {start later : System} (reaches : Reaches start later)
    (older : Older start.images Image.origin) : Older later.images Image.origin := by
  induction reaches with
  | refl => exact older
  | tail _ step inductionHypothesis =>
    obtain ⟨event, held, _, _⟩ := step
    obtain ⟨added, tried, performed⟩ := perform_ok held
    exact performed.older held inductionHypothesis

theorem silent_start {system : System} {m : ℕ} {image : Image} (held : system.images[m]? = some image)
    (older : Older system.images Image.origin) (barred : Barred image) : Silent system m system where
  named := (List.getElem?_eq_some_iff.mp held).1
  older := older
  barred i other heldOther stems := by
    cases stems with
    | self =>
      rw [held, Option.some.injEq] at heldOther
      exact heldOther ▸ barred
    | child since =>
      have := (List.getElem?_eq_some_iff.mp heldOther).1
      omega
  connects := ⟨[], (List.append_nil _).symm, by simp⟩

def refused : System := .instrument [] "/tmp/memprof.x".toList "/lib".toList true (.answered 3 (some false))

/-- An image names no other socket than `path`. -/
def Named (path : EnvString) (image : Image) : Prop :=
  ∀ string ∈ image.envp ++ image.environ, memprofSocket <+: string →
    string = memprofSocket ++ path ∨ string = memprofSocket

structure Confined (path : EnvString) (image : Image) : Prop where
  named : Named path image
  socketPath : image.alive = true → image.Traces → image.socketPath = some path

structure System.Confined (path : EnvString) (system : System) : Prop where
  images : ∀ image ∈ system.images, Environment.Confined path image
  connects : ∀ entry ∈ system.connects, entry.2 = path

theorem mem_putenv {string other : EnvString} :
    ∀ {environ : List EnvString}, other ∈ putenv string environ → other = string ∨ other ∈ environ
  | [], member => .inl (List.mem_singleton.mp member)
  | before :: environ, member => by
    unfold putenv at member
    split at member
    · exact (List.mem_cons.mp member).imp_right (List.mem_cons_of_mem _)
    · rcases List.mem_cons.mp member with rfl | member
      · exact .inr List.mem_cons_self
      · exact (mem_putenv member).imp_right (List.mem_cons_of_mem _)

/-- Of the strings that have the name of the new one, `putenv` leaves all but the first. -/
theorem mem_putenv_named {string other : EnvString} (named : envName string <+: other) :
    ∀ {environ : List EnvString}, (environ.filter (envName string <+: ·)).length ≤ 1 →
      other ∈ putenv string environ → other = string
  | [], _, member => List.mem_singleton.mp member
  | before :: environ, few, member => by
    unfold putenv at member
    by_cases first : envName string <+: before
    · rw [if_pos first] at member
      rw [List.filter_cons_of_pos (by simpa using first), List.length_cons] at few
      refine (List.mem_cons.mp member).resolve_right fun member => ?_
      have : 0 < (environ.filter (envName string <+: ·)).length :=
        List.length_pos_of_mem (List.mem_filter.mpr ⟨member, by simpa using named⟩)
      omega
    · rw [if_neg first] at member
      rw [List.filter_cons_of_neg (by simpa using first)] at few
      rcases List.mem_cons.mp member with rfl | member
      · exact absurd named first
      · exact mem_putenv_named named few member

theorem envName_memprofSocket (path : EnvString) : envName (memprofSocket ++ path) = memprofSocket := by
  have whole : memprofSocket = "_MEMPROF_SOCKET".toList ++ ['='] := by decide
  rw [envName, whole, List.append_assoc, List.takeWhile_append_of_pos (by simp)]
  simp

theorem named_stopTracing {path : EnvString} {image : Image} (named : Named path image) :
    Named path (stopTracing image) := by
  intro string member prefixed
  rcases List.mem_append.mp member with member | member
  · exact named string (List.mem_append_left _ member) prefixed
  · rcases mem_putenv member with rfl | member
    · exact .inr rfl
    · exact named string (List.mem_append_right _ member) prefixed

theorem named_newProcess {path : EnvString} {image : Image} (named : Named path image) (connection : Connection) :
    Named path (newProcess image connection).1 := by
  cases connection with
  | failed => exact named
  | unsent outfd => exact named_stopTracing (named_stopTracing named)
  | answered outfd response =>
    simp only [newProcess]
    split
    · exact named
    · exact named_stopTracing named

theorem newProcess_socketPath (image : Image) (connection : Connection) :
    (newProcess image connection).1.socketPath = image.socketPath := by
  cases connection with
  | failed | unsent => rfl
  | answered outfd response =>
    simp only [newProcess]
    split <;> rfl

theorem newProcess_tried {path : EnvString} {image : Image} (socketPath : image.socketPath = some path)
    (connection : Connection) : (newProcess image connection).2 = some path := by
  simp only [newProcess]
  rw [socketPath]
  rfl

/-- The strings that a confined image passes on when it makes none up. -/
theorem named_execEnvp {path : EnvString} {image : Image} (named : Named path image) {envp : List EnvString}
    (honest : ∀ string ∈ envp, memprofSocket <+: string → string ∈ image.envp ∨ string ∈ image.environ) :
    ∀ string ∈ execEnvp image envp, memprofSocket <+: string →
      string = memprofSocket ++ path ∨ string = memprofSocket := by
  intro string member prefixed
  unfold execEnvp at member
  split at member
  · obtain ⟨before, _, rfl⟩ := List.mem_map.mp member
    by_cases prefixedBefore : memprofSocket <+: before
    · rw [if_pos prefixedBefore]
      exact .inr (List.prefix_iff_eq_take.mp prefixedBefore).symm
    · rw [if_neg prefixedBefore] at prefixed
      exact absurd prefixed prefixedBefore
  · exact named string (List.mem_append.mpr (honest string member prefixed)) prefixed

theorem named_passed {path : EnvString} {image : Image} (named : Named path image) {envp : List EnvString}
    (honest : ∀ string ∈ envp, memprofSocket <+: string → string ∈ image.envp ∨ string ∈ image.environ)
    (interposed : Bool) : ∀ string ∈ (if interposed then execEnvp image envp else envp), memprofSocket <+: string →
      string = memprofSocket ++ path ∨ string = memprofSocket := by
  cases interposed with
  | true => exact named_execEnvp named honest
  | false =>
    exact fun string member prefixed => named string (List.mem_append.mpr (honest string member prefixed)) prefixed

theorem confined_newImage {path : EnvString} (origin : Option ℕ) {envp : List EnvString}
    (named : ∀ string ∈ envp, memprofSocket <+: string → string = memprofSocket ++ path ∨ string = memprofSocket)
    (loaded : Bool) (connection : Connection) :
    Confined path (newImage origin envp loaded connection).1 ∧
      ∀ tried ∈ (newImage origin envp loaded connection).2, tried = path := by
  have both : ∀ {image : Image}, image.envp = envp → image.environ = envp → Named path image := by
    intro image ofEnvp ofEnviron string member
    rw [ofEnvp, ofEnviron] at member
    exact named string ((List.mem_append.mp member).elim id id)
  unfold newImage
  cases loaded with
  | false => exact ⟨⟨both rfl rfl, fun _ traces => by cases traces.1⟩, by simp⟩
  | true =>
    simp only [if_true]
    unfold memprofInit
    split
    next => exact ⟨⟨both rfl rfl, fun alive => by cases alive⟩, by simp⟩
    next socket found =>
      obtain ⟨string, first, rfl⟩ := Option.map_eq_some_iff.mp found
      have prefixed : memprofSocket <+: string := by simpa using List.find?_some first
      split
      next => exact ⟨⟨both rfl rfl, fun _ traces => by cases traces.2⟩, by simp⟩
      next nonempty =>
        -- The only other name that there can be is the empty one.
        have theirs : string.drop memprofSocket.length = path := by
          rcases named string (List.mem_of_find?_eq_some first) prefixed with rfl | rfl
          · exact List.drop_left
          · exact absurd List.drop_length nonempty
        rw [theirs]
        refine ⟨⟨named_newProcess (both rfl rfl) connection, fun _ _ => newProcess_socketPath _ _⟩, ?_⟩
        rw [newProcess_tried rfl]
        rintro tried ⟨⟩
        rfl

namespace System.Confined

variable {path : EnvString} {system : System}

theorem set (confined : system.Confined path) (m : ℕ) {result : Image × Option EnvString}
    (image : Environment.Confined path result.1) (tried : ∀ entry ∈ result.2, entry = path) :
    (system.set m result).Confined path where
  images other member := by
    rcases List.mem_or_eq_of_mem_set member with member | rfl
    · exact confined.images other member
    · exact image
  connects entry member := by
    rcases List.mem_append.mp member with member | member
    · exact confined.connects entry member
    · obtain ⟨socket, own, rfl⟩ := List.mem_map.mp member
      exact tried socket (Option.mem_toList.mp own)

theorem add (confined : system.Confined path) {result : Image × Option EnvString}
    (image : Environment.Confined path result.1) (tried : ∀ entry ∈ result.2, entry = path) :
    (system.add result).Confined path where
  images other member := by
    rcases List.mem_append.mp member with member | member
    · exact confined.images other member
    · rwa [List.mem_singleton.mp member]
  connects entry member := by
    rcases List.mem_append.mp member with member | member
    · exact confined.connects entry member
    · obtain ⟨socket, own, rfl⟩ := List.mem_map.mp member
      exact tried socket (Option.mem_toList.mp own)

theorem register (confined : system.Confined path) (m : ℕ) {image : Image} (named : Named path image)
    (socketPath : image.socketPath = some path) (registration : Option Connection) {next : System → Image → System}
    (goesOn : ∀ (middle : System) (found : Image), middle.Confined path → Named path found →
      found.socketPath = some path → (next middle found).Confined path) :
    (system.register m image registration next).Confined path := by
  have found : Named path (findThread image registration).1 ∧
      (findThread image registration).1.socketPath = some path ∧
      ∀ entry ∈ (findThread image registration).2, entry = path := by
    cases registration with
    | none => exact ⟨named, socketPath, by simp [findThread]⟩
    | some connection =>
      refine ⟨named_newProcess named connection, (newProcess_socketPath image connection).trans socketPath, ?_⟩
      rw [findThread, newProcess_tried socketPath]
      rintro entry ⟨⟩
      rfl
  obtain ⟨namedFound, socketFound, tried⟩ := found
  have middle := confined.set m ⟨namedFound, fun _ _ => socketFound⟩ tried
  unfold System.register
  simp only
  split
  · exact goesOn _ _ middle namedFound socketFound
  · exact middle

theorem perform (confined : system.Confined path) {image : Image} {event : Event}
    (held : system.images[event.image]? = some image) (alive : image.alive = true) (honest : Honest image event) :
    (system.perform image event).Confined path := by
  have own := confined.images image (List.mem_of_getElem? held)
  by_cases traces : image.Traces
  · have socketPath := own.socketPath alive traces
    cases event with
    | report m registration sent =>
      rw [System.perform, if_pos traces]
      refine confined.register m own.named socketPath registration fun middle found confinedMiddle named socket =>
        confinedMiddle.set m ?_ (by simp)
      split
      · exact ⟨named, fun _ _ => socket⟩
      · exact ⟨named_stopTracing named, fun _ _ => socket⟩
    | fork m registration connection =>
      rw [System.perform, if_pos traces]
      refine confined.register m own.named socketPath registration fun middle found confinedMiddle named socket => ?_
      let child : Image := { found with origin := some m }
      refine confinedMiddle.add ⟨@named_newProcess path child named connection, fun _ _ => ?_⟩ ?_
      · exact (newProcess_socketPath child connection).trans socket
      · rw [@newProcess_tried path child socket]
        rintro entry ⟨⟩
        rfl
    | vfork m registration connection =>
      rw [System.perform, if_pos traces]
      refine confined.register m own.named socketPath registration fun middle found confinedMiddle named socket => ?_
      refine confinedMiddle.set m ⟨named_newProcess named connection, fun _ _ => ?_⟩ ?_
      · exact (newProcess_socketPath found connection).trans socket
      · rw [newProcess_tried socket]
        rintro entry ⟨⟩
        rfl
    | execve m interposed envp loaded connection =>
      obtain ⟨new, tried⟩ := confined_newImage (some m) (named_passed own.named honest interposed) loaded connection
      exact confined.add new tried
    | exit m registration parent =>
      rw [System.perform, if_pos traces]
      exact confined.register m own.named socketPath registration fun middle found confinedMiddle named _ =>
        confinedMiddle.set m ⟨named, fun _ traces => by cases traces.2⟩ (by simp)
  · cases event with
    | report m registration sent | vfork m registration connection => rwa [System.perform, if_neg traces]
    | fork m registration connection =>
      rw [System.perform, if_neg traces]
      exact confined.add ⟨own.named, fun _ still => absurd still traces⟩ (by simp)
    | execve m interposed envp loaded connection =>
      obtain ⟨new, tried⟩ := confined_newImage (some m) (named_passed own.named honest interposed) loaded connection
      exact confined.add new tried
    | exit m registration parent =>
      rw [System.perform, if_neg traces]
      exact confined.set m ⟨own.named, fun _ still => absurd still traces⟩ (by simp)

end System.Confined

theorem confined_instrument {environ : List EnvString} {path : EnvString}
    (few : (environ.filter (memprofSocket <+: ·)).length ≤ 1) (libLocation : EnvString) (loaded : Bool)
    (connection : Connection) : (System.instrument environ path libLocation loaded connection).Confined path := by
  have named : ∀ string ∈ putenv ("LD_PRELOAD=".toList ++ libLocation) (putenv (memprofSocket ++ path) environ),
      memprofSocket <+: string → string = memprofSocket ++ path ∨ string = memprofSocket := by
    intro string member prefixed
    have name := envName_memprofSocket path
    rcases mem_putenv member with rfl | member
    · have socket : memprofSocket = '_' :: "MEMPROF_SOCKET=".toList := by decide
      have preload : "LD_PRELOAD=".toList = 'L' :: "D_PRELOAD=".toList := by decide
      rw [socket, preload, List.cons_append] at prefixed
      exact absurd (List.cons_prefix_cons.mp prefixed).1 (by decide)
    · exact .inl (mem_putenv_named (name ▸ prefixed) (by rwa [name]) member)
  obtain ⟨image, tried⟩ := confined_newImage none named loaded connection
  exact System.Confined.add ⟨by simp, by simp⟩ image tried

/-- Whatever is tried to connect to, by the program that the server has started and all that
comes from it, is the socket of that server. -/
theorem connects_to_server {environ : List EnvString} {path libLocation : EnvString} {loaded : Bool}
    {connection : Connection} {later : System} (few : (environ.filter (memprofSocket <+: ·)).length ≤ 1)
    (reaches : Reaches (.instrument environ path libLocation loaded connection) later) : later.Confined path := by
  induction reaches with
  | refl => exact confined_instrument few libLocation loaded connection
  | tail _ step inductionHypothesis =>
    obtain ⟨event, held, alive, honest⟩ := step
    exact inductionHypothesis.perform held alive honest

def accepted : System :=
  .instrument ["_MEMPROF_SOCKET=/tmp/old".toList] "/tmp/memprof.x".toList "/lib".toList true (.answered 3 (some true))

/-- Itself, its child and what the child runs. -/
theorem connects_to_server_accepted : ∃ later, Reaches accepted later ∧ later.connects.map Prod.fst = [0, 1, 2] ∧
    later.Confined "/tmp/memprof.x".toList := by
  let named : EnvString := "_MEMPROF_SOCKET=/tmp/memprof.x".toList
  let image : Image :=
    { loaded := true, socketPath := some "/tmp/memprof.x".toList, envp := [named, "LD_PRELOAD=/lib".toList] }
  have held : accepted.images[0]? = some image := rfl
  let child : Image := { image with origin := some 0 }
  let forked : System := accepted.perform image (.fork 0 none (.answered 4 (some true)))
  let later : System := forked.perform child (.execve 1 false [named] true (.answered 3 (some true)))
  have fork : System.Step accepted forked := .event (.fork 0 none (.answered 4 (some true))) held rfl trivial
  have heldChild : forked.images[1]? = some child := rfl
  have execve : System.Step forked later := by
    refine .event (.execve 1 false [named] true (.answered 3 (some true))) heldChild rfl fun string member _ => .inl ?_
    rw [List.mem_singleton.mp member]
    exact List.mem_cons_self
  have reaches : Reaches accepted later := .tail (.single fork) execve
  exact ⟨later, reaches, rfl, connects_to_server (by decide) reaches⟩

end Memprof.Environment
