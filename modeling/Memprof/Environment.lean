import Memprof.Tracing

/-! # `intercept.c`: tracing in the environment

Where a traced program leaves tracing on or off for the programs that it runs: the name of the
socket is in the environment, and `__execve` takes it out when tracing is off.  Only what calls
`__execve` goes by the library: a program that calls `execve` itself passes its strings on as
they are.  An image is
the memory that an `execve` or a `fork` makes; the children of `vfork` and clones run in the
image of their parents.  Of the interception libraries this is `libmemintercept`, which looks
at `tracing` before each report; the path of the socket is short enough to be copied.
-/

namespace Memprof.Environment

open Tracing (Connection)

abbrev EnvString := List Char

def envName (string : EnvString) : EnvString := string.takeWhile (· ≠ '=') ++ ['=']

/-- For a name with its `=`. -/
def getenv (name : EnvString) (environ : List EnvString) : Option EnvString :=
  (environ.find? (name <+: ·)).map (·.drop name.length)

def putenv (string : EnvString) : List EnvString → List EnvString
  | [] => [string]
  | other :: environ => if envName string <+: other then string :: environ else other :: putenv string environ

def memprofSocket : EnvString := "_MEMPROF_SOCKET=".toList

structure Image where
  origin : Option ℕ := none
  loaded : Bool
  alive : Bool := true
  tracing : Bool := true
  socketPath : Option EnvString := none
  envp : List EnvString
  environ : List EnvString := envp

/-- The images that there have been, and the connections that were tried: by which image,
and the path of the socket. -/
structure System where
  images : List Image
  connects : List (ℕ × EnvString) := []

/-! ## The library -/

def stopTracing (image : Image) : Image :=
  { image with tracing := false, environ := putenv memprofSocket image.environ }

/-- `new_process` in its image: what it leaves, and the path that it has tried. -/
def newProcess (image : Image) (connection : Connection) : Image × Option EnvString :=
  (match connection with
    -- `_exit (1)`
    | .failed => { image with tracing := false, alive := false }
    | .unsent _ => stopTracing (stopTracing image)
    | .answered _ response => if response = some true then image else stopTracing image,
   some (image.socketPath.getD []))

def memprofInit (image : Image) (connection : Connection) : Image × Option EnvString :=
  match getenv memprofSocket image.environ with
  -- `exit (1)`
  | none => ({ image with alive := false }, none)
  | some path =>
    if path = [] then ({ image with socketPath := some path, tracing := false }, none)
    else newProcess { image with socketPath := some path } connection

def Image.Traces (image : Image) : Prop := image.loaded = true ∧ image.tracing = true

instance (image : Image) : Decidable image.Traces := inferInstanceAs (Decidable (_ ∧ _))

/-- `find_thread`, in a clone that has not connected yet. -/
def findThread (image : Image) (registration : Option Connection) : Image × Option EnvString :=
  match registration with
  | some connection => newProcess image connection
  | none => (image, none)

/-- What `__execve` passes on, where the strings can be written to. -/
def execEnvp (image : Image) (envp : List EnvString) : List EnvString :=
  if image.loaded = true ∧ image.tracing = false then
    envp.map fun string => if memprofSocket <+: string then string.take 16 else string
  else envp

def newImage (origin : Option ℕ) (envp : List EnvString) (loaded : Bool) (connection : Connection) :
    Image × Option EnvString :=
  let image : Image := { origin := origin, loaded := loaded, envp := envp }
  if loaded then memprofInit image connection else (image, none)

/-! ## Programs and what they run -/

/-- What an image does: a report, after which tracing stops if it could not be sent; `fork` and
`__vfork`; `__execve` and, unless it is `interposed`, `execve`; and an exit, also that of a child of
`vfork`, whose parent goes on in the image. -/
inductive Event where
  | report (m : ℕ) (registration : Option Connection) (sent : Bool)
  | fork (m : ℕ) (registration : Option Connection) (connection : Connection)
  | vfork (m : ℕ) (registration : Option Connection) (connection : Connection)
  | execve (m : ℕ) (interposed : Bool) (envp : List EnvString) (loaded : Bool) (connection : Connection)
  | exit (m : ℕ) (registration : Option Connection) (parent : Bool)

def Event.image : Event → ℕ
  | .report m _ _ | .fork m _ _ | .vfork m _ _ | .execve m _ _ _ _ | .exit m _ _ => m

namespace System

def set (system : System) (m : ℕ) (result : Image × Option EnvString) : System where
  images := system.images.set m result.1
  connects := system.connects ++ result.2.toList.map (m, ·)

def add (system : System) (result : Image × Option EnvString) : System where
  images := system.images ++ [result.1]
  connects := system.connects ++ result.2.toList.map (system.images.length, ·)

def register (system : System) (m : ℕ) (image : Image) (registration : Option Connection)
    (next : System → Image → System) : System :=
  let found := findThread image registration
  let system := system.set m found
  if found.1.alive then next system found.1 else system

def perform (system : System) (image : Image) : Event → System
  | .report m registration sent =>
    if image.Traces then
      system.register m image registration fun system image =>
        system.set m (if sent then image else stopTracing image, none)
    else system
  | .fork m registration connection =>
    if image.Traces then
      -- The child does not look at `tracing` once more.
      system.register m image registration fun system image =>
        system.add (newProcess { image with origin := some m } connection)
    else system.add ({ image with origin := some m }, none)
  | .vfork m registration connection =>
    if image.Traces then
      system.register m image registration fun system image =>
        let connected := newProcess image connection
        -- The parent is still there.
        system.set m ({ connected.1 with alive := true }, connected.2)
    else system
  | .execve m interposed envp loaded connection =>
    system.add (newImage (some m) (if interposed then execEnvp image envp else envp) loaded connection)
  | .exit m registration parent =>
    if image.Traces then
      system.register m image registration fun system image =>
        system.set m ({ image with tracing := false, alive := parent }, none)
    else system.set m ({ image with alive := parent }, none)

/-- The program makes up no name of a socket: those it passes on are its own. -/
def Honest (image : Image) : Event → Prop
  | .execve _ _ envp _ _ => ∀ string ∈ envp, memprofSocket <+: string → string ∈ image.envp ∨ string ∈ image.environ
  | .report _ _ _ | .fork _ _ _ | .vfork _ _ _ | .exit _ _ _ => True

inductive Step : System → System → Prop
  | event {system : System} {image : Image} (event : Event) (held : system.images[event.image]? = some image)
      (alive : image.alive = true) (honest : Honest image event) : Step system (system.perform image event)

/-- `mp_server_instrument`, of a server that has the socket at `path`; the profiler itself is not
traced. -/
def instrument (environ : List EnvString) (path : EnvString) (libLocation : EnvString) (loaded : Bool)
    (connection : Connection) : System :=
  add { images := [] } (newImage none
    (putenv ("LD_PRELOAD=".toList ++ libLocation) (putenv (memprofSocket ++ path) environ)) loaded connection)

end System

end Memprof.Environment
