import Memprof.LeakDetect

/-! # `main.c`: the leak report of a window

Of a window there is the process it shows and its current leak report.  Left out are the
profile, the widgets and `usage_max` and `usage_high`, which only the drawing reads.
`process_window_free` leaves `status_changed_cb` and `reset_cb` connected to the process: what
they would do to the window that is gone is left out as well.
-/

namespace Memprof

open Library

structure ProcessWindow where
  process : Option ProcId := none
  leaks : List BlockId := []
  usageLeaked : UInt32 := 0

structure Session where
  world : World := {}
  windows : List ProcessWindow := []

namespace Session

def window (session : Session) (w : ℕ) : Except Fault ProcessWindow :=
  match session.windows[w]? with
  | some pwin => .ok pwin
  | none => .error .nullDereference

def setWindow (session : Session) (w : ℕ) (pwin : ProcessWindow) : Session :=
  { session with windows := session.windows.set w pwin }

/-- `process_created_cb`: a new window for a process. -/
def processCreated (session : Session) (p : ProcId) : Session :=
  { session with windows := session.windows ++ [{ process := some p }] }

/-- `while (pwin->leaks)`: each block of the old report is let go. -/
def releaseLeaks (blocks : Store Block) (leaks : List BlockId) : Except Fault (Store Block) :=
  leaks.foldlM blockUnref blocks

/-- `leaks_find`, which returns `NULL` at once if the memory of the target cannot be opened. -/
def findLeaks (fuel : ℕ) (world : World) (p : ProcId) : Option Target → Except Fault (World × List BlockId)
  | none => .ok (world, [])
  | some target => leaksFind fuel world p target

/-- The loop that adds up `usage_leaked`. -/
def usageOf (blocks : Store Block) (leaks : List BlockId) : Except Fault UInt32 :=
  leaks.foldlM (fun usage b => do
    let block ← deref blocks b
    .ok (usage + block.size)) 0

def generateLeakCb (session : Session) (w : ℕ) (fuel : ℕ) (target : Option Target) : Except Fault Session := do
  let pwin ← session.window w
  match pwin.process with
  | none => .ok session
  | some p => do
    let world ← session.world.processStopInput p
    -- The old report goes before the new one is looked for.
    let blocks ← releaseLeaks world.blocks pwin.leaks
    let (world, leaks) ← findLeaks fuel { world with blocks := blocks } p target
    let usageLeaked ← usageOf world.blocks leaks
    let world ← world.processStartInput p
    .ok ({ session with world := world }.setWindow w { pwin with leaks := leaks, usageLeaked := usageLeaked })

/-- `g_slist_free` frees the list and nothing that is on it. -/
def processWindowReset (session : Session) (w : ℕ) : Except Fault Session := do
  let pwin ← session.window w
  -- The blocks keep the references that the report held.
  .ok (session.setWindow w { pwin with leaks := [], usageLeaked := 0 })

/-- `process_window_free`, for the window at this place of `process_windows`. -/
def processWindowFree (session : Session) (w : ℕ) : Except Fault Session := do
  let _ ← session.window w
  -- `g_slist_free` again, and `g_slist_remove`.
  .ok { session with windows := session.windows.eraseIdx w }

def initProcess (session : Session) (w : ℕ) (p : ProcId) : Except Fault Session := do
  let pwin ← session.window w
  .ok (session.setWindow w { pwin with process := some p })

/-- `status_changed_cb` of a process that is defunct or detached: its window goes, unless it
is the last one. -/
def statusChangedCb (session : Session) (w : ℕ) : Except Fault Session := do
  if 1 < session.windows.length then session.processWindowFree w
  else
    let pwin ← session.window w
    (session.setWindow w { pwin with process := none }).processWindowReset w

/-- The windows that `reset_cb` is connected for. -/
def windowsOf (session : Session) (p : ProcId) : List ℕ :=
  (List.range session.windows.length).filter fun w => (session.windows[w]?).any fun pwin => pwin.process = some p

/-- `process_exec_reset`: the windows are told when the tables are gone. -/
def processExecReset (session : Session) (p : ProcId) : Except Fault Session := do
  let world ← session.world.processExecReset p
  let session := { session with world := world }
  (session.windowsOf p).foldlM processWindowReset session

end Session

end Memprof
