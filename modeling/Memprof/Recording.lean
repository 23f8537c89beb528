import Memprof.Profile
import Memprof.Windows

/-! # `main.c`: the record button and the reports

What the buttons of a window do to the process it shows.  The widgets that show a report are
left out, as in `Windows`.
-/

namespace Memprof

open Library

namespace World

def processIsRecording (world : World) (p : ProcId) : Except Fault Bool := do
  let process ← world.process p
  .ok (process.inputTag ≠ 0)

/-- `if (was_recording) process_start_input (pwin->process)` -/
def restoreInput (world : World) (p : ProcId) (wasRecording : Bool) : Except Fault World :=
  if wasRecording then world.processStartInput p else .ok world

/-- `process_start_input` or `process_stop_input`, as the record button is. -/
def setRecording (world : World) (p : ProcId) (active : Bool) : Except Fault World :=
  if active then world.processStartInput p else world.processStopInput p

end World

/-- A window with its profile, the maps that its process has read, and its record button. -/
structure Toolbar (σ τ : Type) where
  session : Session
  w : ℕ
  profile : Option (Profile σ) := none
  maps : τ
  /-- `gtk_toggle_tool_button_get_active` -/
  active : Bool := true

namespace Toolbar

variable {σ τ : Type} [DecidableEq σ]

def generateLeakCb (toolbar : Toolbar σ τ) (fuel : ℕ) (target : Option Target) : Except Fault (Toolbar σ τ) := do
  let session ← toolbar.session.generateLeakCb toolbar.w fuel target
  .ok { toolbar with session := session }

def generateProfileCb (locate : τ → Addr → Option σ × τ) (name : σ → String) (skipFuncs : List String)
    (toolbar : Toolbar σ τ) : Except Fault (Toolbar σ τ) := do
  let pwin ← toolbar.session.window toolbar.w
  match pwin.process with
  | none => .ok toolbar
  | some p => do
    let wasRecording ← toolbar.session.world.processIsRecording p
    let world ← toolbar.session.world.processStopInput p
    let (world, maps, profile) ← profileCreate locate name toolbar.maps world p skipFuncs
    let world ← world.restoreInput p wasRecording
    .ok { toolbar with
      session := { toolbar.session with world := world }
      maps := maps
      profile := some profile }

/-- `process_clear_input` also forgets the maps that were read. -/
def resetProfileCb (toolbar : Toolbar σ τ) (noMaps : τ) : Except Fault (Toolbar σ τ) := do
  let pwin ← toolbar.session.window toolbar.w
  let session ← toolbar.session.processWindowReset toolbar.w
  match pwin.process with
  | none => .ok { toolbar with session := session, profile := none }
  | some p => do
    let world ← session.world.processClearInput p
    .ok { toolbar with
      session := { session with world := world }
      maps := noMaps
      profile := none }

/-- The button is what it has been toggled to. -/
def recordButtonToggledCb (toolbar : Toolbar σ τ) : Except Fault (Toolbar σ τ) := do
  let pwin ← toolbar.session.window toolbar.w
  match pwin.process with
  -- `g_return_if_fail` of the two calls.
  | none => .ok toolbar
  | some p => do
    let world ← toolbar.session.world.setRecording p toolbar.active
    .ok { toolbar with session := { toolbar.session with world := world } }

inductive Press where
  | record
  | profile
  | leak (fuel : ℕ) (target : Option Target)
  | reset

/-- A button of the window is pressed. -/
def press (locate : τ → Addr → Option σ × τ) (name : σ → String) (skipFuncs : List String) (noMaps : τ)
    (toolbar : Toolbar σ τ) : Press → Except Fault (Toolbar σ τ)
  | .record => { toolbar with active := !toolbar.active }.recordButtonToggledCb
  | .profile => toolbar.generateProfileCb locate name skipFuncs
  | .leak fuel target => toolbar.generateLeakCb fuel target
  | .reset => toolbar.resetProfileCb noMaps

end Toolbar

end Memprof
