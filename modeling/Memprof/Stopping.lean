import Memprof.LeakDetect
import Memprof.Server
import Memprof.Stat

/-! # `leakdetect.c`: what `leaks_find` takes and gives back

`leaks_find` as a whole, with a log of the signals that reach the clones, of its attachment
to the target and of the files that it opens.  A file that is opened is a new one even if its
number has been used before.  Files that are read for `process_sections` belong to `process.c`.
-/

namespace Memprof.Stopping

inductive Event where
  | attach | detach
  | stop (clone : ProcId)
  | cont (clone : ProcId)
  | open (file : ℕ)
  | close (file : ℕ)
deriving DecidableEq

structure Log where
  events : List Event := []
  /-- How many files have been opened. -/
  files : ℕ := 0
deriving DecidableEq

namespace Log

def note (log : Log) (event : Event) : Log := { log with events := log.events ++ [event] }

def noteIf (log : Log) (done : Bool) (event : Event) : Log := if done then log.note event else log

def openFile (log : Log) : Log × ℕ :=
  ({ events := log.events ++ [.open log.files], files := log.files + 1 }, log.files)

end Log

/-- What the calls of `leaks_find` come to; the clones are counted as they are listed. -/
structure Outcomes where
  attaches : Bool
  /-- `kill (clone->pid, SIGSTOP)` -/
  stops : ℕ → Bool
  /-- `/proc/PID/stat` each time the loop looks at it. -/
  polls : ℕ → List (Option CString)
  opensMem : Bool
  opensMaps : Bool
  /-- `/proc/PID/stat` when `add_stack_root` looks at it. -/
  stats : ℕ → Option CString
  /-- Everything else the search asks for. -/
  target : Target
  /-- `kill (clone->pid, SIGCONT)` -/
  continues : ℕ → Bool
  detaches : Bool

/-- What `read_proc_stat` does with the file. -/
def readStatFile (log : Log) (file : Option CString) : Log :=
  match file with
  | none => log
  | some _ =>
    let (log, stat) := log.openFile
    match readProcStat file with
    -- `return FALSE` leaves the file open.
    | none => log
    | some _ => log.note (.close stat)

/-- `while (tolower (process_status (clone->pid)) != 't')` -/
def waitLoop : Log → List (Option CString) → Except Fault Log
  | _, [] => .error .outOfFuel
  | log, file :: files =>
    let log := readStatFile log file
    if waits file then waitLoop log files else .ok log

/-- The loop that stops the clones, from the clone that is the `i`th one on. -/
def stopClones (outcomes : Outcomes) : ℕ → List ProcId → Log → Except Fault Log
  | _, [], log => .ok log
  | i, clone :: clones, log => do
    let log := log.noteIf (outcomes.stops i) (.stop clone)
    let log ← waitLoop log (outcomes.polls i)
    stopClones outcomes (i + 1) clones log

def readStackMaps (outcomes : Outcomes) (log : Log) : Log :=
  if outcomes.opensMaps then
    let (log, maps) := log.openFile
    log.note (.close maps)
  else log

/-- The files of the clones that `add_stack_roots` goes through. -/
def statFiles (outcomes : Outcomes) (clones : List ProcId) : List (Option CString) :=
  (List.range clones.length).map outcomes.stats

def continueClones (outcomes : Outcomes) : ℕ → List ProcId → Log → Log
  | _, [], log => log
  | i, clone :: clones, log => continueClones outcomes (i + 1) clones (log.noteIf (outcomes.continues i) (.cont clone))

/-- What the memory of the stopped target is searched with. -/
def stoppedTarget (outcomes : Outcomes) (clones : List ProcId) : Target :=
  { outcomes.target with stats := (statFiles outcomes clones).map stackBounds }

def leaksFind (outcomes : Outcomes) (fuel : ℕ) (world : World) (p : ProcId) :
    Except Fault (World × List BlockId × Log) := do
  let clones ← world.mpServerGetProcessClones p
  let log ← stopClones outcomes 0 clones (Log.noteIf {} outcomes.attaches .attach)
  -- `g_warning ("Can't open %s\n", fname)`
  if ¬ outcomes.opensMem then .ok (world, [], log)
  else do
    let (log, memfd) := log.openFile
    let log := (statFiles outcomes clones).foldl readStatFile (readStackMaps outcomes log)
    let (world, result) ← Memprof.leaksFind fuel world p (stoppedTarget outcomes clones)
    let log := continueClones outcomes 0 clones (log.note (.close memfd))
    -- The descriptor is closed once more.
    let log := (log.note (.close memfd)).noteIf outcomes.detaches .detach
    .ok (world, result, log)

end Memprof.Stopping
