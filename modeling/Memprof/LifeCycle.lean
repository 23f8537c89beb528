import Memprof.Server

/-! # The life cycle of a process

`process_run` and `process_kill`, and everything that can happen to a process: what the
main loop does for its sources, and what the windows ask for.  `process_detach` is in
`Server`.
-/

namespace Memprof

namespace World

/-- `process_run` for process `p`, whose program `mp_server_instrument` starts as `pid`. -/
def processRunAs (world : World) (p : ProcId) (pid : Pid) : Except Fault World := do
  let process ← world.process p
  let world ← (world.setProcess p { process with pid := pid }).mpServerAddProcess p
  let world ← world.setStatus p .starting
  world.processStartInput p

/-- `process_kill`, and the pid it sends `SIGTERM` to. -/
def processKill (world : World) (p : ProcId) : Except Fault (World × Option Pid) := do
  let process ← world.process p
  if process.status = .exiting then
    -- The program waits in `exit_wait` for an answer.
    let world ← world.processDetach p
    .ok (world, none)
  else if process.status ≠ .defunct ∧ process.status ≠ .init then .ok (world, some process.pid)
  else .ok (world, none)

/-- A process that is run in a new window. -/
theorem processRun_eq (world : World) (pid : Pid) :
    world.processRun pid =
      world.processNew.1.processRunAs world.processNew.2 pid >>= fun later =>
        later.mpServerProcessCreated world.processNew.2 := by
  rw [processRunAs, bind_assoc]
  simp only [bind_assoc]
  rfl

end World

namespace LifeCycle

inductive Event where
  | serve (event : World.Event)
  | processNew
  | processRun (p : ProcId) (pid : Pid)
  | detach (p : ProcId)
  | kill (p : ProcId)
  | execReset (p : ProcId)

def perform (world : World) : Event → Except Fault World
  | .serve event => world.handle event
  | .processNew => .ok world.processNew.1
  | .processRun p pid => world.processRunAs p pid
  | .detach p => world.processDetach p
  | .kill p => (world.processKill p).map Prod.fst
  | .execReset p => world.processExecReset p

/-- A process is one that was made, and a source that is dispatched is there. -/
def Possible (world : World) : Event → Prop
  | .serve (.startInput p) | .serve (.stopInput p) | .serve (.clearInput p) | .processRun p _ | .detach p | .kill p |
    .execReset p => p < world.processes.length
  | .serve (.message watch _ _) | .serve (.eof watch) => watch ∈ world.watches
  | .serve (.run _) | .serve (.connect _ _) | .processNew => True

instance (world : World) : (event : Event) → Decidable (Possible world event)
  | .serve (.startInput p) | .serve (.stopInput p) | .serve (.clearInput p) | .processRun p _ | .detach p | .kill p |
    .execReset p => inferInstanceAs (Decidable (p < world.processes.length))
  | .serve (.message watch _ _) | .serve (.eof watch) => inferInstanceAs (Decidable (watch ∈ world.watches))
  | .serve (.run _) | .serve (.connect _ _) | .processNew => inferInstanceAs (Decidable True)

end LifeCycle

end Memprof
