import Memprof.Intercept
import Memprof.Server

/-! # A traced program that forks

The program numbers its reports with the library's counter and sends them on its
channel; the child inherits the counter and connects on a channel of its own.  The
server reads the two channels in any order.
-/

namespace Memprof.Fork

/-- A program and the profiler: the library's counter, the reports sent with their
frames and how many of them were read, what was sent and the counter when the program
forked, what was read when the connection of the child was accepted, and its process. -/
structure System where
  world : World
  counter : UInt32
  sent : List (MIInfo × List Addr) := []
  read : ℕ := 0
  fork : Option (ℕ × UInt32) := none
  accepted : Option (ℕ × ProcId) := none

/-- One step of the program `pid`, traced as process `p`, of its child or of the server. -/
inductive Step (p : ProcId) (pid childPid : Pid) (channel : Channel) : System → System → Prop
  | send {system : System} {info report : MIInfo} {frames : List Addr} (carries : CarriesStack info.operation)
      (numbered : numberReport info frames.length pid system.counter = some report) :
      Step p pid childPid channel system
        { system with counter := system.counter + 1, sent := system.sent ++ [(report, frames)] }
  | receive {system : System} {report : MIInfo} {frames : List Addr} {later : World}
      (next : system.sent[system.read]? = some (report, frames))
      (ran : system.world.inputMessage p report frames = .ok later) :
      Step p pid childPid channel system { system with world := later, read := system.read + 1 }
  -- The child has the counter the parent has now.
  | fork {system : System} (once : system.fork = none) :
      Step p pid childPid channel system { system with fork := some (system.sent.length, system.counter) }
  | accept {system : System} {later : World} {response : Bool} {q : ProcId} (forked : system.fork.isSome = true)
      (once : system.accepted = none)
      (ran : system.world.controlFunc channel (newProcessInfo childPid pid .fork) = .ok (later, response))
      (created : later.mpServerFindProcess childPid = some q) :
      Step p pid childPid channel system { system with world := later, accepted := some (system.read, q) }

/-- The server after it has read some reports of process `p` and nothing else. -/
def replay (world : World) (p : ProcId) (reports : List (MIInfo × List Addr)) : Except Fault World :=
  reports.foldlM (fun world report => world.inputMessage p report.1 report.2) world

end Memprof.Fork
