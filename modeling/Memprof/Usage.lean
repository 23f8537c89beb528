import Memprof.Types

/-! # `main.c`: the scale of the usage bar

Of a window there is what its usage bar is drawn from.  Left out are the labels and the
time graph, which only show the counters of the process.
-/

namespace Memprof

structure UsageBar where
  usageMax : UInt32 := 32 * 1024
  usageHigh : UInt32 := 0
  usageLeaked : UInt32 := 0
deriving DecidableEq, Repr

namespace UsageBar

/-- `while (bytes_used > usage_max) usage_max *= 2`, of `guint`s. -/
def growUsageMax (bytesUsed : UInt32) : ℕ → UInt32 → Except Fault UInt32
  | 0, _ => .error .outOfFuel
  | fuel + 1, usageMax =>
    if usageMax < bytesUsed then growUsageMax bytesUsed fuel (usageMax * 2) else .ok usageMax

/-- `update_status`, while the process uses so many bytes. -/
def updateStatus (fuel : ℕ) (pwin : UsageBar) (bytesUsed : UInt32) : Except Fault UsageBar := do
  let usageMax ←
    if pwin.usageMax < bytesUsed then growUsageMax bytesUsed fuel pwin.usageMax else .ok pwin.usageMax
  .ok { pwin with
    usageMax := usageMax
    -- `MAX (bytes_used, usage_high)`
    usageHigh := if pwin.usageHigh < bytesUsed then bytesUsed else pwin.usageHigh }

/-- What `process_window_reset` does to the bar. -/
def processWindowReset (pwin : UsageBar) : UsageBar :=
  { pwin with
    usageMax := 32 * 1024
    usageHigh := 0
    usageLeaked := 0 }

inductive Event where
  | updateStatus (bytesUsed : UInt32)
  | processWindowReset
deriving DecidableEq, Repr

def perform (fuel : ℕ) (pwin : UsageBar) : Event → Except Fault UsageBar
  | .updateStatus bytesUsed => pwin.updateStatus fuel bytesUsed
  | .processWindowReset => .ok pwin.processWindowReset

/-- The events of a window, from `process_window_new` on. -/
def run (fuel : ℕ) (events : List Event) : Except Fault UsageBar := events.foldlM (perform fuel) {}

end UsageBar

end Memprof
