import Memprof.Types

/-! # `memintercept.c` and `intercept.c`: what the traced program reports

The `MIInfo` each interposed allocator call fills in after the real call, and the first
half of `mi_write_stack`, which numbers it.
-/

namespace Memprof

/-- `do_malloc`, `do_memalign` and their siblings. -/
def mallocInfo (result : Addr) (size : UInt64) : MIInfo :=
  { operation := .malloc, oldPtr := 0, newPtr := result, size := size }

def reallocInfo (ptr result : Addr) (size : UInt64) : MIInfo :=
  { operation := .realloc, oldPtr := ptr, newPtr := result, size := size }

def freeInfo (ptr : Addr) : MIInfo :=
  { operation := .free, oldPtr := ptr, newPtr := 0, size := 0 }

/-- The operations of `mi_write_stack`. -/
def CarriesStack (operation : MIOperation) : Prop :=
  operation = .malloc ∨ operation = .realloc ∨ operation = .free ∨ operation = .time

instance (operation : MIOperation) : Decidable (CarriesStack operation) := inferInstanceAs (Decidable (_ ∨ _ ∨ _ ∨ _))

/-- The record `mi_write_stack` sends while the library's counter is `seqno`, which it
increments; nothing for a trace it takes to be bogus. -/
def numberReport (info : MIInfo) (nFrames : ℤ) (pid : Pid) (seqno : UInt32) : Option MIInfo :=
  if nFrames < 0 ∨ 20000 < nFrames then none
  else some { info with stackSize := UInt32.ofInt nFrames, pid := pid, seqno := seqno }

/-- What `new_process` says of itself on a new connection. -/
def newProcessInfo (pid oldPid : Pid) (operation : MIOperation) : MIInfoFork :=
  { operation := operation, pid := oldPid, newPid := pid, seqno := 0 }

end Memprof
