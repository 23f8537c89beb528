import Mathlib.Logic.Function.Basic
import Memprof.Calloc
import Memprof.Intercept

/-! # A traced program with one thread

Each call comes with the answer of the real allocator, which may be any correct one.  The
interposed function makes the call and reports it before the next one is made.
-/

namespace Memprof.Sequential

inductive Call where
  | malloc (size : UInt64) (result : Addr)
  | calloc (nmemb size : SizeT .lp64) (result : Addr)
  | realloc (ptr : Addr) (size : UInt64) (result : Addr)
  | free (ptr : Addr)

/-- The size last requested for each address that is allocated. -/
abbrev Live := Addr → Option ℕ

def Live.release (live : Live) (ptr : Addr) : Live := Function.update live ptr none

def Live.obtain (live : Live) (result : Addr) (size : ℕ) : Live :=
  if result = 0 then live else Function.update live result (some size)

namespace Call

/-- The program may make the call, and the allocator give the answer. -/
def Possible (live : Live) : Call → Prop
  | malloc _ result | calloc _ _ result => live result = none
  | realloc ptr _ result => (ptr = 0 ∨ live ptr ≠ none) ∧ (result = ptr ∨ live result = none)
  | free ptr => ptr = 0 ∨ live ptr ≠ none

instance (live : Live) : (call : Call) → Decidable (call.Possible live)
  | malloc _ _ | calloc _ _ _ => inferInstanceAs (Decidable (_ = none))
  | realloc _ _ _ => inferInstanceAs (Decidable ((_ ∨ _) ∧ (_ ∨ _)))
  | free _ => inferInstanceAs (Decidable (_ ∨ _))

/-- `realloc` returns `NULL` when it fails, and the block stays, but also when it has
been asked for nothing and has freed the block. -/
def effect (live : Live) : Call → Live
  | malloc size result => live.obtain result size.toNat
  | calloc nmemb size result => live.obtain result (nmemb.toNat * size.toNat)
  | realloc ptr size result =>
    if result = 0 ∧ size ≠ 0 then live else (live.release ptr).obtain result size.toNat
  | free ptr => live.release ptr

/-- What `do_malloc`, `do_realloc` and `do_free` report. -/
def info : Call → MIInfo
  | malloc size result => mallocInfo result size
  | calloc nmemb size result => mallocInfo result (.ofBitVec (callocRequest nmemb size))
  | realloc ptr size result => reallocInfo ptr result size
  | free ptr => freeInfo ptr

end Call

/-- Where a call is made. -/
structure Site where
  call : Call
  pid : Pid
  nFrames : ℤ
  stack : StackPtr

structure Program where
  live : Live := fun _ => none
  seqno : UInt32 := 0
  sent : List Command := []

namespace Program

/-- `none` where the program or its allocator cannot do it, or the report is bogus. -/
def step (program : Program) (site : Site) : Option Program := do
  if site.call.Possible program.live then
    let info ← numberReport site.call.info site.nFrames site.pid program.seqno
    some { live := site.call.effect program.live
           seqno := program.seqno + 1
           sent := program.sent ++ [⟨info, site.stack⟩] }
  else none

def run (program : Program) (sites : List Site) : Option Program := sites.foldlM step program

end Program

end Memprof.Sequential
