import Memprof.Library.Fscanf
import Memprof.Maps

/-! # `leakdetect.c`: `/proc/PID/stat`

What `leaks_find` reads of a clone there: whether it has stopped, and where its stack is.
The name of the command stands in parentheses in front of the state and is read as a word.
-/

namespace Memprof

open Library Fscanf

/-- The fields behind the state: 24 that are not stored, `start_stack` and `esp`, and 8 more. -/
def statAssigns : List Bool := List.replicate 24 false ++ true :: true :: List.replicate 8 false

def fieldsFormat : List Directive := .space :: .char :: numbers statAssigns

/-- `"%*d %*s %c %*d ..."` -/
def statFormat : List Directive := .number false :: .space :: .skipWord :: fieldsFormat

structure ProcStat where
  status : Char
  startStack : UInt64
  endStack : UInt64
deriving DecidableEq

/-- `fscanf` has to store all three. -/
def assigned : List Value → Option ProcStat
  | [.char status, .number startStack, .number endStack] =>
    some ⟨status, UInt64.ofNat startStack, UInt64.ofNat endStack⟩
  | _ => none

/-- What the file contains, if it can be opened. -/
def readProcStat (file : Option CString) : Option ProcStat :=
  match file with
  -- `g_warning ("Can't open %s\n", fname)`
  | none => none
  -- `g_warning ("Error parsing /proc/%d/stat\n", pid)` if it fails.
  | some contents => assigned (scan statFormat contents)

/-- `'T'` unless the file can be read. -/
def processStatus (file : Option CString) : Char :=
  match readProcStat file with
  | some stat => stat.status
  | none => 'T'

/-- The condition of the loop of `leaks_find`: the clone has not stopped yet. -/
def waits (file : Option CString) : Bool := (processStatus file).toLower ≠ 't'

/-- What `add_stack_root` asks for. -/
def stackBounds (file : Option CString) : Option (UInt64 × UInt64) :=
  (readProcStat file).map fun stat => (stat.startStack, stat.endStack)

end Memprof
