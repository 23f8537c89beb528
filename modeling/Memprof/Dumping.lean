import Memprof.Locating
import Memprof.Process

/-! # `process.c`: the stacks of blocks that are not found

`process_command` has the stack of a report written to `stderr` when it does not find the
block.  The frames are looked up as those of a profile are, so that the maps may be read
again; then the name of the function is freed, whoever it belongs to.
-/

namespace Memprof

/-- `%p` -/
def printPointer (ptr : Addr) : CString :=
  if ptr = 0 then "(nil)".toList else "0x".toList ++ Nat.toDigits 16 ptr.toNat

/-- `g_warning ("Block %p not found (pid=%d)!\n", ...)` -/
def notFound (pid : Pid) (block : Addr) : CString :=
  "Block ".toList ++ printPointer block ++ " not found (pid=".toList ++ Nat.toDigits 10 pid.toNat ++ ")!\n".toList

/-- What `process_dump_stack` writes for one frame. -/
def dumpText (address : Addr) : Option Line → CString
  | none => "\t[".toList ++ printPointer address ++ "]\n".toList
  | some line =>
    match line.filename with
    | some filename =>
      "\t".toList ++ line.functionname ++ "(): ".toList ++ filename ++ ":".toList ++ Nat.toDigits 10 line.line.toNat ++
        "\n".toList
    | none => "\t".toList ++ line.functionname ++ "()\n".toList

section

variable (files : ℕ → Files)

/-- `process_find_line` -/
def MapReader.findLine (reader : MapReader) (address : Addr) : Except Fault (MapReader × Option Line) := do
  let reads := if reader.cache.Rereads address then reader.reads + 1 else reader.reads
  let (cache, located) ← locateMap (files reads) reader.cache address
  .ok (⟨reads, cache⟩, located.bind fun map =>
    (files reads).findLine map (if map.doOffset then address - map.addr else address))

/-- The body of the loop of `process_dump_stack`, with what has been written to `stderr`. -/
def dumpFrame (state : MapReader × CString) (address : Addr) : Except Fault (MapReader × CString) := do
  let (reader, found) ← state.1.findLine files address
  -- `free (functionname)`
  if found.any fun line => !line.owned then .error .sharedFree
  else .ok (reader, state.2 ++ dumpText address found)

def processDumpStack (state : MapReader × CString) (stack : List Addr) : Except Fault (MapReader × CString) :=
  stack.foldlM (dumpFrame files) state

/-- The warning about a block that is not found, and its stack, whose frames are `frames`. -/
def writeDump (frames : StackPtr → List Addr) (pid : Pid) (state : MapReader × CString) (dump : Dump) :
    Except Fault (MapReader × CString) :=
  processDumpStack files (state.1, state.2 ++ notFound pid dump.block) (frames dump.stack)

def writeDumps (frames : StackPtr → List Addr) (pid : Pid) (state : MapReader × CString) (dumps : List Dump) :
    Except Fault (MapReader × CString) := dumps.foldlM (writeDump files frames pid) state

end

end Memprof
