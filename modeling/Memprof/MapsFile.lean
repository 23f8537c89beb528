import Memprof.Library.Fgets
import Memprof.Maps

/-! # `process.c`: the file that `process_read_maps` reads

`process_read_maps` with what `/proc/PID/maps` contains in place of the lines that `fgets`
makes of it.  The file is a list of bytes, each of which is a `Char`.
-/

namespace Memprof

open Library Fgets

/-- `while (fgets (buffer, 1023, in))` -/
def processReadMapsFile (fuel : ℕ) (files : Files) (contents : Option (List Char)) : Except Fault (List ObjectMap) :=
  match contents with
  -- `fgets` of a file that was not opened.
  | none => .error .nullDereference
  | some input =>
    match fgetsLoop 1023 (processReadMap files) fuel [] input with
    | some mapList => .ok mapList
    | none => .error .outOfFuel

end Memprof
