import Memprof.Sequential
import Memprof.Wire

/-! # From the calls of a program to its profile

The program of `Sequential` writes its reports with the frames that its calls are made from.
The heap has for each address that is allocated the size last requested and these frames.
-/

namespace Memprof.Pipeline

open Library Memprof.Sequential

/-- A call, where it is made, and what lies in memory where its `MIInfo` is put. -/
structure Origin (layout : Layout) where
  call : Call
  pid : Pid
  frames : List Addr
  object : Object layout.sizeofInfo

abbrev Heap := Addr → Option (ℕ × List Addr)

def Heap.release (heap : Heap) (ptr : Addr) : Heap := Function.update heap ptr none

def Heap.obtain (heap : Heap) (result : Addr) (size : ℕ) (frames : List Addr) : Heap :=
  if result = 0 then heap else Function.update heap result (some (size, frames))

def Heap.live (heap : Heap) : Live := fun address => (heap address).map Prod.fst

namespace Origin

variable {layout : Layout}

def site (origin : Origin layout) : Site where
  call := origin.call
  pid := origin.pid
  nFrames := origin.frames.length
  stack := none

/-- `Call.effect` with the frames. -/
def effect (heap : Heap) (origin : Origin layout) : Heap :=
  match origin.call with
  | .malloc size result => heap.obtain result size.toNat origin.frames
  | .calloc nmemb size result => heap.obtain result (nmemb.toNat * size.toNat) origin.frames
  | .realloc ptr size result =>
    if result = 0 ∧ size ≠ 0 then heap else (heap.release ptr).obtain result size.toNat origin.frames
  | .free ptr => heap.release ptr

/-- The call of `mi_write_stack`, when the library's counter is `seqno`. -/
def stackCall (origin : Origin layout) (seqno : UInt32) : StackCall layout where
  object := origin.object
  info := origin.call.info
  frames := origin.frames
  pid := origin.pid
  seqno := seqno

end Origin

def stackCalls {layout : Layout} : UInt32 → List (Origin layout) → List (StackCall layout)
  | _, [] => []
  | seqno, origin :: origins => origin.stackCall seqno :: stackCalls (seqno + 1) origins

end Memprof.Pipeline
