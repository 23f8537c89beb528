import Memprof.Server
import Memprof.Wire

/-! # What `control_func` is given

The calls of `accept` and `read` in front of the `switch` of `control_func`.  Both may
fail, and `read` may return fewer bytes than it is asked for.  `info` is an object of the
stack that nothing initializes.  What becomes of the new descriptor and of the written
answer is left out.
-/

namespace Memprof

open Library

/-- A `MIInfo` whose `fork` member is read; the size is one that an `int` holds. -/
structure ForkLayout where
  sizeofInfo : ℕ
  storeFork : Object sizeofInfo → MIInfoFork → Object sizeofInfo
  loadFork : Object sizeofInfo → MIInfoFork
  sizeofInfo_pos : 0 < sizeofInfo
  sizeofInfo_lt : sizeofInfo < 2 ^ 31
  loadFork_storeFork : ∀ object info, loadFork (storeFork object info) = info

/-- The members of a `MIInfoFork` on x86-64 are four `int`s in a row. -/
def storeForkLp64 (object : Object 48) (info : MIInfoFork) : Object 48 :=
  ⟨Bytes.littleEndian 4 info.operation.code.toNat ++ (Bytes.littleEndian 4 info.pid.toNat ++
    (Bytes.littleEndian 4 info.seqno.toNat ++ (Bytes.littleEndian 4 info.newPid.toNat ++ object.1.drop 16))),
    by simp [object.2]⟩

def loadForkLp64 (object : Object 48) : MIInfoFork :=
  let (operation, bytes) := Bytes.readField 4 object.1
  let (pid, bytes) := Bytes.readField 4 bytes
  let (seqno, bytes) := Bytes.readField 4 bytes
  let (newPid, _) := Bytes.readField 4 bytes
  { operation := .ofCode (.ofNat operation), pid := .ofNat pid, seqno := .ofNat seqno, newPid := .ofNat newPid }

theorem loadFork_storeFork_lp64 (object : Object 48) (info : MIInfoFork) :
    loadForkLp64 (storeForkLp64 object info) = info := by
  have word : ∀ number : UInt32, number.toNat < 256 ^ 4 := fun number => number.toNat_lt
  simp only [loadForkLp64, storeForkLp64, Bytes.readField_littleEndian (word _), UInt32.ofNat_toNat,
    MIOperation.ofCode_code]

theorem sizeofInfo_pos_lp64 : 0 < 48 := by decide

theorem sizeofInfo_lt_lp64 : 48 < 2 ^ 31 := by decide

def forkLp64 : ForkLayout where
  sizeofInfo := 48
  storeFork := storeForkLp64
  loadFork := loadForkLp64
  sizeofInfo_pos := sizeofInfo_pos_lp64
  sizeofInfo_lt := sizeofInfo_lt_lp64
  loadFork_storeFork := loadFork_storeFork_lp64

/-- What `read (fd, &object, n)` returns: an error, or bytes, none at the end of file. -/
inductive ReadResult (n : ℕ) where
  | failed
  | bytes (read : List UInt8) (fits : read.length ≤ n)

namespace ReadResult

variable {n : ℕ}

/-- The `int` that `control_func` keeps of it. -/
def count : ReadResult n → ℤ
  | .failed => -1
  | .bytes read _ => read.length

/-- The object afterwards: what was not read is as it was. -/
def into (object : Object n) : ReadResult n → Object n
  | .failed => object
  | .bytes read _ => object.overlay read

end ReadResult

/-- `control_func`, whose `accept` gives `newfd` if it succeeds and whose `info` holds
`info` when it is called.  The answer is what is written to `newfd`. -/
def World.controlInput (layout : ForkLayout) (world : World) (newfd : Option Channel)
    (result : ReadResult layout.sizeofInfo) (info : Object layout.sizeofInfo) : Except Fault (World × Option Bool) :=
  match newfd with
  | none => .ok (world, none)
  | some channel =>
    let info := result.into info
    -- An `int` compared with a `size_t` is converted to it: the count of an error is not small.
    if UInt64.ofInt result.count < UInt64.ofNat layout.sizeofInfo then .ok (world, some false)
    else (world.controlFunc channel (layout.loadFork info)).map fun (world, response) => (world, some response)

end Memprof
