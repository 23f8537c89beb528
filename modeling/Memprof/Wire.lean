import Memprof.Library.Bytes
import Memprof.Intercept
import Memprof.Server

/-! # Messages as bytes

`mi_write_stack` and `exit_wait` on the one end of a channel, which write through
`mi_write`, and the loop of `input_func` on the other.  What a `MIInfo` looks like in
memory is a `Layout`, the same for both.  The channel is readable, and of
`g_io_channel_read_chars` the model keeps that it returns what was asked for unless the
bytes end first.
-/

namespace Memprof

open Library

/-- How the compiler lays out a `MIInfo` and a pointer; what no member covers stays as it
is when the members are stored. -/
structure Layout where
  sizeofInfo : ℕ
  sizeofAlloc : ℕ
  sizeofPointer : ℕ
  storeInfo : Object sizeofInfo → MIInfo → Object sizeofInfo
  loadInfo : Object sizeofInfo → MIInfo
  storePointer : Addr → Object sizeofPointer
  loadPointer : Object sizeofPointer → Addr
  sizeofInfo_pos : 0 < sizeofInfo
  sizeofAlloc_le : sizeofAlloc ≤ sizeofInfo
  loadInfo_storeInfo : ∀ object info, loadInfo (storeInfo object info) = info
  loadPointer_storePointer : ∀ address, loadPointer (storePointer address) = address

/-- The `int` of an operation. -/
def MIOperation.code : MIOperation → UInt32
  | .malloc => 0
  | .realloc => 1
  | .free => 2
  | .time => 3
  | .exec => 4
  | .new => 5
  | .fork => 6
  | .clone => 7
  | .exit => 8
  | .other value _ => value

def MIOperation.ofCode (code : UInt32) : MIOperation :=
  if unnamed : 9 ≤ code then .other code unnamed
  else
    match code.toNat with
    | 0 => .malloc
    | 1 => .realloc
    | 2 => .free
    | 3 => .time
    | 4 => .exec
    | 5 => .new
    | 6 => .fork
    | 7 => .clone
    | _ => .exit

theorem MIOperation.ofCode_code (operation : MIOperation) : MIOperation.ofCode operation.code = operation := by
  cases operation with
  | other value unnamed => rw [code, ofCode, dif_pos unnamed]
  | _ => rfl

/-- The members of a `MIInfoAlloc` on x86-64, with the four bytes after the seqno and the
four last ones that no member covers. -/
def storeInfoLp64 (object : Object 48) (info : MIInfo) : Object 48 :=
  ⟨Bytes.littleEndian 4 info.operation.code.toNat ++ (Bytes.littleEndian 4 info.pid.toNat ++
    (Bytes.littleEndian 4 info.seqno.toNat ++ ((object.1.drop 12).take 4 ++
    (Bytes.littleEndian 8 info.oldPtr.toNat ++ (Bytes.littleEndian 8 info.newPtr.toNat ++
    (Bytes.littleEndian 8 info.size.toNat ++ (Bytes.littleEndian 4 info.stackSize.toNat ++ object.1.drop 44))))))),
    by simp [object.2]⟩

def loadInfoLp64 (object : Object 48) : MIInfo :=
  let (operation, bytes) := Bytes.readField 4 object.1
  let (pid, bytes) := Bytes.readField 4 bytes
  let (seqno, bytes) := Bytes.readField 4 bytes
  let (_, bytes) := Bytes.readField 4 bytes
  let (oldPtr, bytes) := Bytes.readField 8 bytes
  let (newPtr, bytes) := Bytes.readField 8 bytes
  let (size, bytes) := Bytes.readField 8 bytes
  let (stackSize, _) := Bytes.readField 4 bytes
  { operation := .ofCode (.ofNat operation), pid := .ofNat pid, seqno := .ofNat seqno, oldPtr := .ofNat oldPtr,
    newPtr := .ofNat newPtr, size := .ofNat size, stackSize := .ofNat stackSize }

theorem loadInfo_storeInfo_lp64 (object : Object 48) (info : MIInfo) :
    loadInfoLp64 (storeInfoLp64 object info) = info := by
  have padding : ((object.1.drop 12).take 4).length = 4 := by simp [object.2]
  have word : ∀ number : UInt32, number.toNat < 256 ^ 4 := fun number => number.toNat_lt
  have long : ∀ number : UInt64, number.toNat < 256 ^ 8 := fun number => number.toNat_lt
  simp only [loadInfoLp64, storeInfoLp64, Bytes.readField_littleEndian (word _), Bytes.readField_littleEndian (long _),
    Bytes.readField_append padding, UInt32.ofNat_toNat, UInt64.ofNat_toNat, MIOperation.ofCode_code]

def lp64 : Layout where
  sizeofInfo := 48
  sizeofAlloc := 48
  sizeofPointer := 8
  storeInfo := storeInfoLp64
  loadInfo := loadInfoLp64
  storePointer address := ⟨Bytes.littleEndian 8 address.toNat, Bytes.length_littleEndian _ _⟩
  loadPointer object := .ofNat (Bytes.value object.1)
  sizeofInfo_pos := by decide
  sizeofAlloc_le := Nat.le_refl _
  loadInfo_storeInfo := loadInfo_storeInfo_lp64
  loadPointer_storePointer address := by
    have fits : address.toNat < 256 ^ 8 := address.toNat_lt
    rw [Bytes.value_littleEndian, Nat.mod_eq_of_lt fits, UInt64.ofNat_toNat]

/-! ## `mi_write` -/

/-- What a call of `send` returns: a count, of which it takes as many bytes if it is given
as many, or an error. -/
inductive SendResult where
  | sent (count : ℕ)
  | eintr
  | failed
deriving DecidableEq, Repr

/-- The end of a channel that is written to: the bytes sent and what the next calls of
`send` return.  When these are used up, `send` takes everything it is given. -/
structure Outlet where
  results : List SendResult := []
  sent : List UInt8 := []

/-- `while (written < total)`: `buf` is what is left to write. -/
def miWriteLoop (sent : List UInt8) : List SendResult → List UInt8 → Outlet × Bool
  | results, [] => (⟨results, sent⟩, true)
  | [], buf => (⟨[], sent ++ buf⟩, true)
  | .eintr :: results, buf => miWriteLoop sent results buf
  | .failed :: results, _ => (⟨results, sent⟩, false)
  | .sent count :: results, buf =>
    let count := min count buf.length
    -- `send` that takes nothing counts as a failure.
    if count = 0 then (⟨results, sent⟩, false)
    else miWriteLoop (sent ++ buf.take count) results (buf.drop count)

def miWrite (outlet : Outlet) (buf : List UInt8) : Outlet × Bool := miWriteLoop outlet.sent outlet.results buf

/-! ## `mi_write_stack` -/

def Layout.frames (layout : Layout) (frames : List Addr) : List UInt8 :=
  frames.flatMap fun address => (layout.storePointer address).1

/-- A call of `mi_write_stack` for the members `info` of `object`, when `getpid` returns
`pid` and the library's counter is `seqno`. -/
structure StackCall (layout : Layout) where
  object : Object layout.sizeofInfo
  info : MIInfo
  frames : List Addr
  pid : Pid
  seqno : UInt32

/-- The answer is whether the library goes on to trace. -/
def miWriteStack (layout : Layout) (outlet : Outlet) (call : StackCall layout) : Outlet × Bool :=
  match numberReport call.info call.frames.length call.pid call.seqno with
  | none => (outlet, true)
  | some info =>
    match miWrite outlet (layout.storeInfo call.object info).1 with
    -- Two writes: the channel may be closed between them.
    | (outlet, true) => miWrite outlet (layout.frames call.frames)
    | (outlet, false) => (outlet, false)

def miWriteStacks (layout : Layout) : Outlet → List (StackCall layout) → Outlet × Bool
  | outlet, [] => (outlet, true)
  | outlet, call :: calls =>
    match miWriteStack layout outlet call with
    | (outlet, true) => miWriteStacks layout outlet calls
    | (outlet, false) => (outlet, false)

def exitInfo (pid : Pid) (seqno : UInt32) : MIInfo := { operation := .exit, pid := pid, seqno := seqno }

/-- `exit_wait` up to the answer it waits for. -/
def exitWait (layout : Layout) (outlet : Outlet) (pid : Pid) (seqno : UInt32) : Outlet × Bool :=
  miWrite outlet (layout.storeInfo (Object.zero _) (exitInfo pid seqno)).1

/-- All that a thread writes on its channel; at exit it may have a last message. -/
def writeChannel (layout : Layout) (calls : List (StackCall layout)) (exit : Option (Pid × UInt32))
    (results : List SendResult) : Outlet × Bool :=
  match miWriteStacks layout { results := results } calls, exit with
  | (outlet, true), some (pid, seqno) => exitWait layout outlet pid seqno
  | written, _ => written

/-! ## `input_func` -/

def gIoChannelReadChars (bytes : List UInt8) (count : ℕ) : List UInt8 × List UInt8 :=
  (bytes.take count, bytes.drop count)

/-- `stack_buffer` as an array of pointers. -/
def Layout.loadFrames (layout : Layout) : ℕ → List UInt8 → List Addr
  | 0, _ => []
  | n + 1, bytes =>
    layout.loadPointer ((Object.zero _).overlay (bytes.take layout.sizeofPointer)) ::
      layout.loadFrames n (bytes.drop layout.sizeofPointer)

/-- The frames that come after `info`, of which `count` bytes were read. -/
def readFrames (layout : Layout) (info : MIInfo) (count : ℕ) (bytes : List UInt8) :
    Except Fault (List Addr × List UInt8) :=
  if CarriesStack info.operation then
    -- `g_assert (count >= sizeof (MIInfoAlloc))`
    if count < layout.sizeofAlloc then .error .assertion
    else
      let (buffer, bytes) := gIoChannelReadChars bytes (layout.sizeofPointer * info.stackSize.toNat)
      -- The count of this read is not looked at; what `g_alloca` gave is used as it is.
      if buffer.length < layout.sizeofPointer * info.stackSize.toNat then .error .uninitialized
      else .ok (layout.loadFrames info.stackSize.toNat buffer, bytes)
  else .ok ([], bytes)

/-- `memset (&info, 0, sizeof (info)); info.operation = -1;` -/
def blankInfo (layout : Layout) : Object layout.sizeofInfo :=
  layout.storeInfo (Object.zero _) { operation := .other (0 - 1) (by decide) }

/-- A call of `process_command` by `input_func`, and the state it is made in. -/
structure Handed where
  world : World
  info : MIInfo
  stack : StackPtr

/-- What one round of the loop leaves: the message it has handed on and, since
`process_command` writes over it, the operation that `info` has afterwards. -/
structure Round where
  world : World
  bytes : List UInt8
  handed : Handed
  operation : MIOperation

/-- The body of the loop, nothing at the end of the bytes. -/
def inputRound (layout : Layout) (world : World) (input : ProcId) (bytes : List UInt8) :
    Except Fault (Option Round) := do
  let (image, bytes) := gIoChannelReadChars bytes layout.sizeofInfo
  if image.length = 0 then .ok none
  else
    -- A short read leaves the rest of the record as `memset` and `-1` have made it.
    let info := layout.loadInfo ((blankInfo layout).overlay image)
    let (frames, bytes) ← readFrames layout info image.length bytes
    let (world, stack) ← world.prepareInput input info frames
    let root ← world.rootOf input
    let process ← world.process root
    let (blocks, process, after) ← processCommand world.blocks process info stack
    .ok (some {
      world := { world with blocks := blocks }.setProcess root process
      bytes := bytes
      handed := ⟨world, info, stack⟩
      operation := after.operation })

/-- What a call of `input_func` leaves, and whether its source stays. -/
structure Called where
  world : World
  bytes : List UInt8
  handed : List Handed
  stays : Bool

/-- `input_func`, whose channel has the given buffer conditions after its rounds and none
after more of them. -/
def inputFunc (layout : Layout) (watch : Watch) (conditions : List Bool) (world : World) (bytes : List UInt8) :
    Except Fault Called := do
  let round ← inputRound layout world watch.process bytes
  match round with
  | none => do
    let world ← world.inputEof watch
    .ok ⟨world, bytes, [], false⟩
  | some round =>
    match conditions with
    | [] => .ok ⟨round.world, round.bytes, [round.handed], true⟩
    | condition :: conditions =>
      -- `info` is the one `process_command` has written over.
      if round.operation ≠ .exit ∧ condition then do
        let called ← inputFunc layout watch conditions round.world round.bytes
        .ok { called with handed := round.handed :: called.handed }
      else .ok ⟨round.world, round.bytes, [round.handed], true⟩

/-- The calls of `input_func` until its source goes: `others n` is what the profiler does
before call `n`, which has the buffer conditions `conditions n`. -/
def inputCalls (layout : Layout) (watch : Watch) (conditions : ℕ → List Bool) (others : ℕ → World → World) :
    ℕ → ℕ → World → List UInt8 → Except Fault (World × List UInt8 × List Handed)
  | 0, _, _, _ => .error .outOfFuel
  | fuel + 1, n, world, bytes => do
    let called ← inputFunc layout watch (conditions n) (others n world) bytes
    if called.stays then do
      let (world, bytes, handed) ← inputCalls layout watch conditions others fuel (n + 1) called.world called.bytes
      .ok (world, bytes, called.handed ++ handed)
    else .ok (called.world, called.bytes, called.handed)

end Memprof
