import Memprof.Wire

/-! # `memintercept-utils.c`: `mi_vprintf`

On an LP64 system `int` has 32 bits, and `long`, `size_t` and pointers have 64.  A string is
its bytes with the terminating NUL, `p` and `q` are positions in it, and to read behind the
NUL is a fault.  What `write` returns is given as for `send`.
-/

namespace Memprof

/-- The byte of a character. -/
def byte (char : Char) : UInt8 := .ofNat char.toNat

/-- The bytes in front of the NUL. -/
abbrev ByteString := { text : List UInt8 // 0 ∉ text }

def ByteString.memory (string : ByteString) : List UInt8 := string.1 ++ [0]

def literal (chars : List Char) : List UInt8 := chars.map byte

/-! ## Writing -/

def Outlet.put (outlet : Outlet) (buf : List UInt8) : Outlet := (miWriteLoop outlet.sent outlet.results buf).1

/-- `write_all`, from the position `q` of an object; what it returns is never looked at. -/
def writeAll (outlet : Outlet) (memory : List UInt8) (q : ℕ) (total : BitVec 32) : Except Fault Outlet :=
  -- Nothing is written for a negative `total`.
  let count := total.toInt.toNat
  if q + count ≤ memory.length then .ok (outlet.put ((memory.drop q).take count))
  else .error .outOfBounds

/-- `while (tmp)`, the number of digits. -/
def countDigits (radix : ℕ) : ℕ → ℕ → Except Fault ℕ
  | _, 0 => .ok 0
  | 0, _ + 1 => .error .outOfFuel
  | fuel + 1, tmp => (countDigits radix fuel (tmp / radix)).map (· + 1)

def digitByte (c : ℕ) : UInt8 := if c < 10 then .ofNat c + byte '0' else .ofNat c + byte 'a' - 10

/-- `while (num)`: the digits are put into `buffer` from the last one on. -/
def putDigits (radix : ℕ) : ℕ → List (Option UInt8) → ℕ → ℕ → Except Fault (List (Option UInt8))
  | _, buffer, _, 0 => .ok buffer
  | 0, _, _, _ + 1 => .error .outOfFuel
  | _ + 1, _, 0, _ => .error .outOfBounds
  | fuel + 1, buffer, i + 1, num =>
    if i < buffer.length then putDigits radix fuel (buffer.set i (some (digitByte (num % radix)))) i (num / radix)
    else .error .outOfBounds

/-- What is written of the buffer must have been put there. -/
def readBuffer (buffer : List (Option UInt8)) (n : ℕ) : Except Fault (List UInt8) :=
  match (buffer.take n).mapM id with
  | some digits => .ok digits
  | none => .error .uninitialized

def writePrefix (outlet : Outlet) (radix : ℕ) : Except Fault Outlet :=
  if radix = 16 then writeAll outlet (literal ['0', 'x']) 0 2
  -- With the NUL of the literal; no directive has this radix.
  else if radix = 8 then writeAll outlet (literal ['0'] ++ [0]) 0 2
  else .ok outlet

def writeUnsigned (outlet : Outlet) (num : BitVec 64) (radix : ℕ) : Except Fault Outlet :=
  if num = 0 then writeAll outlet (literal ['0']) 0 1
  else do
    let outlet ← writePrefix outlet radix
    let n ← countDigits radix 64 num.toNat
    let buffer ← putDigits radix 64 (List.replicate 64 none) n num.toNat
    let digits ← readBuffer buffer n
    writeAll outlet digits 0 (.ofNat 32 n)

def writeSigned (outlet : Outlet) (num : BitVec 64) (radix : ℕ) : Except Fault Outlet :=
  if num.toInt < 0 then do
    let outlet ← writeAll outlet (literal ['-']) 0 1
    -- `num = -num`
    if num = .intMin 64 then .error .signedOverflow else writeUnsigned outlet (-num) radix
  else writeUnsigned outlet num radix

/-! ## The format -/

/-- An argument as it was passed: an `int` and an `unsigned int` are the same 32 bits. -/
inductive Argument where
  | int (bits : BitVec 32)
  | size (bits : BitVec 64)
  | pointer (address : BitVec 64)
  | string (text : Option ByteString)

namespace Argument

/-- `va_arg (va, int)`; an argument that is missing or of another kind has no value. -/
def vaInt : List Argument → Except Fault (BitVec 32 × List Argument)
  | .int bits :: va => .ok (bits, va)
  | _ => .error .uninitialized

def vaSize : List Argument → Except Fault (BitVec 64 × List Argument)
  | .size bits :: va => .ok (bits, va)
  | _ => .error .uninitialized

def vaPointer : List Argument → Except Fault (BitVec 64 × List Argument)
  | .pointer address :: va => .ok (address, va)
  | _ => .error .uninitialized

def vaString : List Argument → Except Fault (Option ByteString × List Argument)
  | .string text :: va => .ok (text, va)
  | _ => .error .uninitialized

end Argument

/-- The cases of the two `switch`. -/
inductive Letter where
  | z | d | u | x | p | s | percent | pid | nul | other
deriving DecidableEq, Repr

def Letter.ofByte (c : UInt8) : Letter :=
  if c = byte 'z' then .z
  else if c = byte 'd' then .d
  else if c = byte 'u' then .u
  else if c = byte 'x' then .x
  else if c = byte 'p' then .p
  else if c = byte 's' then .s
  else if c = byte '%' then .percent
  else if c = byte 'P' then .pid
  else if c = 0 then .nul
  else .other

def charAt (memory : List UInt8) (i : ℕ) : Except Fault UInt8 :=
  match memory[i]? with
  | some c => .ok c
  | none => .error .outOfBounds

/-- `strchr (p, '%')`, in what there is from position `p` on. -/
def strchrPercent : List UInt8 → ℕ → Except Fault (Option ℕ)
  | [], _ => .error .outOfBounds
  | c :: rest, p =>
    if c = byte '%' then .ok (some p)
    else if c = 0 then .ok none
    else strchrPercent rest (p + 1)

def strlen : List UInt8 → Except Fault ℕ
  | [] => .error .outOfBounds
  | c :: rest => if c = 0 then .ok 0 else (strlen rest).map (· + 1)

/-- The variables of `mi_vprintf`. -/
structure Printing where
  outlet : Outlet
  va : List Argument
  args : Option ByteString := none
  argl : BitVec 64 := 0

/-- The first `switch`, without the `z`. -/
def fetchArgument (letter : Letter) (isSize : Bool) (printing : Printing) : Except Fault Printing :=
  match letter with
  | .d | .u | .x =>
    if isSize then do
      let (argsize, va) ← Argument.vaSize printing.va
      .ok { printing with argl := argsize, va := va }
    else do
      let (argi, va) ← Argument.vaInt printing.va
      -- `argi` is an `int` for all three.
      .ok { printing with argl := argi.signExtend 64, va := va }
  | .p => do
    let (argp, va) ← Argument.vaPointer printing.va
    .ok { printing with argl := argp, va := va }
  | .s => do
    let (args, va) ← Argument.vaString printing.va
    .ok { printing with args := args, va := va }
  | .z | .percent | .pid | .nul | .other => .ok printing

def writeString (outlet : Outlet) (args : List UInt8) : Except Fault Outlet := do
  let length ← strlen args
  writeAll outlet args 0 (.ofNat 32 length)

/-- What the second `switch` writes, where `getpid` returns `pid`. -/
def writeArgument (pid : BitVec 32) (letter : Letter) (printing : Printing) : Except Fault Outlet :=
  match letter with
  | .percent => writeAll printing.outlet (literal ['%']) 0 1
  | .pid => writeSigned printing.outlet (pid.signExtend 64) 10
  | .d => writeSigned printing.outlet printing.argl 10
  | .u => writeUnsigned printing.outlet printing.argl 10
  | .p | .x => writeUnsigned printing.outlet printing.argl 16
  | .s => writeString printing.outlet (match printing.args with
    | some args => args.memory
    | none => literal ['(', 'n', 'u', 'l', 'l', ')'] ++ [0])
  -- Its `z` is never reached: the first `switch` has gone on.
  | .z | .nul | .other => .ok printing.outlet

/-- `again:`, for the position `p + 1`: behind all `z` with `q` moved along. -/
def again (memory : List UInt8) : ℕ → ℕ → ℕ → Bool → Except Fault (Letter × ℕ × Bool)
  | 0, _, _, _ => .error .outOfFuel
  | fuel + 1, p, q, isSize => do
    let c ← charAt memory p
    match Letter.ofByte c with
    | .z => again memory fuel (p + 1) (q + 1) true
    | letter => .ok (letter, q, isSize)

def miVprintfLoop (pid : BitVec 32) (memory : List UInt8) : ℕ → ℕ → ℕ → Printing → Except Fault Outlet
  | 0, _, _, _ => .error .outOfFuel
  | fuel + 1, p, q, printing => do
    match ← strchrPercent (memory.drop p) p with
    | none => do
      let length ← strlen (memory.drop q)
      writeAll printing.outlet memory q (.ofNat 32 length)
    | some p => do
      let outlet ← writeAll printing.outlet memory q (.ofInt 32 (p - q))
      let (letter, q, isSize) ← again memory memory.length (p + 1) (p + 2) false
      let printing ← fetchArgument letter isSize { printing with outlet := outlet }
      let outlet ← writeArgument pid letter printing
      -- At the end of the format `q` goes back to the NUL.
      let q := if letter = .nul then q - 1 else q
      miVprintfLoop pid memory fuel q q { printing with outlet := outlet }

def miVprintf (pid : BitVec 32) (outlet : Outlet) (format : ByteString) (va : List Argument) : Except Fault Outlet :=
  miVprintfLoop pid format.memory format.memory.length 0 0 { outlet := outlet, va := va }

end Memprof
