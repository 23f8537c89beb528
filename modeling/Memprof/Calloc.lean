import Memprof.Types

/-! # `memintercept.c`: `do_malloc` and `do_calloc`

The two functions on either data model, with the conversions between `int` and `size_t`.
What the library finds when it is called, and the real `malloc`, are an `Interposed`.
-/

namespace Memprof

abbrev SizeT (model : DataModel) := BitVec model.bits

/-- A block of the real allocator. -/
structure Chunk (model : DataModel) where
  ptr : SizeT model
  nonNull : ptr ≠ 0
  bytes : List UInt8

/-- A `MIInfoAlloc`, without what `mi_write_stack` adds. -/
structure AllocInfo (model : DataModel) where
  operation : MIOperation
  oldPtr : SizeT model
  newPtr : SizeT model
  size : SizeT model

structure Interposed (model : DataModel) where
  /-- `mi_check_init ()` -/
  ready : Bool
  /-- `mi_tracing ()` -/
  tracing : Bool
  oldMalloc : SizeT model → Option (Chunk model)

section

variable {model : DataModel}

/-- What is returned, and what is reported. -/
def doMalloc (library : Interposed model) (size : SizeT model) : Option (Chunk model) × Option (AllocInfo model) :=
  -- `dlsym` can allocate while the library is being initialized.
  if library.ready then
    let result := library.oldMalloc size
    (result, if library.tracing then
        some { operation := .malloc, oldPtr := 0, newPtr := result.elim 0 Chunk.ptr, size := size }
      else none)
  else (none, none)

/-- `memset (ptr, 0, n)` -/
def memsetZero (chunk : Chunk model) (n : SizeT model) : Except Fault (Chunk model) :=
  if n.toNat ≤ chunk.bytes.length then
    .ok { chunk with bytes := List.replicate n.toNat 0 ++ chunk.bytes.drop n.toNat }
  else .error .outOfBounds

/-- `int total = nmemb * size` -/
def callocTotal (nmemb size : SizeT model) : BitVec 32 := (nmemb * size).setWidth 32

/-- `total` where a `size_t` is expected. -/
def callocRequest (nmemb size : SizeT model) : SizeT model := (callocTotal nmemb size).signExtend model.bits

def doCalloc (library : Interposed model) (nmemb size : SizeT model) :
    Except Fault (Option (Chunk model) × Option (AllocInfo model)) :=
  match doMalloc library (callocRequest nmemb size) with
  | (none, report) => .ok (none, report)
  | (some result, report) => do
    let result ← memsetZero result (callocRequest nmemb size)
    .ok (some result, report)

end

end Memprof
