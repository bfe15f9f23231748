/-
The 64-bit atomics of `Src/microros_atomic64.c`, on a core whose memory is
reached in words of 32 bits: a `uint64_t` is two of them, so each access in
the source is two here, and an interrupt may fall between any two.

Each function saves PRIMASK, sets it, works on the object and puts PRIMASK
back. `cs_enter` is a read of the mask and, some time later, its write;
`cs_exit` writes back what was read. The bodies in between are below, under
the names of the functions.

The memory orders and `weak` are arguments the source discards.
-/
import LinoStm32.Lib.Section
import Mathlib.Data.BitVec

namespace LinoStm32.Atomic64

open Lib (Code)

-- ================================================================ memory

/-- The memory, by the address of a word. -/
abbrev Words := BitVec 32 → BitVec 32

/-- A `uint64_t *`, which is aligned. -/
structure Ptr64 where
  addr : BitVec 32
  aligned : addr.toNat % 8 = 0
  deriving DecidableEq

namespace Ptr64

/-- The low word comes first. -/
def lo (p : Ptr64) : BitVec 32 := p.addr

def hi (p : Ptr64) : BitVec 32 := p.addr + 4

end Ptr64

/-- `*ptr`, read. -/
def fetch (p : Ptr64) : Code Words (BitVec 64) := do
  let lo ← Code.read fun m => m p.lo
  let hi ← Code.read fun m => m p.hi
  return hi ++ lo

/-- `*ptr = val`. -/
def put (p : Ptr64) (val : BitVec 64) : Code Words Unit := do
  Code.write fun m => Function.update m p.lo (val.extractLsb' 0 32)
  Code.write fun m => Function.update m p.hi (val.extractLsb' 32 32)

-- ============================================================= the calls

/-- A call of one of the five functions. -/
inductive Call
  | load (ptr : Ptr64)
  | store (ptr : Ptr64) (val : BitVec 64)
  | exchange (ptr : Ptr64) (val : BitVec 64)
  | compareExchange (ptr exp : Ptr64) (des : BitVec 64)
  | fetchAdd (ptr : Ptr64) (val : BitVec 64)
  deriving DecidableEq

/-- What a call returns. -/
inductive Ret
  | void
  | value (v : BitVec 64)
  | flag (ok : Bool)
  deriving DecidableEq

/-- `__atomic_load_8`, between `cs_enter` and `cs_exit`. -/
def atomicLoad8 (ptr : Ptr64) : Code Words Ret := do
  let v ← fetch ptr
  return .value v

/-- `__atomic_store_8`. -/
def atomicStore8 (ptr : Ptr64) (val : BitVec 64) : Code Words Ret := do
  put ptr val
  return .void

/-- `__atomic_exchange_8`. -/
def atomicExchange8 (ptr : Ptr64) (val : BitVec 64) : Code Words Ret := do
  let o ← fetch ptr
  put ptr val
  return .value o

/-- `__atomic_compare_exchange_8`. A failure reads `*ptr` again for the
caller. -/
def atomicCompareExchange8 (ptr exp : Ptr64) (des : BitVec 64) :
    Code Words Ret := do
  let p ← fetch ptr
  let e ← fetch exp
  if p = e then
    put ptr des
    return .flag true
  else
    let p ← fetch ptr
    put exp p
    return .flag false

/-- `__atomic_fetch_add_8`. -/
def atomicFetchAdd8 (ptr : Ptr64) (val : BitVec 64) : Code Words Ret := do
  let o ← fetch ptr
  put ptr (o + val)
  return .value o

/-- What runs with the interrupts off. -/
def body : Call → Code Words Ret
  | .load ptr => atomicLoad8 ptr
  | .store ptr val => atomicStore8 ptr val
  | .exchange ptr val => atomicExchange8 ptr val
  | .compareExchange ptr exp des => atomicCompareExchange8 ptr exp des
  | .fetchAdd ptr val => atomicFetchAdd8 ptr val

-- ============================================================== one core

/-- `cs_enter` and `cs_exit`, with PRIMASK clear while interrupts, and so
task switches, are taken. -/
def primask : Lib.Guard Bool where
  free := false
  close _ := true
  reopen saved _ := saved
  close_ne_free _ := nofun
  reopen_close _ := rfl

variable {ι : Type} [DecidableEq ι]

/-- Tasks and interrupt handlers that call the functions. -/
abbrev Core (ι : Type) := Lib.Core ι Bool Words Call Ret

/-- In any memory. -/
def core : Lib.Machine (Core ι) (Lib.Core.Act ι Bool Call Ret) :=
  Lib.Core.machine primask body fun _ => True

-- ========================================================== what they are for

/-- Objects of 64 bits. -/
abbrev Cells := Ptr64 → BitVec 64

/-- What each function is for, on whole objects. -/
def Call.spec : Call → Cells → Ret × Cells
  | .load ptr, c => (.value (c ptr), c)
  | .store ptr val, c => (.void, Function.update c ptr val)
  | .exchange ptr val, c => (.value (c ptr), Function.update c ptr val)
  | .compareExchange ptr exp des, c =>
      if c ptr = c exp then (.flag true, Function.update c ptr des)
      else (.flag false, Function.update c exp (c ptr))
  | .fetchAdd ptr val, c =>
      (.value (c ptr), Function.update c ptr (c ptr + val))

/-- The same tasks over objects whose operations are single steps. -/
def object : Lib.Machine (Lib.Atomic ι Cells Call Ret)
    (Lib.Atomic.Act ι Call Ret) :=
  Lib.Atomic.machine Call.spec fun _ => True

end LinoStm32.Atomic64
