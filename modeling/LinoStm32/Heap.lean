/-
The program break of `Src/sys_freertos.c`: `_sbrk`, which newlib's malloc
calls with the lock held, so one call after the other.

Addresses are 32-bit and their sums wrap; an increment is a signed 32-bit
number. The guard is read as it is written: only a positive increment is
tested, against the limit and against its own wrap.

# What is recorded

Next to the break, a state keeps the blocks that are out: a positive call
that succeeds hands out the block it returns, a negative one takes back
what lies from the new break on. Malloc never gives back more than it
holds: a call that would is not enabled.
-/
import LinoStm32.Lib.Machine
import LinoStm32.Lib.Region

namespace LinoStm32

-- ================================================================= _sbrk

/-- An address. -/
abbrev Addr := BitVec 32

/-- `errno`. -/
inductive Errno
  | enomem
  deriving DecidableEq

/-- The symbols of the linker script that `_sbrk` names: `end` and
`_estack`. -/
structure LinkerSymbols where
  endAddr : Addr
  estack : Addr

/-- `LINO_STACK_RESERVE`. -/
def linoStackReserve : Addr := 0x800

/-- `limit` of `_sbrk`. -/
def LinkerSymbols.limit (m : LinkerSymbols) : Addr :=
  m.estack - linoStackReserve

/-- `_sbrk`: what it returns, and `heap_end` afterwards. A refusal is
`(void *)-1` with `errno` set. -/
def sbrk (m : LinkerSymbols) (incr : BitVec 32) (heapEnd : Addr) :
    Except Errno Addr × Addr :=
  if 0 < incr.toInt ∧ (m.limit < heapEnd + incr ∨ heapEnd + incr < heapEnd)
  then (.error .enomem, heapEnd)
  else (.ok heapEnd, heapEnd + incr)

-- ========================================================= one call, any

section OneCall

variable {m : LinkerSymbols} {heapEnd : Addr} {incr : BitVec 32}

/-- Below half of the address space a positive increment cannot wrap. -/
theorem toNat_add_of_pos (h : heapEnd.toNat < 2 ^ 31)
    (hpos : 0 < incr.toInt) :
    (heapEnd + incr).toNat = heapEnd.toNat + incr.toNat := by
  have hincr := BitVec.toInt_eq_toNat_cond incr
  rw [BitVec.toNat_add]
  omega

/-- Nor does a release of no more than what lies below the break. -/
theorem toNat_add_of_nonpos (hneg : incr.toInt ≤ 0)
    (hle : (-incr.toInt).toNat ≤ heapEnd.toNat) :
    (heapEnd + incr).toNat = heapEnd.toNat - (-incr.toInt).toNat := by
  have hincr := BitVec.toInt_eq_toNat_cond incr
  rw [BitVec.toNat_add]
  omega

/-- A positive request that fits moves the break past it. -/
theorem sbrk_of_fits (hpos : 0 < incr.toInt) (h : heapEnd.toNat < 2 ^ 31)
    (hfits : heapEnd.toNat + incr.toNat ≤ m.limit.toNat) :
    sbrk m incr heapEnd = (.ok heapEnd, heapEnd + incr) := by
  have hsum := toNat_add_of_pos h hpos
  refine if_neg fun hrefused => ?_
  rcases hrefused.2 with hlt | hlt
  · rw [BitVec.lt_def, hsum] at hlt
    omega
  · rw [BitVec.lt_def, hsum] at hlt
    omega

/-- One that does not is refused. -/
theorem sbrk_of_not_fits (hpos : 0 < incr.toInt)
    (h : heapEnd.toNat < 2 ^ 31)
    (hfits : m.limit.toNat < heapEnd.toNat + incr.toNat) :
    sbrk m incr heapEnd = (.error .enomem, heapEnd) := by
  refine if_pos ⟨hpos, Or.inl ?_⟩
  rw [BitVec.lt_def, toNat_add_of_pos h hpos]
  exact hfits

/-- A release is never refused. -/
theorem sbrk_of_nonpos (hneg : incr.toInt ≤ 0) :
    sbrk m incr heapEnd = (.ok heapEnd, heapEnd + incr) :=
  if_neg fun hrefused => absurd hrefused.1 (not_lt.mpr hneg)

end OneCall

-- ============================================================== the calls

/-- The break, and the blocks that are out, the latest first. -/
structure Heap where
  heapEnd : Addr
  out : List (Lib.Block Nat)

namespace Heap

/-- How much is out. -/
def outstanding (s : Heap) : Nat := (s.out.map fun b => b.hi - b.lo).sum

/-- The block a successful positive request returns. -/
def block (p : Addr) (incr : BitVec 32) : Lib.Block Nat :=
  ⟨p.toNat, p.toNat + incr.toNat⟩

/-- What is out after a call that returned `ret`. -/
def outAfter (incr : BitVec 32) (ret : Except Errno Addr) (s : Heap) :
    List (Lib.Block Nat) :=
  match ret with
  | .error _ => s.out
  | .ok p =>
      if 0 < incr.toInt then block p incr :: s.out
      else Lib.cut (p.toNat - (-incr.toInt).toNat) s.out

/-- A call, unless it would release more than is out. -/
def call (m : LinkerSymbols) (incr : BitVec 32) (s : Heap) : Option Heap :=
  if s.outstanding < (-incr.toInt).toNat then none
  else
    let r := sbrk m incr s.heapEnd
    some { heapEnd := r.2, out := s.outAfter incr r.1 }

/-- Before the first call: `static char *heap_end = end`. -/
def start (m : LinkerSymbols) : Heap := ⟨m.endAddr, []⟩

end Heap

/-- Calls in sequence. -/
def heap (m : LinkerSymbols) : Lib.Machine Heap (BitVec 32) where
  start s := s = Heap.start m
  apply := Heap.call m

end LinoStm32
