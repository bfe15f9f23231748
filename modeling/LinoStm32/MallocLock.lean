/-
The heap lock of `Src/sys_freertos.c`, and the two tasks that share newlib's
heap through it.

newlib calls `__malloc_lock` before it touches its heap and
`__malloc_unlock` after. The one raises the count of scheduler suspensions
and the other lowers it; no task is switched in while it is not zero.
Interrupts are taken all the same, and may look at memory at any access.

newlib is not in the repository. What one of its calls does with the lock
held is any program over data of its own that calls `_sbrk`; `_sbrk` itself
is read access by access, since `heap_end` is a plain static.
-/
import LinoStm32.Heap
import LinoStm32.Lib.Section

namespace LinoStm32.MallocLock

open Lib (Code)

-- ================================================================= _sbrk

section Sbrk

variable {α ρ : Type} (l : LinkerSymbols) (incr : BitVec 32)

/-- A read of `heap_end`. -/
def heapEnd : Code (α × Heap) Addr := Code.read fun m => m.2.heapEnd

/-- The condition under which `_sbrk` refuses. -/
def refuses : Code (α × Heap) Bool := do
  if 0 < incr.toInt then
    let e ← heapEnd
    if l.limit < e + incr then
      return true
    else
      let e ← heapEnd
      let e' ← heapEnd
      return decide (e + incr < e')
  else
    return false

/-- `_sbrk`. The write of `heap_end` is where a block is handed out or
taken back. -/
def sbrkCode : Code (α × Heap) (Except Errno Addr) := do
  if ← refuses l incr then
    return .error .enomem
  else
    let prev ← heapEnd
    let e ← heapEnd
    Code.write fun m => (m.1,
      { heapEnd := e + incr, out := m.2.outAfter incr (.ok prev) })
    return .ok prev

end Sbrk

-- ================================================================ newlib

/-- What a call of newlib does with the lock held: accesses to its own
data, and calls of `_sbrk`. -/
inductive Newlib (α ρ : Type)
  | ret (r : ρ)
  | own (f : α → α) (k : α → Newlib α ρ)
  | sbrk (incr : BitVec 32) (k : Except Errno Addr → Newlib α ρ)

namespace Newlib

variable {α ρ : Type} (l : LinkerSymbols)

/-- Its accesses. -/
def code : Newlib α ρ → Code (α × Heap) ρ
  | ret r => .ret r
  | own f k => .access (fun m => (f m.1, m.2)) fun m => (k m.1).code
  | sbrk incr k => sbrkCode l incr >>= fun r => (k r).code

/-- The same with nothing in between and `_sbrk` as one call: what it
returns, and the heap it leaves. -/
def alone : Newlib α ρ → α × Heap → ρ × (α × Heap)
  | ret r, m => (r, m)
  | own f k, m => (k m.1).alone (f m.1, m.2)
  | sbrk incr k, m =>
      let r := LinoStm32.sbrk l incr m.2.heapEnd
      (k r.1).alone (m.1, { heapEnd := r.2, out := m.2.outAfter incr r.1 })

/-- It never gives back more than is out. -/
def GivesBack : Newlib α ρ → α × Heap → Prop
  | ret _, _ => True
  | own f k, m => (k m.1).GivesBack (f m.1, m.2)
  | sbrk incr k, m =>
      ∃ h, Heap.call l incr m.2 = some h
        ∧ (k (LinoStm32.sbrk l incr m.2.heapEnd).1).GivesBack (m.1, h)

end Newlib

-- ============================================================== the tasks

/-- `uxSchedulerSuspended`, as `vTaskSuspendAll` raises it and
`xTaskResumeAll` lowers it. -/
def suspended : Lib.Guard Nat where
  free := 0
  close n := n + 1
  reopen _ n := n - 1
  close_ne_free n := n.succ_ne_zero
  reopen_close _ := rfl

variable {ι α ω ρ : Type} [DecidableEq ι] [DecidableEq ρ]

/-- Tasks that call newlib, each call between `__malloc_lock` and
`__malloc_unlock`, from a heap that newlib has set up in its own data. -/
def tasks (l : LinkerSymbols) (prog : ω → Newlib α ρ) (fresh : α) :
    Lib.Machine (Lib.Core ι Nat (α × Heap) ω ρ) (Lib.Core.Act ι Nat ω ρ) :=
  Lib.Core.machine suspended (fun o => (prog o).code l)
    fun m => m = (fresh, Heap.start l)

end LinoStm32.MallocLock
