/-
Two tasks allocate, and the heap is what it would be under one.

`_sbrk` reads `heap_end` several times and then adds to it, none of which
is one access. It needs no guard of its own because a task that is inside
newlib is the one that runs: what it reads is what it then adds to. So each
`_sbrk`, access by access, is the one call of `LinoStm32.sbrk`
(`sbrkCode_eval`), and at every access, also of an interrupt's, the heap is
one that calls in sequence reach (`sbrkCode_always`).

What newlib's own calls do is asked of each of them run alone (`Keeps`):
that it keeps newlib's invariant, and gives back no more than is out. `pool`
is an allocator that does.
-/
import LinoStm32.MallocLock
import LinoStm32.Proofs.HeapBreak

namespace LinoStm32.MallocLock

open Lib (Code)

variable {α ρ : Type} {l : LinkerSymbols} {incr : BitVec 32}
  {m : α × Heap}

-- ==================================================== _sbrk, access by access

theorem heapEnd_eval : heapEnd.eval m = (m.2.heapEnd, m) := rfl

/-- The three reads of the condition see one value. -/
theorem refuses_eval :
    (refuses l incr).eval m
      = (decide (0 < incr.toInt
          ∧ (l.limit < m.2.heapEnd + incr
            ∨ m.2.heapEnd + incr < m.2.heapEnd)), m) := by
  unfold refuses
  by_cases hpos : 0 < incr.toInt
  · rw [if_pos hpos]
    by_cases hlimit : l.limit < m.2.heapEnd + incr
    · simp [heapEnd_eval, hpos, hlimit]
    · simp only [heapEnd_eval, hpos, hlimit, if_false, Code.eval_bind,
        Code.eval_pure, true_and, false_or]
      exact congrArg (·, m) (Bool.decide_congr Iff.rfl)
  · rw [if_neg hpos]
    simp [hpos]

/-- What `_sbrk` does with nothing in between. -/
theorem sbrkCode_eval :
    (sbrkCode l incr).eval m
      = ((sbrk l incr m.2.heapEnd).1,
          (m.1, { heapEnd := (sbrk l incr m.2.heapEnd).2,
                  out := m.2.outAfter incr (sbrk l incr m.2.heapEnd).1 })) := by
  unfold sbrkCode sbrk
  rw [Code.eval_bind, refuses_eval]
  by_cases h : 0 < incr.toInt
      ∧ (l.limit < m.2.heapEnd + incr ∨ m.2.heapEnd + incr < m.2.heapEnd)
  · rw [if_pos h, if_pos (decide_eq_true h)]
    rfl
  · rw [if_neg h, if_neg (by simpa using h)]
    rfl

/-- A call that releases no more than is out is a call of the machine of
calls in sequence. -/
theorem call_of_sbrk {h : Heap} (hcall : Heap.call l incr m.2 = some h) :
    h = { heapEnd := (sbrk l incr m.2.heapEnd).2,
          out := m.2.outAfter incr (sbrk l incr m.2.heapEnd).1 } := by
  unfold Heap.call at hcall
  split at hcall
  · cases hcall
  · exact (Option.some.inj hcall).symm

variable {I : Heap → Prop}

/-- A read of `heap_end` writes nothing. -/
theorem heapEnd_bind_always {β : Type} {g : Addr → Code (α × Heap) β}
    (h : I m.2) (hg : (g m.2.heapEnd).Always (fun m => I m.2) m) :
    (heapEnd >>= g).Always (fun m => I m.2) m :=
  (Code.always_read (I := fun m : α × Heap => I m.2) _ h).bind hg

/-- Nor does the condition. -/
theorem refuses_always (h : I m.2) :
    (refuses l incr).Always (fun m => I m.2) m := by
  unfold refuses
  by_cases hpos : 0 < incr.toInt
  · rw [if_pos hpos]
    refine heapEnd_bind_always h ?_
    by_cases hlimit : l.limit < m.2.heapEnd + incr
    · rw [if_pos hlimit]
      exact h
    · rw [if_neg hlimit]
      exact heapEnd_bind_always h (heapEnd_bind_always h h)
  · rw [if_neg hpos]
    exact h

/-- `_sbrk` has one access that changes the heap, and it is the whole
call. -/
theorem sbrkCode_always (h : I m.2)
    (hafter : I ((sbrkCode l incr).eval m).2.2) :
    (sbrkCode l incr).Always (fun m => I m.2) m := by
  rw [sbrkCode, Code.eval_bind] at hafter
  refine (refuses_always h).bind ?_
  rw [refuses_eval] at hafter ⊢
  split at hafter
  · next hrefused => rwa [if_pos hrefused]
  · next hrefused =>
    rw [if_neg hrefused]
    refine heapEnd_bind_always h (heapEnd_bind_always h ?_)
    exact (Code.always_write (I := fun m : α × Heap => I m.2) h hafter).bind
      hafter

-- ================================================================= newlib

namespace Newlib

/-- A call with nothing in between. -/
theorem code_eval (p : Newlib α ρ) (m : α × Heap) :
    (p.code l).eval m = p.alone l m := by
  induction p generalizing m with
  | ret r => rfl
  | own f k ih => exact ih m.1 _
  | sbrk incr k ih =>
      show (sbrkCode l incr >>= fun r => (k r).code l).eval m = _
      rw [Code.eval_bind, sbrkCode_eval]
      exact ih _ _

/-- A call that gives back no more than is out keeps what every call of
`_sbrk` keeps, at every access. -/
theorem code_always (p : Newlib α ρ) (m : α × Heap)
    (hI : ∀ incr h h', I h → Heap.call l incr h = some h' → I h')
    (h : I m.2) (hgives : p.GivesBack l m) :
    (p.code l).Always (fun m => I m.2) m := by
  induction p generalizing m with
  | ret r => exact h
  | own f k ih => exact ⟨h, ih m.1 _ h hgives⟩
  | sbrk incr k ih =>
      obtain ⟨h', hcall, hrest⟩ := hgives
      have hh' : I h' := hI incr m.2 h' h hcall
      obtain rfl := call_of_sbrk hcall
      refine (sbrkCode_always h ?_).bind ?_
      · rw [sbrkCode_eval]
        exact hh'
      · rw [sbrkCode_eval]
        exact ih _ _ hh' hrest

end Newlib

-- ============================================================== the tasks

section Tasks

variable {ι ω : Type} [DecidableEq ι] [DecidableEq ρ]
  {prog : ω → Newlib α ρ} {fresh : α} {s s' : Lib.Core ι Nat (α × Heap) ω ρ}

/-- newlib keeps, when it runs alone, a property of its heap under which it
never gives back more than is out. -/
structure Keeps (l : LinkerSymbols) (prog : ω → Newlib α ρ) (fresh : α)
    (J : α × Heap → Prop) : Prop where
  start : J (fresh, Heap.start l)
  call : ∀ o m, J m → J ((prog o).alone l m).2
  givesBack : ∀ o m, J m → (prog o).GivesBack l m

/-- Between any two accesses of tasks that allocate, the heap is one that
calls of `_sbrk` in sequence reach, inside its region and with no address
out twice; and while no task is inside newlib, newlib's own data is as it
left it. -/
theorem heap_shared {J : α × Heap → Prop} (hl : l.Laid)
    (hJ : Keeps l prog fresh J) (h : (tasks l prog fresh).Reachable s) :
    (heap l).Reachable s.mem.2
      ∧ l.endAddr ≤ s.mem.2.heapEnd ∧ s.mem.2.heapEnd ≤ l.limit
      ∧ s.mem.2.out.Pairwise Lib.Block.Apart
      ∧ (s.guard = 0 → J s.mem) := by
  have hheld := Lib.Core.held_of_reachable
    (I := fun m => (heap l).Reachable m.2) (J := J) ?_ ?_ h
  · have hreach := hheld.now
    have habs := Heap.abstracts_of_reachable hl hreach
    refine ⟨hreach, habs.bounds.1, habs.bounds.2, ?_, fun hfree => ?_⟩
    · obtain ⟨r, -, hout⟩ := habs
      rw [← hout]
      exact r.tiles.pairwise_apart
    · have hsound := Lib.Core.sound_of_reachable h
      exact ((hsound.held_of_free hfree s.running).mp hheld).2
  · rintro m rfl
    exact ⟨.start rfl, hJ.start⟩
  · intro o m hI hJm
    refine ⟨(prog o).code_always m ?_ hI (hJ.givesBack o m hJm), ?_⟩
    · intro incr h h' hh hcall
      exact hh.step incr hcall
    · rw [Newlib.code_eval]
      exact hJ.call o m hJm

/-- To every interleaving there is a run in which each call of newlib is
made alone, with the same calls and the same returns in the same order. -/
theorem run_alone {as : List (Lib.Core.Act ι Nat ω ρ)}
    (hs : (tasks l prog fresh).start s)
    (hrun : (tasks l prog fresh).run as s = some s') :
    ∃ bs c, (Lib.Atomic.machine (fun o => (prog o).alone l)
        fun m => m = (fresh, Heap.start l)).run bs
          ⟨(fresh, Heap.start l), fun _ => .idle⟩ = some c
      ∧ bs.filterMap Lib.Atomic.Act.event
          = as.filterMap Lib.Core.Act.event
      ∧ (s'.guard = 0 → c.mem = s'.mem) := by
  obtain ⟨bs, hbs, hshow⟩ := Lib.Core.run_atomic hs hrun
  have hsem : Lib.Core.sem (fun o => (prog o).code l)
      = fun o => (prog o).alone l :=
    funext fun o => funext fun m => (prog o).code_eval m
  refine ⟨bs, s'.abs, ?_, hshow, fun hfree => ?_⟩
  · rw [Lib.Core.abs_of_idle hs.2.2, hs.1, hsem] at hbs
    exact hbs
  · have hsound := Lib.Core.sound_of_reachable
      ((Lib.Machine.Reachable.start hs).run hrun)
    exact hsound.after_of_free hfree _

end Tasks

-- ============================================== two tasks and an allocator

/-- What its callers ask of an allocator. -/
inductive Pool
  | take
  | giveBack
  deriving DecidableEq

/-- An allocator of blocks of 256 bytes, which keeps how many are out: it
takes each from `_sbrk`, and gives the topmost back to it. -/
def pool : Pool → Newlib Nat (Option Addr)
  | .take => .sbrk 0x100 fun
      | .error _ => .ret none
      | .ok p => .own (· + 1) fun _ => .ret (some p)
  | .giveBack => .own (· - 1) fun held =>
      if held = 0 then .ret none
      else .sbrk (-0x100) fun _ => .ret none

/-- Its count is right: so many blocks lie between `end` and the break. -/
def Counted (l : LinkerSymbols) (m : Nat × Heap) : Prop :=
  Heap.Abstracts l m.2
    ∧ m.2.heapEnd.toNat = l.endAddr.toNat + 0x100 * m.1

/-- What is out is what it counts. -/
theorem Counted.outstanding {m : Nat × Heap} (h : Counted l m) :
    m.2.outstanding = 0x100 * m.1 := by
  rw [h.1.outstanding, h.2, Nat.add_sub_cancel_left]

/-- A call of `_sbrk` that is enabled, as one step of the heap. -/
theorem sbrk_call {h : Heap}
    (hle : (-incr.toInt).toNat ≤ h.outstanding) :
    Heap.call l incr h = some
      { heapEnd := (sbrk l incr h.heapEnd).2,
        out := h.outAfter incr (sbrk l incr h.heapEnd).1 } :=
  if_neg (not_lt.mpr hle)

/-- A block taken is counted, unless there was no room. -/
theorem Counted.take (hl : l.Laid) {m : Nat × Heap} (h : Counted l m) :
    Counted l ((pool .take).alone l m).2 := by
  obtain ⟨habs, hcount⟩ := h
  have hpos : 0 < (0x100 : BitVec 32).toInt := by decide
  have hle : (-(0x100 : BitVec 32).toInt).toNat ≤ m.2.outstanding :=
    Nat.zero_le _
  have hafter := habs.call hl (sbrk_call hle)
  rcases le_or_gt (m.2.heapEnd.toNat + 0x100) l.limit.toNat
    with hfits | hfits
  · have hok := sbrk_of_fits hpos (habs.lt_half hl) hfits
    have hsum := toNat_add_of_pos (habs.lt_half hl) hpos
    rw [hok] at hafter
    rw [pool, Newlib.alone, hok]
    refine ⟨hafter, ?_⟩
    show (m.2.heapEnd + 0x100).toNat = _ + 0x100 * (m.1 + 1)
    rw [hsum, hcount, Nat.mul_succ, Nat.add_assoc]
    rfl
  · have hno := sbrk_of_not_fits hpos (habs.lt_half hl) hfits
    rw [hno] at hafter
    rw [pool, Newlib.alone, hno]
    exact ⟨hafter, hcount⟩

/-- A block given back is there to be given back, and counted no more. -/
theorem Counted.giveBack (hl : l.Laid) {m : Nat × Heap}
    (h : Counted l m) :
    Counted l ((pool .giveBack).alone l m).2
      ∧ (pool .giveBack).GivesBack l m := by
  obtain ⟨held, hp⟩ := m
  cases held with
  | zero => exact ⟨h, trivial⟩
  | succ n =>
      have hcount : hp.heapEnd.toNat
          = l.endAddr.toNat + 0x100 * (n + 1) := h.2
      have hle : (-(-0x100 : BitVec 32).toInt).toNat ≤ hp.outstanding := by
        rw [h.outstanding]
        show 0x100 ≤ 0x100 * (n + 1)
        omega
      have hcall := sbrk_call (l := l) hle
      have hneg : (-0x100 : BitVec 32).toInt ≤ 0 := by decide
      have hsize : (-(-0x100 : BitVec 32).toInt).toNat = 0x100 := by decide
      refine ⟨⟨h.1.call hl hcall, ?_⟩, _, hcall, trivial⟩
      show (sbrk l (-0x100) hp.heapEnd).2.toNat = _ + 0x100 * n
      rw [sbrk_of_nonpos hneg]
      show (hp.heapEnd + -0x100).toNat = _
      rw [toNat_add_of_nonpos hneg (by omega), hsize]
      omega

/-- So each of its calls, run alone, keeps the count right and gives back
no more than is out. -/
theorem pool_keeps (hl : l.Laid) : Keeps l pool 0 (Counted l) := by
  refine ⟨⟨Heap.abstracts_start hl, rfl⟩, ?_, ?_⟩
  · intro o m hm
    cases o with
    | take => exact hm.take hl
    | giveBack => exact (hm.giveBack hl).1
  · intro o m hm
    cases o with
    | take =>
        refine ⟨_, sbrk_call (Nat.zero_le _), ?_⟩
        cases (sbrk l 0x100 m.2.heapEnd).1 with
        | error e => trivial
        | ok p => trivial
    | giveBack => exact (hm.giveBack hl).2

/-- The two tasks. -/
inductive Task
  | control
  | uros
  deriving DecidableEq

/-- Neither has allocated. -/
def bothIdle : Lib.Core Task Nat (Nat × Heap) Pool (Option Addr) where
  mem := (0, Heap.start Heap.f446reSymbols)
  guard := 0
  running := .control
  phase _ := .idle

/-- `uros_task` is switched in while `control_task` is about to suspend the
scheduler, and allocates first. Then it gives a block back. -/
def bothAllocate : List (Lib.Core.Act Task Nat Pool (Option Addr)) :=
  List.flatten [
    [.invoke .control .take, .exec, .switch .uros, .invoke .uros .take],
    List.replicate 10 .exec,
    [.ret .uros (some 0x20010000), .switch .control],
    List.replicate 9 .exec,
    [.ret .control (some 0x20010100), .switch .uros,
      .invoke .uros .giveBack],
    List.replicate 7 .exec, [.ret .uros none]]

theorem bothAllocate_runs :
    (((tasks Heap.f446reSymbols pool 0).run bothAllocate bothIdle).map
      fun s => (s.guard, s.mem.1, s.mem.2.out))
      = some (0, 1, [⟨0x20010000, 0x20010100⟩]) := by
  decide +kernel

theorem bothIdle_start :
    (tasks Heap.f446reSymbols pool 0).start bothIdle :=
  ⟨rfl, rfl, fun _ => rfl⟩

/-- Of the two blocks taken one is out, and the allocator knows. -/
theorem heap_shared_both :
    ∃ s, (tasks Heap.f446reSymbols pool 0).run bothAllocate bothIdle = some s
      ∧ s.mem.2.out = [⟨0x20010000, 0x20010100⟩]
      ∧ (heap Heap.f446reSymbols).Reachable s.mem.2
      ∧ Heap.f446reSymbols.endAddr ≤ s.mem.2.heapEnd
      ∧ s.mem.2.heapEnd ≤ Heap.f446reSymbols.limit
      ∧ s.mem.2.out.Pairwise Lib.Block.Apart
      ∧ Counted Heap.f446reSymbols s.mem := by
  obtain ⟨s, hs, hfacts⟩ := Option.map_eq_some_iff.mp bothAllocate_runs
  obtain ⟨hguard, hmem⟩ := Prod.mk.inj hfacts
  obtain ⟨hreach, hlow, hhigh, hapart, hcounted⟩ :=
    heap_shared Heap.f446reSymbols_laid (pool_keeps Heap.f446reSymbols_laid)
      (Lib.Machine.reachable_of_run bothIdle_start hs)
  exact ⟨s, hs, congrArg Prod.snd hmem, hreach, hlow, hhigh, hapart,
    hcounted hguard⟩

/-- The block of `uros_task` comes first. -/
theorem run_alone_both :
    ∃ bs c, (Lib.Atomic.machine
        (fun o => (pool o).alone Heap.f446reSymbols)
        fun m => m = (0, Heap.start Heap.f446reSymbols)).run bs
          ⟨(0, Heap.start Heap.f446reSymbols), fun _ => .idle⟩ = some c
      ∧ bs.filterMap Lib.Atomic.Act.event
          = [.invoke Task.control .take, .invoke .uros .take,
            .ret .uros (some 0x20010000), .ret .control (some 0x20010100),
            .invoke .uros .giveBack, .ret .uros none]
      ∧ c.mem.2.out = [⟨0x20010000, 0x20010100⟩] := by
  obtain ⟨s, hs, hfacts⟩ := Option.map_eq_some_iff.mp bothAllocate_runs
  obtain ⟨hguard, hheap⟩ := Prod.mk.inj hfacts
  obtain ⟨bs, c, hbs, hshow, hmem⟩ := run_alone bothIdle_start hs
  refine ⟨bs, c, hbs, hshow, ?_⟩
  rw [hmem hguard]
  exact congrArg Prod.snd hheap

end LinoStm32.MallocLock
