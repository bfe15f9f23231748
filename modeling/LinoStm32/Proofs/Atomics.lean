/-
The 64-bit atomics are atomic on one core, whatever interrupts whatever.

A section with PRIMASK set is a `Lib.Core` section, so a run of the core is
matched by one in which each call is a single step on the words
(`Lib.Core.run_atomic`). Each body, run with nothing in between, does to
the two words of an object what the function is for (`sem_view`), so that
run is one of `object` (`Lib.Atomic.run_view`).

# What follows

- `run_linearizable`: to every interleaving there is a run of the object
  with the same calls and returns in the same order.
- `run_fetchAdd`: no addition is lost.
- `unmasked_again`: interrupts are off for a bounded number of accesses,
  and PRIMASK is then what the caller had.
-/
import LinoStm32.Atomic64

namespace LinoStm32.Atomic64

open Lib (Code)

-- ============================================== words and 64-bit objects

/-- The objects that the words hold. -/
def view (m : Words) : Cells := fun p => m p.hi ++ m p.lo

namespace Ptr64

variable {p q : Ptr64}

/-- The words of an object, and of two. -/
theorem lo_ne_hi : p.lo ≠ q.hi := by
  intro h
  have hp := p.aligned
  have hq := q.aligned
  have hnat := congrArg BitVec.toNat h
  rw [lo, hi, BitVec.toNat_add, show BitVec.toNat (4 : BitVec 32) = 4 from rfl]
    at hnat
  omega

theorem lo_ne (h : p ≠ q) : p.lo ≠ q.lo := by
  intro heq
  cases p
  cases q
  cases heq
  exact h rfl

theorem hi_ne (h : p ≠ q) : p.hi ≠ q.hi := by
  intro heq
  exact lo_ne h (add_right_cancel heq)

end Ptr64

@[simp] theorem fetch_eval (p : Ptr64) (m : Words) :
    (fetch p).eval m = (view m p, m) := rfl

/-- The words after `*ptr = val`. -/
def stored (p : Ptr64) (val : BitVec 64) (m : Words) : Words :=
  Function.update (Function.update m p.lo (val.extractLsb' 0 32)) p.hi
    (val.extractLsb' 32 32)

@[simp] theorem put_eval (p : Ptr64) (val : BitVec 64) (m : Words) :
    (put p val).eval m = ((), stored p val m) := rfl

/-- One object is written, and no other. -/
@[simp] theorem view_stored (p : Ptr64) (val : BitVec 64) (m : Words) :
    view (stored p val m) = Function.update (view m) p val := by
  funext q
  rcases eq_or_ne q p with rfl | hne
  · rw [Function.update_self, view, stored, Function.update_self,
      Function.update_of_ne Ptr64.lo_ne_hi, Function.update_self]
    exact BitVec.extractLsb'_append_extractLsb'
  · rw [Function.update_of_ne hne, view, stored,
      Function.update_of_ne (Ptr64.hi_ne hne),
      Function.update_of_ne Ptr64.lo_ne_hi.symm,
      Function.update_of_ne Ptr64.lo_ne_hi,
      Function.update_of_ne (Ptr64.lo_ne hne)]
    rfl

/-- Each function does on the words what it is for. -/
theorem sem_view (o : Call) (m : Words) :
    ((Lib.Core.sem body o m).1, view (Lib.Core.sem body o m).2)
      = o.spec (view m) := by
  cases o with
  | load p => simp [Lib.Core.sem, body, atomicLoad8, Call.spec]
  | store p v => simp [Lib.Core.sem, body, atomicStore8, Call.spec]
  | exchange p v => simp [Lib.Core.sem, body, atomicExchange8, Call.spec]
  | compareExchange p e d =>
      by_cases h : view m p = view m e
      · simp [Lib.Core.sem, body, atomicCompareExchange8, Call.spec, h]
      · simp [Lib.Core.sem, body, atomicCompareExchange8, Call.spec, h]
  | fetchAdd p v => simp [Lib.Core.sem, body, atomicFetchAdd8, Call.spec]

-- ===================================================== every interleaving

variable {ι : Type} [DecidableEq ι] {s s' : Core ι}
  {as : List (Lib.Core.Act ι Bool Call Ret)}

/-- Nobody has called. -/
def idle (c : Cells) : Lib.Atomic ι Cells Call Ret := ⟨c, fun _ => .idle⟩

omit [DecidableEq ι] in
theorem view_idle (m : Words) :
    (Lib.Atomic.mk m fun _ => .idle).view view
      = (idle (view m) : Lib.Atomic ι Cells Call Ret) := rfl

/-- A run of the bodies on words is a run of the object. -/
theorem run_object {bs : List (Lib.Atomic.Act ι Call Ret)}
    {a b : Lib.Atomic ι Words Call Ret}
    (h : (Lib.Atomic.machine (Lib.Core.sem body) fun _ => True).run bs a
      = some b) :
    object.run bs (a.view view) = some (b.view view) :=
  Lib.Atomic.run_view sem_view h

/-- To every interleaving there is a run with each call one step, with the
same calls and returns; while interrupts are on, it has left the same
objects. -/
theorem run_linearizable (hs : core.start s)
    (hrun : core.run as s = some s') :
    ∃ bs c, object.run bs (idle (view s.mem)) = some c
      ∧ bs.filterMap Lib.Atomic.Act.event
          = as.filterMap Lib.Core.Act.event
      ∧ (s'.guard = false → c.mem = view s'.mem) := by
  obtain ⟨bs, hbs, hshow⟩ := Lib.Core.run_atomic hs hrun
  refine ⟨bs, s'.abs.view view, ?_, hshow, fun hfree => ?_⟩
  · rw [← view_idle, ← Lib.Core.abs_of_idle hs.2.2]
    exact run_object hbs
  · have hsound := Lib.Core.sound_of_reachable
      ((Lib.Machine.Reachable.start hs).run hrun)
    exact congrArg view (hsound.after_of_free hfree _)

-- ================================================== one run of two tasks

/-- A counter that carries into its high word. -/
def counter : Ptr64 := ⟨0x20000100, rfl⟩

/-- Before any call. -/
def quiet : Core (Fin 2) where
  mem w := if w = counter.lo then 0xFFFFFFFF else 0
  guard := false
  running := 0
  phase _ := .idle

theorem quiet_start : core.start quiet := ⟨trivial, rfl, fun _ => rfl⟩

/-- Both add, the second coming in between the read and the write of
PRIMASK by the first. -/
def overlapped : List (Lib.Core.Act (Fin 2) Bool Call Ret) :=
  [.invoke 0 (.fetchAdd counter 3), .exec, .switch 1,
    .invoke 1 (.fetchAdd counter 4), .exec, .exec, .exec, .exec, .exec,
    .exec, .exec, .ret 1 (.value 0xFFFFFFFF), .switch 0, .exec, .exec,
    .exec, .exec, .exec, .exec, .ret 0 (.value 0x100000003)]

theorem overlapped_runs :
    ((core.run overlapped quiet).map fun s =>
      (s.guard, s.mem counter.hi, s.mem counter.lo,
        decide (∀ t, (s.phase t).isIdle = true)))
      = some (false, 1, 6, true) := by
  decide +kernel

/-- The object saw two additions, one after the other. -/
theorem run_linearizable_overlapped :
    ∃ s' bs c, core.run overlapped quiet = some s'
      ∧ object.run bs (idle (view quiet.mem)) = some c
      ∧ bs.filterMap Lib.Atomic.Act.event
          = [.invoke (0 : Fin 2) (.fetchAdd counter 3),
            .invoke 1 (.fetchAdd counter 4), .ret 1 (.value 0xFFFFFFFF),
            .ret 0 (.value 0x100000003)]
      ∧ c.mem counter = 0x100000006 := by
  obtain ⟨s', hrun, hs'⟩ := Option.map_eq_some_iff.mp overlapped_runs
  obtain ⟨bs, c, hbs, hshow, hmem⟩ := run_linearizable quiet_start hrun
  have hguard : s'.guard = false := congrArg (fun x => x.1) hs'
  have hhi : s'.mem counter.hi = 1 := congrArg (fun x => x.2.1) hs'
  have hlo : s'.mem counter.lo = 6 := congrArg (fun x => x.2.2.1) hs'
  refine ⟨s', bs, c, hrun, hbs, hshow, ?_⟩
  rw [hmem hguard, view, hhi, hlo]
  rfl

-- ============================================================ no lost update

/-- What a call adds to an object. -/
def added (p : Ptr64) : Call → BitVec 64
  | .fetchAdd q v => if q = p then v else 0
  | _ => 0

/-- A call that adds to the object, or leaves it alone. -/
def Counts (p : Ptr64) (o : Call) : Prop :=
  ∀ c : Cells, (o.spec c).2 p = c p + added p o

theorem counts_fetchAdd (p q : Ptr64) (v : BitVec 64) :
    Counts p (.fetchAdd q v) := by
  intro c
  show Function.update c q (c q + v) p = c p + if q = p then v else 0
  by_cases h : q = p
  · rw [if_pos h, h, Function.update_self]
  · rw [if_neg h, Function.update_of_ne (Ne.symm h), add_zero]

theorem counts_load (p q : Ptr64) : Counts p (.load q) :=
  fun c => (add_zero (c p)).symm

theorem counts_store {p q : Ptr64} (h : p ≠ q) (v : BitVec 64) :
    Counts p (.store q v) := by
  intro c
  show Function.update c q v p = c p + 0
  rw [Function.update_of_ne h, add_zero]

omit [DecidableEq ι] in
theorem calling_idle (P : Call → Prop) (c : Cells) :
    (idle (ι := ι) c).Calling P := by
  intro t o h
  cases h

/-- When all have returned, a counter holds what was added to it. -/
theorem run_fetchAdd [Fintype ι] (p : Ptr64) (hs : core.start s)
    (hrun : core.run as s = some s')
    (hcounts : ∀ t o, .invoke t o ∈ as.filterMap Lib.Core.Act.event →
      Counts p o)
    (hidle : ∀ t, s'.phase t = .idle) :
    view s'.mem p = view s.mem p
      + ((as.filterMap Lib.Core.Act.event).map
          (Lib.Atomic.amount (added p))).sum := by
  obtain ⟨bs, hbs, hshow⟩ := Lib.Core.run_atomic hs hrun
  rw [← hshow] at hcounts ⊢
  rw [Lib.Core.abs_of_idle hs.2.2, Lib.Core.abs_of_idle hidle] at hbs
  have hobject := run_object hbs
  rw [view_idle, view_idle] at hobject
  have htotal := Lib.Atomic.run_total (q := fun c : Cells => c p)
    (d := added p) (P := Counts p) (fun o c h => h c)
    (calling_idle _ _) hcounts hobject
  rwa [Lib.Atomic.total_of_idle fun _ => rfl,
    Lib.Atomic.total_of_idle fun _ => rfl] at htotal

theorem run_fetchAdd_overlapped :
    ∃ s', core.run overlapped quiet = some s'
      ∧ view s'.mem counter = view quiet.mem counter + (3 + (4 + 0)) := by
  obtain ⟨s', hrun, hs'⟩ := Option.map_eq_some_iff.mp overlapped_runs
  have hidle : ∀ t, (s'.phase t).isIdle = true :=
    of_decide_eq_true (congrArg (fun x => x.2.2.2) hs')
  refine ⟨s', hrun, run_fetchAdd counter quiet_start hrun ?_
    fun t => Lib.Phase.eq_idle_of_isIdle (hidle t)⟩
  intro t o ho
  simp only [overlapped, Lib.Core.Act.event, List.filterMap] at ho
  rcases List.mem_cons.mp ho with h | ho
  · cases h
    exact counts_fetchAdd counter counter 3
  · rcases List.mem_cons.mp ho with h | ho
    · cases h
      exact counts_fetchAdd counter counter 4
    · simp at ho

-- ==================================================== interrupts come back

@[simp] theorem fetch_length (p : Ptr64) (m : Words) :
    (fetch p).length m = 2 := rfl

@[simp] theorem put_length (p : Ptr64) (v : BitVec 64) (m : Words) :
    (put p v).length m = 2 := rfl

/-- No function makes more than eight accesses with PRIMASK set. -/
theorem length_body (o : Call) (m : Words) : (body o).length m ≤ 8 := by
  cases o with
  | load p => simp [body, atomicLoad8]
  | store p v => simp [body, atomicStore8]
  | exchange p v => simp [body, atomicExchange8]
  | compareExchange p e d =>
      by_cases h : view m p = view m e
      · simp [body, atomicCompareExchange8, h]
      · simp [body, atomicCompareExchange8, h]
  | fetchAdd p v => simp [body, atomicFetchAdd8]

/-- While a task or handler is between `cs_enter` and `cs_exit` it is the
one that runs, no other is switched in, and within nine accesses it has its
result, with PRIMASK as it was when it called. -/
theorem unmasked_again (h : core.Reachable s) {t : ι} {o : Call}
    {g v : Bool} {c : Code Words Ret} (ht : s.phase t = .inside o g v c) :
    t = s.running ∧ (∀ u, core.apply (.switch u) s = none)
      ∧ ∃ n ≤ 9, ∃ s', core.run (List.replicate n .exec) s = some s'
          ∧ s'.guard = g ∧ ∃ r, s'.phase t = .left g r := by
  have hsound := Lib.Core.sound_of_reachable h
  obtain rfl := hsound.running_of_inside ht
  have hok := hsound s.running
  rw [ht, Lib.Core.own_running] at hok
  refine ⟨rfl, fun u => if_neg ?_, c.length s.mem + 1, ?_, ?_⟩
  · rw [hok.1]
    exact nofun
  · exact Nat.succ_le_succ
      (Lib.Core.short_of_reachable length_body h o g v c ht)
  · obtain ⟨s', hrun, -, hguard, hleft, -⟩ := hsound.run_out ht
    exact ⟨s', hrun, hguard, _, hleft⟩

/-- In the middle of an addition. -/
theorem unmasked_again_adding :
    ∃ s, core.run [.invoke 0 (.fetchAdd counter 3), .exec, .exec, .exec]
        quiet = some s
      ∧ (∀ u, core.apply (.switch u) s = none)
      ∧ ∃ n ≤ 9, ∃ s', core.run (List.replicate n .exec) s = some s'
          ∧ s'.guard = false ∧ ∃ r, s'.phase 0 = .left false r := by
  have hrun : ∃ s, core.run
        [.invoke 0 (.fetchAdd counter 3), .exec, .exec, .exec] quiet = some s
      ∧ ∃ o v c, s.phase 0 = .inside o false v c := ⟨_, rfl, _, _, _, rfl⟩
  obtain ⟨s, hs, o, v, c, hp⟩ := hrun
  exact ⟨s, hs,
    (unmasked_again (Lib.Machine.reachable_of_run quiet_start hs) hp).2⟩

end LinoStm32.Atomic64
