/-
Threads that share a memory through operations each of which is one step:
a thread calls, at some later point the operation happens, and later still
the thread has its result. What a caller sees are the calls and returns.

Any object whose operations take several steps may be compared with this
one: it is as good when to each of its runs there is one here with the
same events.

# What is proved once for all of them

- `run_view`: a reading of the memory that the operations respect carries
  runs over, events and all.
- `run_total`: a quantity to which each operation adds an amount of its own
  gains, over a run, what the calls announce, less what is under way.
-/
import LinoStm32.Lib.Machine
import Mathlib.Algebra.BigOperators.Group.Finset.Piecewise

namespace LinoStm32.Lib

/-- The calls and returns, which is what a caller sees. -/
inductive Event (ι ω ρ : Type)
  | invoke (t : ι) (o : ω)
  | ret (t : ι) (r : ρ)
  deriving DecidableEq

-- ============================================================ the machine

/-- Where a thread stands in a call that is one step. -/
inductive APhase (ω ρ : Type)
  | idle
  | called (o : ω)
  | done (r : ρ)

/-- The memory and the threads. -/
structure Atomic (ι μ ω ρ : Type) where
  mem : μ
  phase : ι → APhase ω ρ

/-- Calls, the one step each takes, and returns. -/
inductive Atomic.Act (ι ω ρ : Type)
  | invoke (t : ι) (o : ω)
  | commit (t : ι)
  | ret (t : ι) (r : ρ)

/-- What an action shows. -/
def Atomic.Act.event {ι ω ρ : Type} : Act ι ω ρ → Option (Event ι ω ρ)
  | invoke t o => some (.invoke t o)
  | commit _ => none
  | ret t r => some (.ret t r)

namespace Atomic

variable {ι μ ω ρ : Type} [DecidableEq ι] [DecidableEq ρ]

/-- A thread moves on. -/
def move (s : Atomic ι μ ω ρ) (t : ι) (p : APhase ω ρ) : Atomic ι μ ω ρ :=
  { s with phase := Function.update s.phase t p }

/-- One action: `sem` is what an operation returns and leaves. -/
def step (sem : ω → μ → ρ × μ) :
    Act ι ω ρ → Atomic ι μ ω ρ → Option (Atomic ι μ ω ρ)
  | .invoke t o, s =>
      match s.phase t with
      | .idle => some (s.move t (.called o))
      | _ => none
  | .commit t, s =>
      match s.phase t with
      | .called o =>
          some { s.move t (.done (sem o s.mem).1) with
            mem := (sem o s.mem).2 }
      | _ => none
  | .ret t r, s =>
      match s.phase t with
      | .done r' => if r = r' then some (s.move t .idle) else none
      | _ => none

/-- The machine, from a memory of its own choice. -/
def machine (sem : ω → μ → ρ × μ) (start : μ → Prop) :
    Machine (Atomic ι μ ω ρ) (Act ι ω ρ) where
  start s := start s.mem ∧ ∀ t, s.phase t = .idle
  apply := step sem

variable {sem : ω → μ → ρ × μ} {s s' : Atomic ι μ ω ρ}

/-- What each action does. -/
theorem step_cases {a : Act ι ω ρ} (h : step sem a s = some s') :
    (∃ t o, a = .invoke t o ∧ s.phase t = .idle
      ∧ s' = s.move t (.called o))
    ∨ (∃ t o, a = .commit t ∧ s.phase t = .called o
      ∧ s' = { s.move t (.done (sem o s.mem).1) with
          mem := (sem o s.mem).2 })
    ∨ (∃ t r, a = .ret t r ∧ s.phase t = .done r
      ∧ s' = s.move t .idle) := by
  cases a with
  | invoke t o =>
      rw [step] at h
      cases hp : s.phase t with
      | idle =>
          rw [hp] at h
          exact Or.inl ⟨t, o, rfl, hp, (Option.some.inj h).symm⟩
      | called => rw [hp] at h; cases h
      | done => rw [hp] at h; cases h
  | commit t =>
      rw [step] at h
      cases hp : s.phase t with
      | called o =>
          rw [hp] at h
          exact Or.inr (Or.inl ⟨t, o, rfl, hp, (Option.some.inj h).symm⟩)
      | idle => rw [hp] at h; cases h
      | done => rw [hp] at h; cases h
  | ret t r =>
      rw [step] at h
      cases hp : s.phase t with
      | done r' =>
          rw [hp] at h
          obtain ⟨hr, h⟩ := Option.ite_none_right_eq_some.mp h
          exact Or.inr (Or.inr
            ⟨t, r, rfl, hr ▸ hp, (Option.some.inj h).symm⟩)
      | idle => rw [hp] at h; cases h
      | called => rw [hp] at h; cases h

/-- The one step of an operation. -/
theorem step_commit {t : ι} {o : ω} (hp : s.phase t = .called o) :
    step sem (.commit t) s
      = some { s.move t (.done (sem o s.mem).1) with
          mem := (sem o s.mem).2 } := by
  rw [step, hp]

/-- The same state over another reading of the memory. -/
def view {ν : Type} (f : μ → ν) (s : Atomic ι μ ω ρ) : Atomic ι ν ω ρ where
  mem := f s.mem
  phase := s.phase

section View

variable {ν : Type} {f : μ → ν} {sem' : ω → ν → ρ × ν}

/-- A reading that the operations respect carries steps over. -/
theorem step_view (hf : ∀ o m, ((sem o m).1, f (sem o m).2) = sem' o (f m))
    {a : Act ι ω ρ} (h : step sem a s = some s') :
    step sem' a (s.view f) = some (s'.view f) := by
  rcases step_cases h with ⟨t, o, rfl, hp, rfl⟩
      | ⟨t, o, rfl, hp, rfl⟩ | ⟨t, r, rfl, hp, rfl⟩
  · rw [step, show (s.view f).phase t = .idle from hp]
    rfl
  · have hsem : sem' o (s.view f).mem = _ := (hf o s.mem).symm
    rw [step_commit (s := s.view f) hp, hsem]
    rfl
  · rw [step, show (s.view f).phase t = .done r from hp]
    exact if_pos rfl

/-- And so runs. -/
theorem run_view (hf : ∀ o m, ((sem o m).1, f (sem o m).2) = sem' o (f m))
    {start : μ → Prop} {start' : ν → Prop} {bs : List (Act ι ω ρ)}
    (hrun : (machine sem start).run bs s = some s') :
    (machine sem' start').run bs (s.view f) = some (s'.view f) := by
  induction bs generalizing s with
  | nil =>
      injection hrun with h
      exact congrArg (fun u => some (view f u)) h
  | cons b rest ih =>
      obtain ⟨t, happ, hrest⟩ := Machine.run_cons.mp hrun
      exact Machine.run_cons.mpr ⟨t.view f, step_view hf happ, ih hrest⟩

end View

omit [DecidableEq ι] [DecidableEq ρ] in
/-- What a run shows, action by action. -/
theorem filterMap_event_cons (a : Act ι ω ρ) (as : List (Act ι ω ρ)) :
    (a :: as).filterMap Act.event
      = a.event.toList ++ as.filterMap Act.event := by
  cases a with
  | invoke t o => rfl
  | commit t => rfl
  | ret t r => rfl

/-- Every call under way is of the kind `P`. -/
def Calling (P : ω → Prop) (s : Atomic ι μ ω ρ) : Prop :=
  ∀ t o, s.phase t = .called o → P o

omit [DecidableEq ρ] in
theorem Calling.move {P : ω → Prop} (h : s.Calling P) {t : ι}
    {p : APhase ω ρ} (hp : ∀ o, p = .called o → P o) :
    (s.move t p).Calling P := by
  intro u o hu
  replace hu : Function.update s.phase t p u = .called o := hu
  rcases eq_or_ne u t with rfl | hne
  · rw [Function.update_self] at hu
    exact hp o hu
  · rw [Function.update_of_ne hne] at hu
    exact h u o hu

theorem Calling.step {P : ω → Prop} (h : s.Calling P) {a : Act ι ω ρ}
    (ha : ∀ t o, .invoke t o ∈ a.event.toList → P o)
    (hstep : step sem a s = some s') : s'.Calling P := by
  rcases step_cases hstep with ⟨t, o, rfl, -, rfl⟩
      | ⟨t, o, rfl, -, rfl⟩ | ⟨t, r, rfl, -, rfl⟩
  · refine h.move fun o' ho => ?_
    cases ho
    exact ha t o (List.mem_singleton.mpr rfl)
  · exact h.move nofun
  · exact h.move nofun

section Total

variable {A : Type*} [AddCommMonoid A] {q : μ → A} {d : ω → A}

/-- What a thread will still add. -/
def owed (d : ω → A) : APhase ω ρ → A
  | .called o => d o
  | _ => 0

omit [DecidableEq ι] [DecidableEq ρ] in
theorem owed_idle : owed (ρ := ρ) d .idle = 0 := rfl

omit [DecidableEq ι] [DecidableEq ρ] in
theorem owed_called (o : ω) : owed (ρ := ρ) d (.called o) = d o := rfl

omit [DecidableEq ι] [DecidableEq ρ] in
theorem owed_done (r : ρ) : owed d (.done r) = 0 := rfl

/-- What an event announces. -/
def amount (d : ω → A) : Event ι ω ρ → A
  | .invoke _ o => d o
  | .ret _ _ => 0

/-- A quantity of the memory, with what the calls under way will add. -/
def total [Fintype ι] (q : μ → A) (d : ω → A) (s : Atomic ι μ ω ρ) : A :=
  q s.mem + ∑ t, owed d (s.phase t)

omit [DecidableEq ι] [DecidableEq ρ] in
/-- With no call under way nothing is owed. -/
theorem total_of_idle [Fintype ι] (h : ∀ t, s.phase t = .idle) :
    s.total q d = q s.mem := by
  have hsum : ∑ t, owed d (s.phase t) = 0 :=
    Finset.sum_eq_zero fun t _ => by rw [h t, owed_idle]
  rw [total, hsum, add_zero]

omit [DecidableEq ρ] in
/-- A thread that moves on changes only its own share. -/
theorem sum_owed_move [Fintype ι] (t : ι) (p : APhase ω ρ) :
    (∑ u, owed d ((s.move t p).phase u)) + owed d (s.phase t)
      = (∑ u, owed d (s.phase u)) + owed d p := by
  have hmove : (fun u => owed d ((s.move t p).phase u))
      = Function.update (fun u => owed d (s.phase u)) t (owed d p) := by
    funext u
    exact Function.apply_update (fun _ => owed d) s.phase t p u
  rw [hmove, Finset.sum_update_of_mem (Finset.mem_univ t),
    Finset.sum_eq_add_sum_sdiff_singleton_of_mem (Finset.mem_univ t)
      fun u => owed d (s.phase u)]
  ac_rfl

/-- An operation moves its share from what is owed to the memory. -/
theorem total_step [Fintype ι] {P : ω → Prop}
    (hq : ∀ o m, P o → q (sem o m).2 = q m + d o) (hs : s.Calling P)
    {a : Act ι ω ρ} (h : step sem a s = some s') :
    s'.total q d
      = s.total q d + (a.event.toList.map (amount d)).sum := by
  rcases step_cases h with ⟨t, o, rfl, hp, rfl⟩
      | ⟨t, o, rfl, hp, rfl⟩ | ⟨t, r, rfl, hp, rfl⟩
  · have hsum := sum_owed_move (d := d) (s := s) t (.called o)
    rw [hp, owed_idle, owed_called, add_zero] at hsum
    show q s.mem + _ = q s.mem + _ + (d o + 0)
    rw [add_zero, add_assoc, ← hsum]
  · have hsum := sum_owed_move (d := d) (s := s) t
      (.done (sem o s.mem).1)
    rw [hp, owed_called, owed_done, add_zero] at hsum
    show q (sem o s.mem).2 + _ = q s.mem + _ + 0
    rw [hq o s.mem (hs t o hp), add_zero, add_assoc, add_comm (d o), ← hsum]
  · have hsum := sum_owed_move (d := d) (s := s) t .idle
    rw [hp, owed_done, owed_idle, add_zero, add_zero] at hsum
    show q s.mem + _ = q s.mem + _ + (0 + 0)
    rw [add_zero, add_zero, ← hsum]

/-- Over a run of allowed operations, what the quantity gains is what the
calls announce. -/
theorem run_total [Fintype ι] {P : ω → Prop} {start : μ → Prop}
    (hq : ∀ o m, P o → q (sem o m).2 = q m + d o)
    {bs : List (Act ι ω ρ)} (hs : s.Calling P)
    (hP : ∀ t o, .invoke t o ∈ bs.filterMap Act.event → P o)
    (hrun : (machine sem start).run bs s = some s') :
    s'.total q d = s.total q d
      + ((bs.filterMap Act.event).map (amount d)).sum := by
  induction bs generalizing s with
  | nil =>
      injection hrun with h
      rw [h]
      exact (add_zero _).symm
  | cons b rest ih =>
      obtain ⟨t, happ, hrest⟩ := Machine.run_cons.mp hrun
      rw [filterMap_event_cons] at hP ⊢
      have ht : t.Calling P := hs.step
        (fun u o hb => hP u o (List.mem_append_left _ hb)) happ
      rw [ih ht (fun u o hb => hP u o (List.mem_append_right _ hb)) hrest,
        total_step hq hs happ, List.map_append, List.sum_append, add_assoc]

end Total

end Atomic

end LinoStm32.Lib
