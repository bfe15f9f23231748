/-
Sections that nothing preempts, on one core: threads share a memory, the
one that runs takes its next access, and another is switched in only while
the guard is free. A section closes the guard, runs its body, and puts the
guard back as it found it.

The guard may be a mask that is saved and restored, or a counter that is
raised and lowered: `Guard` asks only that closing never leaves it free,
and that reopening undoes closing.

# Why a section is one step

The thread between its two guard accesses is the one that runs
(`Sound.running_of_inside`), so what is left of its body will meet the
memory as it now is. `abs` reads the memory as it will be when that body
has ended: seen so, entering the section does all of it, and no access
inside changes anything. `run_atomic` says it of whole runs: to every
interleaving there is a run in which each operation is one step, with the
same calls and the same results in the same order.
-/
import LinoStm32.Lib.Atomic

namespace LinoStm32.Lib

-- ============================================================= the bodies

/-- A program over a shared memory, one access at a time: an access
changes the memory and goes on with what it read. -/
inductive Code (μ : Type) (α : Type)
  | ret (r : α)
  | access (f : μ → μ) (k : μ → Code μ α)

namespace Code

variable {μ α β : Type}

/-- One program, then another on its result. -/
def bind : Code μ α → (α → Code μ β) → Code μ β
  | ret r, g => g r
  | access f k, g => access f fun m => (k m).bind g

instance : Monad (Code μ) where
  pure := ret
  bind := bind

/-- Read a part of the memory. -/
def read (f : μ → α) : Code μ α := access id fun m => ret (f m)

/-- Change the memory. -/
def write (f : μ → μ) : Code μ Unit := access f fun _ => ret ()

/-- The program with nothing in between: its result and the memory it
leaves. -/
def eval : Code μ α → μ → α × μ
  | ret r, m => (r, m)
  | access f k, m => (k m).eval (f m)

@[simp] theorem eval_ret (r : α) (m : μ) :
    (ret r : Code μ α).eval m = (r, m) := rfl

@[simp] theorem eval_pure (r : α) (m : μ) :
    (pure r : Code μ α).eval m = (r, m) := rfl

@[simp] theorem eval_read (f : μ → α) (m : μ) :
    (read f).eval m = (f m, m) := rfl

@[simp] theorem eval_write (f : μ → μ) (m : μ) :
    (write f).eval m = ((), f m) := rfl

@[simp] theorem eval_bind (c : Code μ α) (g : α → Code μ β) (m : μ) :
    (c >>= g).eval m = (g (c.eval m).1).eval (c.eval m).2 := by
  show (c.bind g).eval m = _
  induction c generalizing m with
  | ret r => rfl
  | access f k ih => exact ih m (f m)

/-- `I` holds before each access, and at the end. -/
def Always (I : μ → Prop) : Code μ α → μ → Prop
  | ret _, m => I m
  | access f k, m => I m ∧ (k m).Always I (f m)

theorem Always.head {I : μ → Prop} {c : Code μ α} {m : μ}
    (h : c.Always I m) : I m := by
  cases c with
  | ret r => exact h
  | access f k => exact h.1

theorem Always.bind {I : μ → Prop} {c : Code μ α} {g : α → Code μ β}
    {m : μ} (h : c.Always I m)
    (hg : (g (c.eval m).1).Always I (c.eval m).2) :
    (c >>= g).Always I m := by
  show (c.bind g).Always I m
  induction c generalizing m with
  | ret r => exact hg
  | access f k ih => exact ⟨h.1, ih m h.2 hg⟩

theorem always_read {I : μ → Prop} (f : μ → α) {m : μ} (h : I m) :
    (read f).Always I m := ⟨h, h⟩

theorem always_write {I : μ → Prop} {f : μ → μ} {m : μ} (h : I m)
    (hf : I (f m)) : (write f).Always I m := ⟨h, hf⟩

/-- The accesses of a run of the program. -/
def length : Code μ α → μ → Nat
  | ret _, _ => 0
  | access f k, m => (k m).length (f m) + 1

@[simp] theorem length_pure (r : α) (m : μ) :
    (pure r : Code μ α).length m = 0 := rfl

@[simp] theorem length_bind (c : Code μ α) (g : α → Code μ β) (m : μ) :
    (c >>= g).length m
      = c.length m + (g (c.eval m).1).length (c.eval m).2 := by
  show (c.bind g).length m = _
  induction c generalizing m with
  | ret r => exact (Nat.zero_add _).symm
  | access f k ih =>
      show ((k m).bind g).length (f m) + 1 = _
      rw [ih m (f m)]
      exact Nat.add_right_comm _ _ 1

end Code

-- ============================================================== the guard

/-- What keeps other threads out. -/
structure Guard (γ : Type) where
  free : γ
  close : γ → γ
  /-- what a section leaves behind, from the value it found on entry and
  the present one -/
  reopen : γ → γ → γ
  close_ne_free : ∀ g, close g ≠ free
  reopen_close : ∀ g, reopen g (close g) = g

-- =========================================================== one core

/-- Where a thread stands in a call. The guard at the call is kept for
the statements only. -/
inductive Phase (γ μ ω ρ : Type)
  | idle
  | called (o : ω) (entry : γ)
  /-- the guard is read, not yet closed -/
  | probed (o : ω) (entry saved : γ)
  | inside (o : ω) (entry saved : γ) (rest : Code μ ρ)
  | left (entry : γ) (r : ρ)

/-- Whether a thread is outside any call. -/
def Phase.isIdle {γ μ ω ρ : Type} : Phase γ μ ω ρ → Bool
  | .idle => true
  | _ => false

theorem Phase.eq_idle_of_isIdle {γ μ ω ρ : Type} :
    ∀ {p : Phase γ μ ω ρ}, p.isIdle = true → p = .idle
  | .idle, _ => rfl

/-- The memory, the guard, and the thread that runs. -/
structure Core (ι γ μ ω ρ : Type) where
  mem : μ
  guard : γ
  running : ι
  phase : ι → Phase γ μ ω ρ

/-- What can happen. -/
inductive Core.Act (ι γ ω ρ : Type)
  /-- another thread is switched in -/
  | switch (t : ι)
  /-- the thread that runs sets the guard, outside any call -/
  | hold (g : γ)
  | invoke (t : ι) (o : ω)
  /-- its next access of the guard or the memory -/
  | exec
  | ret (t : ι) (r : ρ)

/-- What an action shows. -/
def Core.Act.event {ι γ ω ρ : Type} : Act ι γ ω ρ → Option (Event ι ω ρ)
  | switch _ => none
  | hold _ => none
  | invoke t o => some (.invoke t o)
  | exec => none
  | ret t r => some (.ret t r)

namespace Core

variable {ι γ μ ω ρ : Type} [DecidableEq ι]

/-- The thread that runs moves on. -/
def move (s : Core ι γ μ ω ρ) (p : Phase γ μ ω ρ) : Core ι γ μ ω ρ :=
  { s with phase := Function.update s.phase s.running p }

section Step

variable [DecidableEq γ] [DecidableEq ρ] (G : Guard γ)
  (body : ω → Code μ ρ)

/-- The next access of the thread that runs. -/
def exec (s : Core ι γ μ ω ρ) : Option (Core ι γ μ ω ρ) :=
  match s.phase s.running with
  | .idle => none
  | .called o g => some (s.move (.probed o g s.guard))
  | .probed o g v =>
      some { s.move (.inside o g v (body o)) with guard := G.close s.guard }
  | .inside o g v (.access f k) =>
      some { s.move (.inside o g v (k s.mem)) with mem := f s.mem }
  | .inside _ g v (.ret r) =>
      some { s.move (.left g r) with guard := G.reopen v s.guard }
  | .left _ _ => none

/-- One action. -/
def step : Act ι γ ω ρ → Core ι γ μ ω ρ → Option (Core ι γ μ ω ρ)
  | .switch t, s =>
      if s.guard = G.free then some { s with running := t } else none
  | .hold g, s =>
      match s.phase s.running with
      | .idle => some { s with guard := g }
      | _ => none
  | .invoke t o, s =>
      if t = s.running then
        match s.phase t with
        | .idle => some (s.move (.called o s.guard))
        | _ => none
      else none
  | .exec, s => s.exec G body
  | .ret t r, s =>
      if t = s.running then
        match s.phase t with
        | .left _ r' => if r = r' then some (s.move .idle) else none
        | _ => none
      else none

/-- The machine, from a memory of its own choice. -/
def machine (start : μ → Prop) :
    Machine (Core ι γ μ ω ρ) (Act ι γ ω ρ) where
  start s := start s.mem ∧ s.guard = G.free ∧ ∀ t, s.phase t = .idle
  apply := step G body

end Step

end Core

-- ====================================================== the guard is kept

namespace Core

variable {ι γ μ ω ρ : Type} [DecidableEq ι] {G : Guard γ}
  {body : ω → Code μ ρ} {s s' : Core ι γ μ ω ρ}

/-- The guard as a thread finds it when it runs next: a thread that was
switched out left it free. -/
def own (G : Guard γ) (s : Core ι γ μ ω ρ) (t : ι) : γ :=
  if t = s.running then s.guard else G.free

/-- The guard is what the place of the thread says. -/
def Phase.Ok (G : Guard γ) (own : γ) : Phase γ μ ω ρ → Prop
  | .idle => True
  | .called _ g => own = g
  | .probed _ g v => own = g ∧ v = g
  | .inside _ g v _ => own = G.close g ∧ v = g
  | .left g _ => own = g

/-- At every thread. -/
def Sound (G : Guard γ) (s : Core ι γ μ ω ρ) : Prop :=
  ∀ t, Phase.Ok G (s.own G t) (s.phase t)

theorem own_running (G : Guard γ) (s : Core ι γ μ ω ρ) :
    s.own G s.running = s.guard := if_pos rfl

/-- A thread inside its section is the one that runs. -/
theorem Sound.running_of_inside (h : Sound G s) {t : ι} {o : ω} {g v : γ}
    {c : Code μ ρ} (ht : s.phase t = .inside o g v c) : t = s.running := by
  have hok := h t
  rw [ht] at hok
  by_contra hne
  have hfree : s.own G t = G.free := if_neg hne
  exact G.close_ne_free g (hok.1.symm.trans hfree)

/-- When the thread that runs changes the guard and its place, the others
find what they found. -/
theorem Sound.change (h : Sound G s) {g : γ} {m : μ}
    {p : Phase γ μ ω ρ} (hp : Phase.Ok G g p) :
    Sound G { s.move p with mem := m, guard := g } := by
  intro t
  show Phase.Ok G (if t = s.running then g else G.free)
    (Function.update s.phase s.running p t)
  by_cases ht : t = s.running
  · rw [if_pos ht, ht, Function.update_self]
    exact hp
  · rw [if_neg ht, Function.update_of_ne ht]
    have hok := h t
    rwa [own, if_neg ht] at hok

/-- What one access of the thread that runs does: it reads the guard,
closes it, reaches the memory, or puts the guard back. -/
theorem exec_cases (h : s.exec G body = some s') :
    (∃ o g, s.phase s.running = .called o g
      ∧ s' = s.move (.probed o g s.guard))
    ∨ (∃ o g v, s.phase s.running = .probed o g v
      ∧ s' = { s.move (.inside o g v (body o)) with
          guard := G.close s.guard })
    ∨ (∃ o g v f k, s.phase s.running = .inside o g v (.access f k)
      ∧ s' = { s.move (.inside o g v (k s.mem)) with mem := f s.mem })
    ∨ (∃ o g v r, s.phase s.running = .inside o g v (.ret r)
      ∧ s' = { s.move (.left g r) with guard := G.reopen v s.guard }) := by
  unfold exec at h
  cases hp : s.phase s.running with
  | idle => rw [hp] at h; cases h
  | called o g =>
      rw [hp] at h
      exact Or.inl ⟨o, g, rfl, (Option.some.inj h).symm⟩
  | probed o g v =>
      rw [hp] at h
      exact Or.inr (Or.inl ⟨o, g, v, rfl, (Option.some.inj h).symm⟩)
  | inside o g v c =>
      rw [hp] at h
      cases c with
      | ret r =>
          exact Or.inr (Or.inr (Or.inr
            ⟨o, g, v, r, rfl, (Option.some.inj h).symm⟩))
      | access f k =>
          exact Or.inr (Or.inr (Or.inl
            ⟨o, g, v, f, k, rfl, (Option.some.inj h).symm⟩))
  | left g r => rw [hp] at h; cases h

theorem Sound.exec (h : Sound G s) (hstep : s.exec G body = some s') :
    Sound G s' := by
  have hok := h s.running
  rw [own_running] at hok
  rcases exec_cases hstep with ⟨o, g, hp, rfl⟩ | ⟨o, g, v, hp, rfl⟩
      | ⟨o, g, v, f, k, hp, rfl⟩ | ⟨o, g, v, r, hp, rfl⟩
  · rw [hp] at hok
    exact h.change ⟨hok, hok⟩
  · rw [hp] at hok
    exact h.change ⟨congrArg G.close hok.1, hok.2⟩
  · rw [hp] at hok
    exact h.change ⟨hok.1, hok.2⟩
  · rw [hp] at hok
    refine h.change ?_
    show G.reopen v s.guard = g
    rw [hok.1, hok.2, G.reopen_close]

variable [DecidableEq γ] [DecidableEq ρ]

/-- What each action does. -/
theorem step_cases {a : Act ι γ ω ρ} (h : step G body a s = some s') :
    (∃ t, a = .switch t ∧ s.guard = G.free ∧ s' = { s with running := t })
    ∨ (∃ g, a = .hold g ∧ s.phase s.running = .idle
      ∧ s' = { s with guard := g })
    ∨ (∃ o, a = .invoke s.running o ∧ s.phase s.running = .idle
      ∧ s' = s.move (.called o s.guard))
    ∨ (a = .exec ∧ s.exec G body = some s')
    ∨ (∃ g r, a = .ret s.running r ∧ s.phase s.running = .left g r
      ∧ s' = s.move .idle) := by
  cases a with
  | switch t =>
      rw [step, Option.ite_none_right_eq_some] at h
      exact Or.inl ⟨t, rfl, h.1, (Option.some.inj h.2).symm⟩
  | hold g =>
      rw [step] at h
      cases hp : s.phase s.running with
      | idle =>
          rw [hp] at h
          exact Or.inr (Or.inl ⟨g, rfl, rfl, (Option.some.inj h).symm⟩)
      | called => rw [hp] at h; cases h
      | probed => rw [hp] at h; cases h
      | inside => rw [hp] at h; cases h
      | left => rw [hp] at h; cases h
  | invoke t o =>
      rw [step, Option.ite_none_right_eq_some] at h
      obtain ⟨rfl, h⟩ := h
      cases hp : s.phase s.running with
      | idle =>
          rw [hp] at h
          exact Or.inr (Or.inr (Or.inl
            ⟨o, rfl, rfl, (Option.some.inj h).symm⟩))
      | called => rw [hp] at h; cases h
      | probed => rw [hp] at h; cases h
      | inside => rw [hp] at h; cases h
      | left => rw [hp] at h; cases h
  | exec => exact Or.inr (Or.inr (Or.inr (Or.inl ⟨rfl, h⟩)))
  | ret t r =>
      rw [step, Option.ite_none_right_eq_some] at h
      obtain ⟨rfl, h⟩ := h
      cases hp : s.phase s.running with
      | left g r' =>
          rw [hp] at h
          replace h : (if r = r' then some (s.move .idle) else none)
            = some s' := h
          obtain ⟨hr, h⟩ := Option.ite_none_right_eq_some.mp h
          exact Or.inr (Or.inr (Or.inr (Or.inr
            ⟨g, r, rfl, hr ▸ rfl, (Option.some.inj h).symm⟩)))
      | idle => rw [hp] at h; cases h
      | called => rw [hp] at h; cases h
      | probed => rw [hp] at h; cases h
      | inside => rw [hp] at h; cases h

theorem Sound.step {a : Act ι γ ω ρ} (h : Sound G s)
    (hstep : step G body a s = some s') : Sound G s' := by
  rcases step_cases hstep with ⟨t, rfl, hfree, rfl⟩ | ⟨g, rfl, hp, rfl⟩
      | ⟨o, rfl, hp, rfl⟩ | ⟨rfl, hexec⟩ | ⟨g, r, rfl, hp, rfl⟩
  · intro u
    have hown : ∀ v, own G { s with running := v } u = G.free := by
      intro v
      show (if u = v then s.guard else G.free) = G.free
      rw [hfree, ite_self]
    rw [hown t]
    have hok := h u
    rwa [show s.own G u = G.free from hown s.running] at hok
  · have hchange := h.change (g := g) (m := s.mem)
      (p := s.phase s.running) (hp ▸ trivial)
    rwa [move, Function.update_eq_self] at hchange
  · exact h.change rfl
  · exact h.exec hexec
  · exact h.change trivial

theorem sound_of_start {start : μ → Prop}
    (h : (machine (ι := ι) G body start).start s) : Sound G s := by
  intro t
  rw [h.2.2 t]
  exact trivial

theorem sound_of_reachable {start : μ → Prop}
    (h : (machine G body start).Reachable s) : Sound G s := by
  refine h.invariant ?_ ?_
  · intro s hs
    exact sound_of_start hs
  · intro s a s' hs happ
    exact hs.step happ

-- ========================================================= the refinement

/-- The memory as it will be when the section at this place has ended. -/
def after (m : μ) : Phase γ μ ω ρ → μ
  | .inside _ _ _ c => (c.eval m).2
  | _ => m

/-- A thread's place, a section that is entered counting as done. -/
def absPhase (m : μ) : Phase γ μ ω ρ → APhase ω ρ
  | .idle => .idle
  | .called o _ => .called o
  | .probed o _ _ => .called o
  | .inside _ _ _ c => .done (c.eval m).1
  | .left _ r => .done r

/-- The state with every section that is entered done. -/
def abs (s : Core ι γ μ ω ρ) : Atomic ι μ ω ρ where
  mem := after s.mem (s.phase s.running)
  phase t := absPhase s.mem (s.phase t)

omit [DecidableEq ι] [DecidableEq γ] [DecidableEq ρ] in
/-- With nobody in a call it is the state itself. -/
theorem abs_of_idle (h : ∀ t, s.phase t = .idle) :
    s.abs = ⟨s.mem, fun _ => .idle⟩ := by
  refine congrArg₂ Atomic.mk ?_ ?_
  · rw [h]
    rfl
  · funext t
    rw [h t]
    rfl

/-- What an operation returns and leaves, with nothing in between. -/
def sem (body : ω → Code μ ρ) (o : ω) (m : μ) : ρ × μ := (body o).eval m

omit [DecidableEq γ] [DecidableEq ρ] in
/-- The thread that runs moves on: seen settled, only its place and the
memory change. -/
theorem Sound.abs_change (h : Sound G s) {g : γ} {m : μ}
    {p : Phase γ μ ω ρ} :
    abs { s.move p with mem := m, guard := g }
      = { s.abs.move s.running (absPhase m p) with mem := after m p } := by
  have hmem : after m (Function.update s.phase s.running p s.running)
      = after m p := by
    rw [Function.update_self]
  refine congrArg₂ Atomic.mk hmem ?_
  funext t
  show absPhase m (Function.update s.phase s.running p t)
    = Function.update (fun u => absPhase s.mem (s.phase u)) s.running
        (absPhase m p) t
  by_cases ht : t = s.running
  · rw [ht, Function.update_self, Function.update_self]
  · rw [Function.update_of_ne ht, Function.update_of_ne ht]
    show _ = absPhase s.mem (s.phase t)
    cases hp : s.phase t with
    | inside o g v c => exact absurd (h.running_of_inside hp) ht
    | idle => rfl
    | called => rfl
    | probed => rfl
    | left => rfl

omit [DecidableEq γ] [DecidableEq ρ] in
/-- A move between two places outside any section. -/
theorem Sound.abs_move (h : Sound G s) {p : Phase γ μ ω ρ}
    (hfrom : after s.mem (s.phase s.running) = s.mem)
    (hto : after s.mem p = s.mem) :
    abs (s.move p) = s.abs.move s.running (absPhase s.mem p) := by
  refine (h.abs_change (g := s.guard) (m := s.mem)).trans ?_
  rw [hto]
  exact congrArg (fun m => Atomic.mk m _) hfrom.symm

omit [DecidableEq γ] [DecidableEq ρ] in
/-- A move that looks like none from outside. -/
theorem Sound.abs_stay (h : Sound G s) {g : γ} {m : μ}
    {p : Phase γ μ ω ρ}
    (hmem : after m p = after s.mem (s.phase s.running))
    (hp : absPhase m p = absPhase s.mem (s.phase s.running)) :
    abs { s.move p with mem := m, guard := g } = s.abs := by
  rw [h.abs_change, hmem, hp]
  exact congrArg (Atomic.mk _) (Function.update_eq_self _ _)

omit [DecidableEq γ] in
/-- An access is the operation's one step when it closes the guard, and
nothing otherwise. -/
theorem Sound.exec_abs (h : Sound G s) (hstep : s.exec G body = some s') :
    s'.abs = s.abs
      ∨ Atomic.step (sem body) (.commit s.running) s.abs = some s'.abs := by
  rcases exec_cases hstep with ⟨o, g, hp, rfl⟩ | ⟨o, g, v, hp, rfl⟩
      | ⟨o, g, v, f, k, hp, rfl⟩ | ⟨o, g, v, r, hp, rfl⟩
  · refine Or.inl (h.abs_stay ?_ ?_)
    · rw [hp]
      rfl
    · rw [hp]
      rfl
  · right
    have hcalled : s.abs.phase s.running = .called o := by
      show absPhase s.mem (s.phase s.running) = _
      rw [hp]
      rfl
    have hmem : s.abs.mem = s.mem := by
      show after s.mem (s.phase s.running) = _
      rw [hp]
      rfl
    rw [Atomic.step, hcalled, h.abs_change, hmem]
    rfl
  · refine Or.inl (h.abs_stay ?_ ?_)
    · rw [hp]
      rfl
    · rw [hp]
      rfl
  · refine Or.inl (h.abs_stay ?_ ?_)
    · rw [hp]
      rfl
    · rw [hp]
      rfl

omit [DecidableEq γ] [DecidableEq ρ] in
/-- With the guard free no section is entered. -/
theorem Sound.after_of_free (h : Sound G s) (hfree : s.guard = G.free)
    (t : ι) : after s.mem (s.phase t) = s.mem := by
  cases hp : s.phase t with
  | inside o g v c =>
      obtain rfl := h.running_of_inside hp
      have hok := h s.running
      rw [hp, own_running, hfree] at hok
      exact absurd hok.1.symm (G.close_ne_free g)
  | idle => rfl
  | called => rfl
  | probed => rfl
  | left => rfl

/-- Each action is matched by at most one, which shows the same. -/
theorem Sound.step_abs {start : μ → Prop} {a : Act ι γ ω ρ}
    (h : Sound G s) (hstep : Core.step G body a s = some s') :
    ∃ bs, (Atomic.machine (sem body) start).run bs s.abs = some s'.abs
      ∧ bs.filterMap Atomic.Act.event = a.event.toList := by
  have hone : ∀ b, Atomic.step (sem body) b s.abs = some s'.abs →
      (Atomic.machine (sem body) start).run [b] s.abs = some s'.abs :=
    fun b hb => Machine.run_cons.mpr ⟨_, hb, rfl⟩
  rcases step_cases hstep with ⟨t, rfl, hfree, rfl⟩ | ⟨g, rfl, hp, rfl⟩
      | ⟨o, rfl, hp, rfl⟩ | ⟨rfl, hexec⟩ | ⟨g, r, rfl, hp, rfl⟩
  · refine ⟨[], congrArg some ?_, rfl⟩
    refine congrArg₂ Atomic.mk ?_ rfl
    exact (h.after_of_free hfree _).trans (h.after_of_free hfree t).symm
  · exact ⟨[], rfl, rfl⟩
  · have hidle : s.abs.phase s.running = .idle := by
      show absPhase s.mem (s.phase s.running) = _
      rw [hp]
      rfl
    have hmem : after s.mem (s.phase s.running) = s.mem := by
      rw [hp]
      rfl
    refine ⟨[.invoke s.running o], hone _ ?_, rfl⟩
    rw [Atomic.step, hidle, h.abs_move (p := .called o s.guard) hmem rfl]
    rfl
  · rcases h.exec_abs hexec with hsame | hcommit
    · exact ⟨[], congrArg some hsame.symm, rfl⟩
    · exact ⟨[.commit s.running], hone _ hcommit, rfl⟩
  · have hdone : s.abs.phase s.running = .done r := by
      show absPhase s.mem (s.phase s.running) = _
      rw [hp]
      rfl
    have hmem : after s.mem (s.phase s.running) = s.mem := by
      rw [hp]
      rfl
    refine ⟨[.ret s.running r], hone _ ?_, rfl⟩
    rw [Atomic.step, hdone, h.abs_move (p := .idle) hmem rfl]
    exact if_pos rfl

/-- Every interleaving is matched by a run in which each operation is one
step, with the same calls and returns. -/
theorem run_atomic {start : μ → Prop} {as : List (Act ι γ ω ρ)}
    (hs : (machine G body start).start s)
    (hrun : (machine G body start).run as s = some s') :
    ∃ bs, (Atomic.machine (sem body) start).run bs s.abs = some s'.abs
      ∧ bs.filterMap Atomic.Act.event = as.filterMap Act.event :=
  Machine.run_matched (fun _ _ _ h => h.step) (fun _ _ _ h => h.step_abs)
    (sound_of_start hs) hrun

-- =============================================================== invariants

/-- `I` holds at every access to come of the section at this place, and
`J` when it has ended. -/
def Held (I J : μ → Prop) (m : μ) : Phase γ μ ω ρ → Prop
  | .inside _ _ _ c => c.Always I m ∧ J (c.eval m).2
  | _ => I m ∧ J m

omit [DecidableEq γ] [DecidableEq ρ] in
/-- With the guard free there is no such section. -/
theorem Sound.held_of_free {I J : μ → Prop} (h : Sound G s)
    (hfree : s.guard = G.free) (t : ι) :
    Held I J s.mem (s.phase t) ↔ I s.mem ∧ J s.mem := by
  cases hp : s.phase t with
  | inside o g v c =>
      obtain rfl := h.running_of_inside hp
      have hok := h s.running
      rw [hp, own_running, hfree] at hok
      exact absurd hok.1.symm (G.close_ne_free g)
  | idle => exact Iff.rfl
  | called => exact Iff.rfl
  | probed => exact Iff.rfl
  | left => exact Iff.rfl

/-- What every body keeps holds of every reachable state: `I` at every
moment, `J` whenever no section is entered. -/
theorem held_of_reachable {I J : μ → Prop} {start : μ → Prop}
    (hstart : ∀ m, start m → I m ∧ J m)
    (hbody : ∀ o m, I m → J m →
      (body o).Always I m ∧ J ((body o).eval m).2)
    (h : (machine G body start).Reachable s) :
    Held I J s.mem (s.phase s.running) := by
  refine h.invariant_given (fun s hs => sound_of_reachable hs)
    (I := fun s => Held I J s.mem (s.phase s.running)) ?_ ?_
  · intro s hs
    rw [hs.2.2]
    exact hstart s.mem hs.1
  · intro s a s' hsound hs happ
    have hmove : ∀ {m : μ} {p : Phase γ μ ω ρ}, Held I J m p →
        Held I J m (Function.update s.phase s.running p s.running) := by
      intro m p hp
      rwa [Function.update_self]
    rcases step_cases happ with ⟨t, rfl, hfree, rfl⟩ | ⟨g, rfl, hp, rfl⟩
        | ⟨o, rfl, hp, rfl⟩ | ⟨rfl, hexec⟩ | ⟨g, r, rfl, hp, rfl⟩
    · exact (hsound.held_of_free hfree t).mpr
        ((hsound.held_of_free hfree s.running).mp hs)
    · exact hs
    · rw [hp] at hs
      exact hmove hs
    · rcases exec_cases hexec with ⟨o, g, hp, rfl⟩ | ⟨o, g, v, hp, rfl⟩
          | ⟨o, g, v, f, k, hp, rfl⟩ | ⟨o, g, v, r, hp, rfl⟩
      · rw [hp] at hs
        exact hmove hs
      · rw [hp] at hs
        exact hmove (hbody o s.mem hs.1 hs.2)
      · rw [hp] at hs
        exact hmove ⟨hs.1.2, hs.2⟩
      · rw [hp] at hs
        exact hmove hs
    · rw [hp] at hs
      exact hmove hs

omit [DecidableEq ι] [DecidableEq γ] [DecidableEq ρ] in
theorem Held.now {I J : μ → Prop} {m : μ} {p : Phase γ μ ω ρ}
    (h : Held I J m p) : I m := by
  cases p with
  | inside o g v c => exact h.1.head
  | idle => exact h.1
  | called => exact h.1
  | probed => exact h.1
  | left => exact h.1

-- ============================================== how long the guard is closed

omit [DecidableEq γ] [DecidableEq ρ] in
/-- The next access of a body. -/
theorem exec_access {o : ω} {g v : γ} {f : μ → μ} {k : μ → Code μ ρ}
    (hp : s.phase s.running = .inside o g v (.access f k)) :
    s.exec G body
      = some { s.move (.inside o g v (k s.mem)) with mem := f s.mem } := by
  rw [exec, hp]

omit [DecidableEq γ] [DecidableEq ρ] in
/-- The end of a body. -/
theorem exec_ret {o : ω} {g v : γ} {r : ρ}
    (hp : s.phase s.running = .inside o g v (.ret r)) :
    s.exec G body
      = some { s.move (.left g r) with guard := G.reopen v s.guard } := by
  rw [exec, hp]

/-- A thread inside its section leaves it after as many steps as the body
has accesses left and one more, with the result and the memory of the body
and the guard it found. -/
theorem Sound.run_out {start : μ → Prop} (h : Sound G s) {o : ω} {g v : γ}
    {c : Code μ ρ} (hp : s.phase s.running = .inside o g v c) :
    ∃ s', (machine G body start).run
        (List.replicate (c.length s.mem + 1) .exec) s = some s'
      ∧ s'.running = s.running ∧ s'.guard = g
      ∧ s'.phase s.running = .left g (c.eval s.mem).1
      ∧ s'.mem = (c.eval s.mem).2 := by
  induction c generalizing s with
  | ret r =>
      have hok := h s.running
      rw [hp, own_running] at hok
      refine ⟨_, Machine.run_cons.mpr ⟨_, exec_ret hp, rfl⟩, rfl, ?_,
        Function.update_self _ _ _, rfl⟩
      show G.reopen v s.guard = g
      rw [hok.1, hok.2, G.reopen_close]
  | access f k ih =>
      have hstep : s.exec G body = _ := exec_access hp
      have hnext := h.exec hstep
      obtain ⟨s', hrun, hrest⟩ := ih s.mem hnext (Function.update_self _ _ _)
      exact ⟨s', Machine.run_cons.mpr ⟨_, hstep, hrun⟩, hrest⟩

/-- The thread that runs has no more left of its body than `n`. -/
def Short (n : Nat) (s : Core ι γ μ ω ρ) : Prop :=
  ∀ o g v c, s.phase s.running = .inside o g v c → c.length s.mem ≤ n

omit [DecidableEq γ] [DecidableEq ρ] in
theorem Short.exec {n : Nat} (hn : ∀ o m, (body o).length m ≤ n)
    (h : Short n s) (hstep : s.exec G body = some s') : Short n s' := by
  intro o g v c hc
  rcases exec_cases hstep with ⟨o', g', hp, rfl⟩ | ⟨o', g', v', hp, rfl⟩
      | ⟨o', g', v', f, k, hp, rfl⟩ | ⟨o', g', v', r, hp, rfl⟩
  · cases (Function.update_self _ _ _).symm.trans hc
  · cases (Function.update_self _ _ _).symm.trans hc
    exact hn _ _
  · cases (Function.update_self _ _ _).symm.trans hc
    exact Nat.le_of_succ_le (h _ _ _ _ hp)
  · cases (Function.update_self _ _ _).symm.trans hc

/-- What is left of a body is within what every body takes. -/
theorem short_of_reachable {start : μ → Prop} {n : Nat}
    (hn : ∀ o m, (body o).length m ≤ n)
    (h : (machine G body start).Reachable s) : Short n s := by
  refine h.invariant_given (fun s hs => sound_of_reachable hs) ?_ ?_
  · intro s hs o g v c hc
    rw [hs.2.2] at hc
    cases hc
  · intro s a s' hsound hs happ
    rcases step_cases happ with ⟨t, rfl, -, rfl⟩ | ⟨g, rfl, -, rfl⟩
        | ⟨o, rfl, -, rfl⟩ | ⟨rfl, hexec⟩ | ⟨g, r, rfl, -, rfl⟩
    · intro o g v c hc
      obtain rfl : t = s.running := hsound.running_of_inside hc
      exact hs o g v c hc
    · exact hs
    · intro o' g v c hc
      cases (Function.update_self _ _ _).symm.trans hc
    · exact hs.exec hn hexec
    · intro o g v c hc
      cases (Function.update_self _ _ _).symm.trans hc

end Core

end LinoStm32.Lib
