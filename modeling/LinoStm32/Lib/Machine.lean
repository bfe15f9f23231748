/-
State machines given by a partial transition function, and the one
induction their safety proofs stand on.

A machine says where it may start and what an action does: `apply a s`
is `none` when `a` is not enabled in `s`. Interleaving semantics is the
absence of any scheduling condition: every enabled action may be taken
next, so a property of every reachable state is a property of every
interleaving.

# The two reachabilities

- `Reachable`: some sequence of enabled actions leads here.
- `ReachableUnder C`: the same, along steps that each meet the side
  condition `C` on the state before the step and the action. A theorem
  over `ReachableUnder C` says what holds in every run all of whose
  steps meet `C`.

`run` and `runUnder` replay an explicit action list and are the
executable spine: a concrete run is a closed computation, and
`reachable_of_run` and `ReachableUnder.runUnder` turn its result into a
reachable state.
-/
import Mathlib.Data.List.Induction

namespace LinoStm32.Lib

/-- A machine over states `σ` and actions `α`: its start states, and
the state an enabled action leads to. -/
structure Machine (σ α : Type*) where
  start : σ → Prop
  apply : α → σ → Option σ

namespace Machine

variable {σ α : Type*} {M : Machine σ α}

-- ======================================================== reachability

/-- The states some sequence of enabled actions leads to. -/
inductive Reachable (M : Machine σ α) : σ → Prop
  | start {s : σ} : M.start s → Reachable M s
  | step {s s' : σ} (a : α) :
      Reachable M s → M.apply a s = some s' → Reachable M s'

/-- The states a sequence of enabled actions leads to when every step of
it meets `C`. -/
inductive ReachableUnder (M : Machine σ α) (C : σ → α → Prop) : σ → Prop
  | start {s : σ} : M.start s → ReachableUnder M C s
  | step {s s' : σ} (a : α) :
      ReachableUnder M C s → C s a → M.apply a s = some s' →
      ReachableUnder M C s'

/-- What holds at the start and is kept by every enabled action holds of
every reachable state. -/
theorem Reachable.invariant {I : σ → Prop}
    (hstart : ∀ s, M.start s → I s)
    (hstep : ∀ s a s', I s → M.apply a s = some s' → I s')
    {s : σ} (h : M.Reachable s) : I s := by
  induction h with
  | start hs => exact hstart _ hs
  | step a _ happ ih => exact hstep _ a _ ih happ

/-- An invariant may rest on one already proved: preservation is asked of
the states in which `J` holds. -/
theorem Reachable.invariant_given {I J : σ → Prop}
    (hJ : ∀ s, M.Reachable s → J s) (hstart : ∀ s, M.start s → I s)
    (hstep : ∀ s a s', J s → I s → M.apply a s = some s' → I s')
    {s : σ} (h : M.Reachable s) : I s := by
  induction h with
  | start hs => exact hstart _ hs
  | step a hpre happ ih => exact hstep _ a _ (hJ _ hpre) ih happ

/-- A machine refines another through `f` when each of its steps is a step
there or changes nothing there: it stays within what the other reaches. -/
theorem Reachable.refines {τ β : Type*} {N : Machine τ β} {f : σ → τ}
    (hstart : ∀ s, M.start s → N.start (f s))
    (hstep : ∀ s a s', M.apply a s = some s' →
      f s' = f s ∨ ∃ b, N.apply b (f s) = some (f s'))
    {s : σ} (h : M.Reachable s) : N.Reachable (f s) := by
  induction h with
  | start hs => exact .start (hstart _ hs)
  | step a _ happ ih =>
      rcases hstep _ a _ happ with hsame | ⟨b, hb⟩
      · rw [hsame]
        exact ih
      · exact .step b ih hb

/-- The invariant rule for conditioned runs: preservation may use that
the step meets `C`. -/
theorem ReachableUnder.invariant {C : σ → α → Prop} {I : σ → Prop}
    (hstart : ∀ s, M.start s → I s)
    (hstep : ∀ s a s', I s → C s a → M.apply a s = some s' → I s')
    {s : σ} (h : M.ReachableUnder C s) : I s := by
  induction h with
  | start hs => exact hstart _ hs
  | step a _ hc happ ih => exact hstep _ a _ ih hc happ

theorem ReachableUnder.reachable {C : σ → α → Prop} {s : σ}
    (h : M.ReachableUnder C s) : M.Reachable s := by
  induction h with
  | start hs => exact .start hs
  | step a _ _ happ ih => exact .step a ih happ

/-- The same of conditioned runs. -/
theorem ReachableUnder.refines {τ β : Type*} {N : Machine τ β} {f : σ → τ}
    {C : σ → α → Prop} {C' : τ → β → Prop}
    (hstart : ∀ s, M.start s → N.start (f s))
    (hstep : ∀ s a s', C s a → M.apply a s = some s' →
      f s' = f s ∨ ∃ b, C' (f s) b ∧ N.apply b (f s) = some (f s'))
    {s : σ} (h : M.ReachableUnder C s) : N.ReachableUnder C' (f s) := by
  induction h with
  | start hs => exact .start (hstart _ hs)
  | step a _ hc happ ih =>
      rcases hstep _ a _ hc happ with hsame | ⟨b, hb, hN⟩
      · rw [hsame]
        exact ih
      · exact .step b ih hb hN

/-- The invariant rule, resting on an invariant of every run. -/
theorem ReachableUnder.invariant_given {C : σ → α → Prop} {I J : σ → Prop}
    (hJ : ∀ s, M.Reachable s → J s) (hstart : ∀ s, M.start s → I s)
    (hstep : ∀ s a s', J s → I s → C s a → M.apply a s = some s' → I s')
    {s : σ} (h : M.ReachableUnder C s) : I s := by
  induction h with
  | start hs => exact hstart _ hs
  | step a hpre hc happ ih =>
      exact hstep _ a _ (hJ _ hpre.reachable) ih hc happ

-- ===================================================== executable spine

/-- Replay an action list, failing on the first disabled action. -/
def run (M : Machine σ α) : List α → σ → Option σ
  | [], s => some s
  | a :: rest, s =>
      match M.apply a s with
      | some s' => run M rest s'
      | none => none

theorem run_cons {a : α} {as : List α} {s s' : σ} :
    M.run (a :: as) s = some s'
      ↔ ∃ t, M.apply a s = some t ∧ M.run as t = some s' := by
  rw [run]
  cases M.apply a s with
  | none => simp
  | some t => simp

/-- A replay of two lists passes through the state between them. -/
theorem run_append {as bs : List α} {s s' : σ} :
    M.run (as ++ bs) s = some s'
      ↔ ∃ t, M.run as s = some t ∧ M.run bs t = some s' := by
  induction as generalizing s with
  | nil => simp [run]
  | cons a rest ih =>
      rw [List.cons_append, run_cons]
      constructor
      · intro h
        obtain ⟨t, hstep, hrest⟩ := h
        obtain ⟨u, hu, hbs⟩ := ih.mp hrest
        exact ⟨u, run_cons.mpr ⟨t, hstep, hu⟩, hbs⟩
      · intro h
        obtain ⟨u, hu, hbs⟩ := h
        obtain ⟨t, hstep, hrest⟩ := run_cons.mp hu
        exact ⟨t, hstep, ih.mpr ⟨u, hrest, hbs⟩⟩

theorem run_concat {a : α} {as : List α} {s s' : σ} :
    M.run (as ++ [a]) s = some s'
      ↔ ∃ t, M.run as s = some t ∧ M.apply a t = some s' := by
  rw [run_append]
  refine exists_congr fun t => and_congr_right fun _ => ?_
  rw [run_cons]
  simp [run]

/-- What each action of a replay keeps, the replay keeps. -/
theorem run_invariant {I : σ → Prop} {C : α → Prop}
    (hstep : ∀ s a s', I s → C a → M.apply a s = some s' → I s')
    {as : List α} {s s' : σ} (hs : I s) (hC : ∀ a ∈ as, C a)
    (hrun : M.run as s = some s') : I s' := by
  induction as generalizing s with
  | nil =>
      injection hrun with hss
      exact hss ▸ hs
  | cons a rest ih =>
      obtain ⟨t, happ, hrest⟩ := run_cons.mp hrun
      exact ih (hstep s a t hs (hC a List.mem_cons_self) happ)
        (fun b hb => hC b (List.mem_cons_of_mem a hb)) hrest

/-- Each step of a replay meets `C` in the state it is taken in. -/
def Along (M : Machine σ α) (C : σ → α → Prop) : List α → σ → Prop
  | [], _ => True
  | a :: rest, s => C s a ∧ ∀ t, M.apply a s = some t → Along M C rest t

/-- How many steps of a replay are `w`. -/
def count (M : Machine σ α) (w : σ → α → Bool) : List α → σ → Nat
  | [], _ => 0
  | a :: rest, s =>
      (if w s a then 1 else 0) + ((M.apply a s).map (count M w rest)).getD 0

/-- When a step that does not reach `G` keeps `I` and takes its share off a
measure, a replay reaches `G` or is no longer than the measure allows. -/
theorem run_reaches {I G : σ → Prop} {C : σ → α → Prop}
    {w : σ → α → Bool} {μ : σ → Nat}
    (hstep : ∀ s a s', I s → ¬ G s → C s a → M.apply a s = some s' →
      I s' ∧ (G s' ∨ μ s' + (if w s a then 1 else 0) ≤ μ s))
    {as : List α} {s s' : σ} (hs : I s) (hC : M.Along C as s)
    (hrun : M.run as s = some s') :
    (∃ pre u, pre <+: as ∧ M.run pre s = some u ∧ G u)
      ∨ M.count w as s ≤ μ s := by
  induction as generalizing s with
  | nil => exact Or.inr (Nat.zero_le _)
  | cons a rest ih =>
      by_cases hG : G s
      · exact Or.inl ⟨[], s, List.nil_prefix, rfl, hG⟩
      obtain ⟨t, happ, hrest⟩ := run_cons.mp hrun
      obtain ⟨hcond, hafter⟩ := hC
      obtain ⟨ht, hreach⟩ := hstep s a t hs hG hcond happ
      rcases hreach with hGt | hle
      · refine Or.inl ⟨[a], t, ?_, ?_, hGt⟩
        · exact List.prefix_append [a] rest
        · exact run_cons.mpr ⟨t, happ, rfl⟩
      rcases ih ht (hafter t happ) hrest with ⟨pre, u, hpre, hu, hGu⟩ | hcount
      · exact Or.inl ⟨a :: pre, u, List.cons_prefix_cons.mpr ⟨rfl, hpre⟩,
          run_cons.mpr ⟨t, happ, hu⟩, hGu⟩
      · right
        rw [count, happ]
        show _ + M.count w rest t ≤ μ s
        omega

/-- When each step of one machine can be matched by a replay of another
that shows the same, each of its replays can. -/
theorem run_matched {τ β ε : Type*} {N : Machine τ β} {f : σ → τ}
    {I : σ → Prop} {e : α → Option ε} {e' : β → Option ε}
    (hkeep : ∀ s a s', I s → M.apply a s = some s' → I s')
    (hstep : ∀ s a s', I s → M.apply a s = some s' →
      ∃ bs, N.run bs (f s) = some (f s')
        ∧ bs.filterMap e' = (e a).toList)
    {as : List α} {s s' : σ} (hs : I s) (hrun : M.run as s = some s') :
    ∃ bs, N.run bs (f s) = some (f s')
      ∧ bs.filterMap e' = as.filterMap e := by
  induction as generalizing s with
  | nil =>
      injection hrun with hss
      exact ⟨[], congrArg (fun u => some (f u)) hss, rfl⟩
  | cons a rest ih =>
      obtain ⟨t, happ, hrest⟩ := run_cons.mp hrun
      obtain ⟨bs, hbs, hshow⟩ := hstep s a t hs happ
      obtain ⟨cs, hcs, hshow'⟩ := ih (hkeep s a t hs happ) hrest
      refine ⟨bs ++ cs, run_append.mpr ⟨f t, hbs, hcs⟩, ?_⟩
      rw [List.filterMap_append, hshow, hshow']
      cases ha : e a with
      | none => rw [List.filterMap_cons_none ha]; rfl
      | some x => rw [List.filterMap_cons_some ha]; rfl

/-- A replay that succeeds from a reachable state ends in one. -/
theorem Reachable.run {s s' : σ} {as : List α} (h : M.Reachable s)
    (hrun : M.run as s = some s') : M.Reachable s' := by
  induction as generalizing s with
  | nil =>
      injection hrun with hs
      exact hs ▸ h
  | cons a rest ih =>
      rw [Machine.run] at hrun
      cases happ : M.apply a s with
      | none => rw [happ] at hrun; cases hrun
      | some t =>
          rw [happ] at hrun
          exact ih (.step a h happ) hrun

/-- A replay from a start state ends in a reachable state. -/
theorem reachable_of_run {s s' : σ} {as : List α} (hs : M.start s)
    (hrun : M.run as s = some s') : M.Reachable s' :=
  (Reachable.start hs).run hrun

/-- Replay an action list, failing on the first action that is disabled
or does not meet `C`. -/
def runUnder (M : Machine σ α) (C : σ → α → Prop)
    [∀ s a, Decidable (C s a)] : List α → σ → Option σ
  | [], s => some s
  | a :: rest, s =>
      if C s a then
        match M.apply a s with
        | some s' => runUnder M C rest s'
        | none => none
      else none

/-- A conditioned replay that succeeds from a conditionally reachable
state ends in one. -/
theorem ReachableUnder.runUnder {C : σ → α → Prop}
    [∀ s a, Decidable (C s a)] {s s' : σ} {as : List α}
    (h : M.ReachableUnder C s) (hrun : M.runUnder C as s = some s') :
    M.ReachableUnder C s' := by
  induction as generalizing s with
  | nil =>
      injection hrun with hs
      exact hs ▸ h
  | cons a rest ih =>
      rw [Machine.runUnder] at hrun
      by_cases hc : C s a
      · rw [if_pos hc] at hrun
        cases happ : M.apply a s with
        | none => rw [happ] at hrun; cases hrun
        | some t =>
            rw [happ] at hrun
            exact ih (.step a h hc happ) hrun
      · rw [if_neg hc] at hrun
        cases hrun

/-- A conditioned replay is a replay along the condition. -/
theorem along_of_runUnder {C : σ → α → Prop} [∀ s a, Decidable (C s a)]
    {s s' : σ} {as : List α} (hrun : M.runUnder C as s = some s') :
    M.Along C as s ∧ M.run as s = some s' := by
  induction as generalizing s with
  | nil => exact ⟨trivial, hrun⟩
  | cons a rest ih =>
      rw [Machine.runUnder] at hrun
      by_cases hc : C s a
      · rw [if_pos hc] at hrun
        cases happ : M.apply a s with
        | none => rw [happ] at hrun; cases hrun
        | some t =>
            rw [happ] at hrun
            obtain ⟨halong, hrest⟩ := ih hrun
            refine ⟨⟨hc, fun u hu => ?_⟩, run_cons.mpr ⟨t, happ, hrest⟩⟩
            rw [happ] at hu
            exact Option.some.inj hu ▸ halong
      · rw [if_neg hc] at hrun
        cases hrun

/-- Along a replay each action meets `C` in the state the actions before it
lead to. -/
theorem Along.of_prefix {C : σ → α → Prop} {s t : σ} {as pre : List α}
    {a : α} (h : M.Along C as s) (hpre : pre ++ [a] <+: as)
    (hrun : M.run pre s = some t) : C t a := by
  obtain ⟨rest, rfl⟩ := hpre
  induction pre generalizing s with
  | nil =>
      injection hrun with hss
      exact hss ▸ h.1
  | cons b pre ih =>
      obtain ⟨u, happ, hrest⟩ := run_cons.mp hrun
      exact ih hrest (h.2 u happ)

/-- A replay from a start state, each step of which meets `C` in the state
it is taken in, ends in a conditionally reachable state. -/
theorem ReachableUnder.of_run {C : σ → α → Prop} {s s' : σ} {as : List α}
    (hs : M.start s)
    (hC : ∀ pre a t, pre ++ [a] <+: as → M.run pre s = some t → C t a)
    (hrun : M.run as s = some s') : M.ReachableUnder C s' := by
  induction as using List.reverseRecOn generalizing s' with
  | nil =>
      injection hrun with hss
      exact hss ▸ .start hs
  | append_singleton as a ih =>
      obtain ⟨t, ht, happ⟩ := run_concat.mp hrun
      have hpre : M.ReachableUnder C t := by
        apply ih _ ht
        intro pre b u hb hu
        exact hC pre b u (hb.trans (List.prefix_append as [a])) hu
      exact .step a hpre (hC as a t List.prefix_rfl ht) happ

end Machine

end LinoStm32.Lib
