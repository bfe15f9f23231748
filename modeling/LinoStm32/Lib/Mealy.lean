/-
Mealy machines: a deterministic step that consumes one input and hands
out one output, run over finite input sequences.

Where `Machine` is for interleavings (actions may be disabled, only the
state matters), `Mealy` is for total step functions whose outputs are
the observable. Two rules cover the run proofs:

- `final_invariant`: what each step keeps, a whole run keeps;
- `simulation`: two machines whose steps carry a relation on states to
  itself and emit related outputs emit related output sequences.
-/
import Mathlib.Data.List.Basic

namespace LinoStm32.Lib

/-- A total step function with an output. -/
structure Mealy (σ ι ο : Type*) where
  step : σ → ι → σ × ο

namespace Mealy

variable {σ ι ο : Type*} (M : Mealy σ ι ο)

/-- The state after an input sequence. -/
def final : σ → List ι → σ
  | s, [] => s
  | s, i :: is => final (M.step s i).1 is

/-- The outputs of an input sequence, one per input, in order. -/
def outputs : σ → List ι → List ο
  | _, [] => []
  | s, i :: is => (M.step s i).2 :: outputs (M.step s i).1 is

variable {M}

@[simp] theorem outputs_nil (s : σ) : M.outputs s [] = [] := rfl

@[simp] theorem outputs_cons (s : σ) (i : ι) (is : List ι) :
    M.outputs s (i :: is)
      = (M.step s i).2 :: M.outputs (M.step s i).1 is := rfl

theorem final_append (s : σ) (is js : List ι) :
    M.final s (is ++ js) = M.final (M.final s is) js := by
  induction is generalizing s with
  | nil => rfl
  | cons i is ih => exact ih _

theorem outputs_append (s : σ) (is js : List ι) :
    M.outputs s (is ++ js)
      = M.outputs s is ++ M.outputs (M.final s is) js := by
  induction is generalizing s with
  | nil => rfl
  | cons i is ih =>
      rw [List.cons_append, outputs_cons, ih]
      rfl

/-- Where an element of a list with one more at its end stands: it is the
new one, or one of the old. -/
theorem split_concat {α : Type*} {l pre post : List α} {a b : α}
    (h : l ++ [a] = pre ++ b :: post) :
    (pre = l ∧ b = a ∧ post = [])
      ∨ ∃ post', l = pre ++ b :: post' ∧ post = post' ++ [a] := by
  rcases List.eq_nil_or_concat' post with hnil | ⟨post', c, hpost⟩
  · left
    rw [hnil] at h
    obtain ⟨hpre, hlast⟩ := List.append_inj' h rfl
    cases hlast
    exact ⟨hpre.symm, rfl, hnil⟩
  · right
    have hsplit : l ++ [a] = (pre ++ b :: post') ++ [c] := by
      rw [h, hpost, List.append_assoc, List.cons_append]
    obtain ⟨hpre, hlast⟩ := List.append_inj' hsplit rfl
    cases hlast
    exact ⟨post', hpre, hpost⟩

-- ======================================================== the run rules

/-- What every step keeps, every run keeps. -/
theorem final_invariant {P : σ → Prop}
    (hstep : ∀ s i, P s → P (M.step s i).1)
    {s : σ} (hs : P s) (is : List ι) : P (M.final s is) := by
  induction is generalizing s with
  | nil => exact hs
  | cons i is ih => exact ih (hstep s i hs)

/-- Two machines run in lockstep: if one step each, from related states
on an input and its image, ends in related states with related outputs,
so does a whole run on an input sequence and its image. -/
theorem simulation {σ' ι' ο' : Type*} {N : Mealy σ' ι' ο'}
    {R : σ → σ' → Prop} {Q : ο → ο' → Prop} {f : ι → ι'}
    (hstep : ∀ s s' i, R s s' →
      R (M.step s i).1 (N.step s' (f i)).1
        ∧ Q (M.step s i).2 (N.step s' (f i)).2)
    {s : σ} {s' : σ'} (hs : R s s') (is : List ι) :
    R (M.final s is) (N.final s' (is.map f))
      ∧ List.Forall₂ Q (M.outputs s is) (N.outputs s' (is.map f)) := by
  induction is generalizing s s' with
  | nil => exact ⟨hs, .nil⟩
  | cons i is ih =>
      obtain ⟨hR, hQ⟩ := hstep s s' i hs
      obtain ⟨hfin, houts⟩ := ih hR
      exact ⟨hfin, .cons hQ houts⟩

end Mealy

end LinoStm32.Lib
