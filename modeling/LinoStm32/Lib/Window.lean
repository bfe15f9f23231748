/-
What a run leaves in one cell of a machine's state, read off the inputs
alone.

- A register is written by some inputs and kept by the others. After a
  run it holds what the `latest` write put there (`final_register`).
- An accumulator is set by some inputs and added to by the others. After
  a run it holds what the latest reset put there plus everything added
  in the `window` since (`final_window`).

Both rules may use an invariant of the rest of the state: how much an
input adds can then depend on parts that never change.

A history of inputs with the outputs they got is a `transcript`; what
neighbours in a history contribute together is summed by `pairSum`.
-/
import Mathlib.Data.List.DropRight
import Mathlib.Algebra.BigOperators.Group.List.Basic
import LinoStm32.Lib.Mealy

namespace LinoStm32.Lib

variable {ι A : Type*}

-- ====================================================== input histories

/-- What the last writing input wrote, if any did. -/
def latest (write : ι → Option A) (is : List ι) : Option A :=
  (is.filterMap write).getLast?

/-- The inputs after the last one that resets. -/
def window (reset : ι → Option A) (is : List ι) : List ι :=
  is.rtakeWhile fun i => (reset i).isNone

section Histories

variable {f : ι → Option A} {i : ι} {a : A} (is : List ι)

@[simp] theorem latest_nil : latest f [] = none := rfl

/-- A writing input is the latest. -/
theorem latest_concat_some (h : f i = some a) :
    latest f (is ++ [i]) = some a := by
  rw [latest, List.filterMap_append, List.filterMap_cons_some h]
  exact List.getLast?_concat

/-- Any other input leaves the latest where it was. -/
theorem latest_concat_none (h : f i = none) :
    latest f (is ++ [i]) = latest f is := by
  rw [latest, List.filterMap_append, List.filterMap_cons_none h,
    List.filterMap_nil, List.append_nil]
  rfl

/-- The latest write is one of the writes. -/
theorem mem_of_latest {is : List ι} (h : latest f is = some a) :
    ∃ i ∈ is, f i = some a :=
  List.mem_filterMap.mp (List.mem_of_getLast? h)

@[simp] theorem window_nil : window f [] = [] := List.rtakeWhile_nil _

/-- A reset empties the window. -/
theorem window_concat_some (h : f i = some a) :
    window f (is ++ [i]) = [] :=
  List.rtakeWhile_concat_neg _ _ _ (by rw [h]; exact Bool.false_ne_true)

/-- Any other input joins it. -/
theorem window_concat_none (h : f i = none) :
    window f (is ++ [i]) = window f is ++ [i] :=
  List.rtakeWhile_concat_pos _ _ _ (by rw [h]; rfl)

end Histories

-- ========================================================== neighbours

/-- What each two neighbours contribute, summed. -/
def pairSum [AddMonoid A] (f : ι → ι → A) (l : List ι) : A :=
  (l.zipWith f l.tail).sum

section PairSum

variable [AddMonoid A] (f : ι → ι → A)

@[simp] theorem pairSum_nil : pairSum f [] = 0 := rfl

@[simp] theorem pairSum_singleton (a : ι) : pairSum f [a] = 0 := rfl

theorem pairSum_cons_cons (a b : ι) (l : List ι) :
    pairSum f (a :: b :: l) = f a b + pairSum f (b :: l) :=
  List.sum_cons

/-- One more input contributes together with the one before it. -/
theorem pairSum_concat {l : List ι} {a : ι} (h : l.getLast? = some a)
    (b : ι) : pairSum f (l ++ [b]) = pairSum f l + f a b := by
  induction l with
  | nil => exact absurd h (by simp)
  | cons x l ih =>
      cases l with
      | nil =>
          obtain rfl : x = a := by simpa using h
          simp [pairSum]
      | cons y l =>
          rw [List.getLast?_cons_cons] at h
          rw [pairSum_cons_cons, add_assoc, ← ih h]
          rfl

end PairSum

-- ============================================================= the rules

namespace Mealy

variable {σ ο : Type*} {M : Mealy σ ι ο} {P : σ → Prop}

theorem final_concat (s : σ) (is : List ι) (i : ι) :
    M.final s (is ++ [i]) = (M.step (M.final s is) i).1 :=
  final_append s is [i]

/-- The inputs of a run, each with the output it got. -/
def transcript (M : Mealy σ ι ο) (s : σ) (is : List ι) : List (ι × ο) :=
  is.zip (M.outputs s is)

@[simp] theorem transcript_nil (s : σ) : M.transcript s [] = [] := rfl

theorem transcript_concat (s : σ) (is : List ι) (i : ι) :
    M.transcript s (is ++ [i])
      = M.transcript s is ++ [(i, (M.step (M.final s is) i).2)] := by
  induction is generalizing s with
  | nil => rfl
  | cons j is ih => exact congrArg (List.cons _) (ih _)

theorem map_fst_transcript (s : σ) (is : List ι) :
    (M.transcript s is).map Prod.fst = is := by
  induction is generalizing s with
  | nil => rfl
  | cons i is ih => exact congrArg (List.cons i) (ih _)

/-- Each entry of a transcript is one step, in some state. -/
theorem exists_of_mem_transcript {s : σ} {is : List ι} {e : ι × ο}
    (h : e ∈ M.transcript s is) : ∃ s' i, e = (i, (M.step s' i).2) := by
  induction is generalizing s with
  | nil => exact absurd h (by simp)
  | cons i is ih =>
      rcases List.mem_cons.mp h with rfl | h
      · exact ⟨s, i, rfl⟩
      · exact ih h

/-- A register holds the latest write, or what it held at the start. -/
theorem final_register {reg : σ → A} {write : ι → Option A}
    (hP : ∀ s i, P s → P (M.step s i).1)
    (hreg : ∀ s i, P s → reg (M.step s i).1 = (write i).getD (reg s))
    {s : σ} (hs : P s) (is : List ι) :
    reg (M.final s is) = (latest write is).getD (reg s) := by
  induction is using List.reverseRecOn with
  | nil => rfl
  | append_singleton is i ih =>
      rw [final_concat, hreg _ i (final_invariant hP hs is)]
      cases hw : write i with
      | none => rw [latest_concat_none is hw, ← ih, Option.getD_none]
      | some a =>
          rw [latest_concat_some is hw, Option.getD_some, Option.getD_some]

/-- An accumulator holds the latest reset, or what it held at the start,
and all that was added since. -/
theorem final_window [AddMonoid A] {acc : σ → A} {reset : ι → Option A}
    {add : ι → A} (hP : ∀ s i, P s → P (M.step s i).1)
    (hacc : ∀ s i, P s →
      acc (M.step s i).1 = (reset i).getD (acc s + add i))
    {s : σ} (hs : P s) (is : List ι) :
    acc (M.final s is)
      = (latest reset is).getD (acc s)
        + ((window reset is).map add).sum := by
  induction is using List.reverseRecOn with
  | nil => simp [final]
  | append_singleton is i ih =>
      rw [final_concat, hacc _ i (final_invariant hP hs is)]
      cases hr : reset i with
      | none =>
          rw [latest_concat_none is hr, window_concat_none is hr,
            List.map_append, List.sum_append, ← add_assoc, ← ih]
          simp
      | some a =>
          rw [latest_concat_some is hr, window_concat_some is hr]
          simp

end Mealy

end LinoStm32.Lib
