/-
A value that one writer replaces over and over while readers copy it:
what the sequence of copies can look like.

`is n v` says that `v` is version `n` of the value. A sequence of copies
`Ascends` when versions can be assigned to the copies in order without
ever going back. The library carries the claim through a run:

- `nil`: no copies yet;
- `read`: one more copy, of the current version;
- `mono`: the current version moved on, and old versions stay what they
  were.

`AscendsTo is n vs` is the same with every version at most the current
one, `n`, which is what the induction needs.
-/
import Mathlib.Data.List.Forall2

namespace LinoStm32.Lib

variable {α : Type*}

/-- Copies, oldest first, that stem from versions in order, none of them
later than version `now`. -/
def AscendsTo (is : Nat → α → Prop) (now : Nat) (vs : List α) : Prop :=
  ∃ stems : List Nat, List.Forall₂ is stems vs
    ∧ stems.Pairwise (· ≤ ·) ∧ ∀ n ∈ stems, n ≤ now

/-- Copies, oldest first, that stem from versions in order. -/
def Ascends (is : Nat → α → Prop) (vs : List α) : Prop :=
  ∃ stems : List Nat, List.Forall₂ is stems vs ∧ stems.Pairwise (· ≤ ·)

variable {is is' : Nat → α → Prop} {now later : Nat} {vs : List α}

/-- Forgetting the current version. -/
theorem AscendsTo.ascends (h : AscendsTo is now vs) : Ascends is vs := by
  obtain ⟨stems, hrel, hmono, -⟩ := h
  exact ⟨stems, hrel, hmono⟩

theorem AscendsTo.nil : AscendsTo is now ([] : List α) :=
  ⟨[], .nil, .nil, fun _ hn => absurd hn List.not_mem_nil⟩

/-- Every copy is of some version. -/
theorem AscendsTo.mem (h : AscendsTo is now vs) {v : α} (hv : v ∈ vs) :
    ∃ n ≤ now, is n v := by
  obtain ⟨stems, hrel, -, hle⟩ := h
  induction hrel with
  | nil => cases hv
  | cons hstem _ ih =>
      cases hv with
      | head => exact ⟨_, hle _ List.mem_cons_self, hstem⟩
      | tail _ hold =>
          exact ih hold fun n hn => hle n (List.mem_cons_of_mem _ hn)

/-- A copy of the current version extends the sequence. -/
theorem AscendsTo.read (h : AscendsTo is now vs) {v : α} (hv : is now v) :
    AscendsTo is now (vs ++ [v]) := by
  obtain ⟨stems, hrel, hmono, hle⟩ := h
  refine ⟨stems ++ [now], List.rel_append hrel (.cons hv .nil), ?_, ?_⟩
  · rw [List.pairwise_append]
    refine ⟨hmono, List.pairwise_singleton _ _, fun n hn m hm => ?_⟩
    exact List.mem_singleton.mp hm ▸ hle n hn
  · intro n hn
    rcases List.mem_append.mp hn with hold | hnew
    · exact hle n hold
    · exact Nat.le_of_eq (List.mem_singleton.mp hnew)

/-- The current version may move on, as long as every version up to the
old one keeps its values. -/
theorem AscendsTo.mono (h : AscendsTo is now vs) (hle : now ≤ later)
    (hkeep : ∀ n ≤ now, ∀ v, is n v → is' n v) :
    AscendsTo is' later vs := by
  obtain ⟨stems, hrel, hmono, hbound⟩ := h
  refine ⟨stems, ?_, hmono, fun n hn => Nat.le_trans (hbound n hn) hle⟩
  induction hrel with
  | nil => exact .nil
  | cons hv _ ih =>
      rw [List.pairwise_cons] at hmono
      refine .cons (hkeep _ (hbound _ List.mem_cons_self) _ hv)
        (ih hmono.2 fun n hn => hbound n (List.mem_cons_of_mem _ hn))

end LinoStm32.Lib
