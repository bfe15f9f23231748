/-
Rounding toward zero over an ordered field with a floor: the value a
real-to-integer conversion keeps is the integer part of the magnitude,
with the sign put back.

`towardZero` is odd, and it is strictly positive exactly from 1 on and
strictly negative exactly from -1 down: everything strictly between
rounds to 0. The two sign lemmas are what a proof about the sign of a
converted quantity needs, and they mention no floor.
-/
import Mathlib.Algebra.Order.Floor.Ring
import Mathlib.Tactic.Linarith

namespace LinoStm32.Lib

variable {K : Type*} [Field K] [LinearOrder K] [FloorRing K]

/-- The integer part, rounded toward zero. -/
def towardZero (q : K) : Int := if 0 ≤ q then ⌊q⌋ else ⌈q⌉

variable [IsStrictOrderedRing K]

/-- Rounding toward zero is odd. -/
theorem towardZero_neg (q : K) : towardZero (-q) = -towardZero q := by
  unfold towardZero
  rcases lt_trichotomy q 0 with h | h | h
  · rw [if_pos (neg_nonneg.mpr h.le), if_neg (not_le.mpr h),
      Int.floor_neg]
  · subst h
    simp
  · have hneg : ¬ 0 ≤ -q := by linarith
    rw [if_neg hneg, if_pos h.le, Int.ceil_neg]

/-- The rounded value is strictly positive exactly from 1 on. -/
theorem towardZero_pos_iff (q : K) : 0 < towardZero q ↔ 1 ≤ q := by
  unfold towardZero
  split
  · exact Int.floor_pos
  · next h =>
    have hq : q < 0 := not_le.mp h
    constructor
    · intro hpos
      have hceil : ⌈q⌉ ≤ 0 := Int.ceil_le.mpr (by simpa using hq.le)
      omega
    · intro h1
      linarith

/-- The rounded value is strictly negative exactly from -1 down. -/
theorem towardZero_neg_iff (q : K) : towardZero q < 0 ↔ q ≤ -1 := by
  have h := towardZero_pos_iff (-q)
  rw [towardZero_neg] at h
  constructor
  · intro hq
    have := h.mp (by omega)
    linarith
  · intro hq
    have := h.mpr (by linarith)
    omega

/-- A value inside integer limits stays inside them. -/
theorem towardZero_mem {q : K} {n : Int} (hlo : -(n : K) ≤ q)
    (hhi : q ≤ n) : -n ≤ towardZero q ∧ towardZero q ≤ n := by
  have hn : 0 ≤ n := by
    have h : (0 : K) ≤ n := by linarith
    exact_mod_cast h
  unfold towardZero
  split
  · next h =>
    refine ⟨?_, ?_⟩
    · have hfloor : 0 ≤ ⌊q⌋ := Int.floor_nonneg.mpr h
      omega
    · exact_mod_cast (Int.floor_le q).trans hhi
  · next h =>
    refine ⟨?_, ?_⟩
    · have hceil : ((-n : Int) : K) ≤ ⌈q⌉ := by
        push_cast
        exact hlo.trans (Int.le_ceil q)
      exact_mod_cast hceil
    · have hceil : ⌈q⌉ ≤ 0 := Int.ceil_le.mpr (by
        simpa using (not_le.mp h).le)
      omega

end LinoStm32.Lib
