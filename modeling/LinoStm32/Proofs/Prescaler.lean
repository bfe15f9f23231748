/-
The prescaler of `pwm_timing`: in range, and the best there is.

In exact arithmetic the divider chosen is the ideal one, brought between 1
and 65536 and rounded to the nearest integer (`psc_eq`). `lround` rounds
halves up where it is called, from 1 on, as `round` does
(`lround_eq_round`); the rest is about a clamp and a rounding, which are
both monotone.
-/
import Mathlib.Algebra.Order.Round
import LinoStm32.Motor

namespace LinoStm32

-- ========================================================== the ideal one

/-- The resolution, brought between 1 and 32. -/
def pwmBits (bits : Int) : Int := max 1 (min bits 32)

/-- The top of a timer of that resolution. -/
def pwmTop (bits : Int) : Nat := 2 ^ (pwmBits bits).toNat - 1

section Exact

variable {K : Type} [Field K] [LinearOrder K] [FloorRing K]

/-- The divider that would give the frequency exactly. -/
def idealDivider (clkHz : Nat) (freq : K) (bits : Int) : K :=
  (clkHz : K) / (freq * ((pwmTop bits : K) + 1))

/-- It, brought into the range of the prescaler. -/
def clampedDivider (clkHz : Nat) (freq : K) (bits : Int) : K :=
  max 1 (min (idealDivider clkHz freq bits) 65536)

/-- The two tests of `pwm_timing` on the resolution. -/
theorem ite_eq_pwmBits (bits : Int) :
    (if 32 < (if bits < 1 then 1 else bits) then 32
      else if bits < 1 then 1 else bits) = pwmBits bits := by
  unfold pwmBits
  split <;> split <;> omega

theorem pwmTiming_arr_eq (clkHz : Nat) (freq : K) (bits : Int) :
    (pwmTiming clkHz freq bits).arr = pwmTop bits := by
  unfold pwmTiming pwmTop
  simp only [ite_eq_pwmBits]
  split <;> rfl

variable [IsStrictOrderedRing K]

/-- On what is not negative, `lround` rounds to the nearest. -/
theorem lround_eq_round {x : K} (h : 0 ≤ x) : lround x = round x := by
  have hhalf : (0 : K) ≤ x + 1 / 2 := by positivity
  rw [round_eq, lround, toInt_eq, Lib.towardZero, Int.cast_one,
    Int.cast_ofNat, if_pos hhalf]

/-- The two tests on the ticks. -/
theorem ite_eq_clamp (d : K) :
    (if 65536 < (if d < 1 then 1 else d) then 65536
      else if d < 1 then 1 else d) = max 1 (min d 65536) := by
  rcases lt_or_ge d 1 with h1 | h1
  · have hd : d ≤ 65536 := h1.le.trans (by norm_num)
    rw [if_pos h1, if_neg (by norm_num), min_eq_left hd, max_eq_left h1.le]
  · rw [if_neg (not_lt.mpr h1)]
    rcases lt_or_ge 65536 d with h2 | h2
    · rw [if_pos h2, min_eq_right h2.le, max_eq_right (by norm_num)]
    · rw [if_neg (not_lt.mpr h2), min_eq_left h2, max_eq_right h1]

section Psc

variable (clkHz : Nat) (freq : K) (bits : Int)

omit [IsStrictOrderedRing K] in
theorem one_le_clampedDivider : 1 ≤ clampedDivider clkHz freq bits :=
  le_max_left _ _

theorem clampedDivider_le : clampedDivider clkHz freq bits ≤ 65536 :=
  max_le (by norm_num) (min_le_right _ _)

/-- The rounded divider is one the prescaler can be set to. -/
theorem round_clamped_mem :
    1 ≤ round (clampedDivider clkHz freq bits)
      ∧ round (clampedDivider clkHz freq bits) ≤ 65536 := by
  have hlo := one_le_clampedDivider clkHz freq bits
  have hhi := clampedDivider_le clkHz freq bits
  rw [round_eq]
  constructor
  · refine Int.le_floor.mpr ?_
    push_cast
    linarith
  · refine Int.lt_add_one_iff.mp (Int.floor_lt.mpr ?_)
    push_cast
    linarith

variable {freq}

/-- The divider that `pwm_timing` chooses. -/
theorem psc_eq (hfreq : 0 < freq) :
    ((pwmTiming clkHz freq bits).psc : Int) + 1
      = round (clampedDivider clkHz freq bits) := by
  have hpos : ¬ freq ≤ ((0 : Int) : K) := by
    rw [Int.cast_zero]
    exact not_le.mpr hfreq
  have hround : lround (clampedDivider clkHz freq bits)
      = round (clampedDivider clkHz freq bits) :=
    lround_eq_round (zero_le_one.trans (one_le_clampedDivider _ _ _))
  have hpsc : (pwmTiming clkHz freq bits).psc
      = (lround (clampedDivider clkHz freq bits) - 1).toNat := by
    unfold pwmTiming
    simp only [ite_eq_pwmBits, if_neg hpos, Int.cast_one, Int.cast_ofNat,
      Int.cast_natCast, ite_eq_clamp]
    rfl
  obtain ⟨hlo, -⟩ := round_clamped_mem clkHz freq bits
  rw [hpsc, hround]
  omega

end Psc

-- ============================================================ monotonicity

/-- Rounding to the nearest keeps the order. -/
theorem round_le_round {x y : K} (h : x ≤ y) : round x ≤ round y := by
  rw [round_eq, round_eq]
  exact Int.floor_le_floor (add_le_add_left h _)

/-- A larger ideal divider does not get a smaller prescaler. -/
theorem psc_le_psc {clkHz clkHz' : Nat} {freq freq' : K} {bits : Int}
    (hfreq : 0 < freq) (hfreq' : 0 < freq')
    (h : idealDivider clkHz freq bits ≤ idealDivider clkHz' freq' bits) :
    (pwmTiming clkHz freq bits).psc ≤ (pwmTiming clkHz' freq' bits).psc := by
  have hclamp : clampedDivider clkHz freq bits
      ≤ clampedDivider clkHz' freq' bits :=
    max_le_max le_rfl (min_le_min h le_rfl)
  have hround := round_le_round hclamp
  rw [← psc_eq clkHz bits hfreq, ← psc_eq clkHz' bits hfreq'] at hround
  omega

theorem idealDivider_anti (clkHz : Nat) {freq freq' : K} (bits : Int)
    (hfreq : 0 < freq) (h : freq ≤ freq') :
    idealDivider clkHz freq' bits ≤ idealDivider clkHz freq bits := by
  have htop : (0 : K) < (pwmTop bits : K) + 1 := by positivity
  exact div_le_div_of_nonneg_left (by positivity) (by positivity)
    (mul_le_mul_of_nonneg_right h htop.le)

theorem idealDivider_mono {clkHz clkHz' : Nat} {freq : K} (bits : Int)
    (hfreq : 0 < freq) (h : clkHz ≤ clkHz') :
    idealDivider clkHz freq bits ≤ idealDivider clkHz' freq bits :=
  div_le_div_of_nonneg_right (Nat.cast_le.mpr h) (by positivity)

-- ============================================================== the result

/-- What `pwm_timing` returns for a frequency. -/
structure PrescalerBest (clkHz : Nat) (freq : K) (bits : Int) : Prop where
  arr : (pwmTiming clkHz freq bits).arr
    = 2 ^ (max 1 (min bits 32)).toNat - 1
  range : (pwmTiming clkHz freq bits).psc ≤ 65535
  /-- in range, it is within half a step, and no divider is nearer -/
  half : 1 ≤ idealDivider clkHz freq bits →
    idealDivider clkHz freq bits ≤ 65536 →
    |((pwmTiming clkHz freq bits).psc : K) + 1
      - idealDivider clkHz freq bits| ≤ 1 / 2
  nearest : 1 ≤ idealDivider clkHz freq bits →
    idealDivider clkHz freq bits ≤ 65536 → ∀ n : Int,
    |((pwmTiming clkHz freq bits).psc : K) + 1
      - idealDivider clkHz freq bits|
        ≤ |(n : K) - idealDivider clkHz freq bits|
  /-- out of range, it is the nearest end -/
  low : idealDivider clkHz freq bits < 1 →
    (pwmTiming clkHz freq bits).psc = 0
  high : 65536 < idealDivider clkHz freq bits →
    (pwmTiming clkHz freq bits).psc = 65535

theorem prescalerBest (clkHz : Nat) {freq : K} (hfreq : 0 < freq)
    (bits : Int) : PrescalerBest clkHz freq bits := by
  have hpsc := psc_eq clkHz bits hfreq
  obtain ⟨hlo, hhi⟩ := round_clamped_mem clkHz freq bits
  have hcast : ((pwmTiming clkHz freq bits).psc : K) + 1
      = (round (clampedDivider clkHz freq bits) : K) := by
    exact_mod_cast congrArg (Int.cast : Int → K) hpsc
  have hinside : 1 ≤ idealDivider clkHz freq bits →
      idealDivider clkHz freq bits ≤ 65536 →
      clampedDivider clkHz freq bits = idealDivider clkHz freq bits := by
    intro h1 h2
    rw [clampedDivider, min_eq_left h2, max_eq_right h1]
  refine ⟨pwmTiming_arr_eq clkHz freq bits, by omega, ?_, ?_, ?_, ?_⟩
  · intro h1 h2
    rw [hcast, hinside h1 h2, abs_sub_comm]
    exact abs_sub_round _
  · intro h1 h2 n
    rw [hcast, hinside h1 h2, abs_sub_comm, abs_sub_comm (n : K)]
    exact round_le _ n
  · intro h
    have hend : clampedDivider clkHz freq bits = 1 :=
      max_eq_left ((min_le_left _ _).trans h.le)
    rw [hend, round_one] at hpsc
    omega
  · intro h
    have hend : clampedDivider clkHz freq bits = (65536 : Int) := by
      rw [clampedDivider, min_eq_right h.le, max_eq_right (by norm_num)]
      norm_num
    rw [hend, round_intCast] at hpsc
    omega

/-- For every clock, resolution and positive frequency the prescaler is
in range and the best available, and it follows the frequency down and
the clock up. -/
theorem prescaler_best (clkHz : Nat) {freq : K} (hfreq : 0 < freq)
    (bits : Int) :
    PrescalerBest clkHz freq bits
      ∧ (∀ freq', freq ≤ freq' → (pwmTiming clkHz freq' bits).psc
          ≤ (pwmTiming clkHz freq bits).psc)
      ∧ ∀ clkHz', clkHz ≤ clkHz' → (pwmTiming clkHz freq bits).psc
          ≤ (pwmTiming clkHz' freq bits).psc := by
  refine ⟨prescalerBest clkHz hfreq bits, fun freq' h => ?_,
    fun clkHz' h => ?_⟩
  · exact psc_le_psc (hfreq.trans_le h) hfreq
      (idealDivider_anti clkHz bits hfreq h)
  · exact psc_le_psc hfreq hfreq (idealDivider_mono bits hfreq h)

/-- From 16 MHz, 1 kHz at ten bits is in reach of the prescaler: the ideal
divider is 15.625. -/
theorem prescaler_best_inReach :
    idealDivider 16000000 (1000 : ℚ) 10 = 125 / 8
      ∧ (pwmTiming 16000000 (1000 : ℚ) 10).psc = 15
      ∧ PrescalerBest 16000000 (1000 : ℚ) 10
      ∧ (∀ freq' : ℚ, 1000 ≤ freq' → (pwmTiming 16000000 freq' 10).psc
          ≤ (pwmTiming 16000000 (1000 : ℚ) 10).psc)
      ∧ ∀ clkHz', 16000000 ≤ clkHz' →
          (pwmTiming 16000000 (1000 : ℚ) 10).psc
            ≤ (pwmTiming clkHz' (1000 : ℚ) 10).psc :=
  ⟨by decide +kernel, by decide +kernel,
    prescaler_best 16000000 (by norm_num) 10⟩

end Exact

end LinoStm32
