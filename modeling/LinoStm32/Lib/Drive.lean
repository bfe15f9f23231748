/-
A body driving in the plane, in continuous time, and the dead reckoning of
it from samples.

The body has a velocity in its own frame, a complex number, and a turn
rate, both any continuous functions of time. A reckoner is told at the end
of each interval what the two come to over the interval, and adds the
displacement as if the body had not turned meanwhile.

Turns add up, so the reckoned heading is the true one, and the errors of
the intervals are independent: each is what the body travels in the
interval times what it turns (`displacement_sub_le`). A run adds them
(`reckon_error_le`), so halving the intervals halves the error.
-/
import Mathlib

namespace LinoStm32.Lib

-- ================================================================ the body

/-- How a body moves, and the pose it has at time 0. -/
structure Drive where
  vel : ℝ → ℂ
  rate : ℝ → ℝ
  pos₀ : ℂ
  heading₀ : ℝ
  continuous_vel : Continuous vel
  continuous_rate : Continuous rate

/-- What a reckoner is told of an interval. -/
structure Reading where
  dt : ℝ
  travel : ℂ
  turn : ℝ

noncomputable section

/-- The unit vector along a heading. -/
def ahead (h : ℝ) : ℂ := Complex.exp (Complex.I * h)

theorem norm_ahead (h : ℝ) : ‖ahead h‖ = 1 := Complex.norm_exp_I_mul_ofReal h

@[simp] theorem ahead_re (h : ℝ) : (ahead h).re = Real.cos h := by
  rw [ahead, mul_comm, Complex.exp_ofReal_mul_I_re]

@[simp] theorem ahead_im (h : ℝ) : (ahead h).im = Real.sin h := by
  rw [ahead, mul_comm, Complex.exp_ofReal_mul_I_im]

theorem ahead_add (h k : ℝ) : ahead (h + k) = ahead h * ahead k := by
  rw [ahead, ahead, ahead, Complex.ofReal_add, mul_add, Complex.exp_add]

theorem continuous_ahead : Continuous ahead :=
  Complex.continuous_exp.comp
    (continuous_const.mul Complex.continuous_ofReal)

/-- Headings that differ little point nearly the same way. -/
theorem norm_ahead_sub_le (h k : ℝ) : ‖ahead h - ahead k‖ ≤ |h - k| := by
  have hturn : ahead h - ahead k = ahead k * (ahead (h - k) - 1) := by
    rw [mul_sub, mul_one, ← ahead_add, add_sub_cancel]
  rw [hturn, norm_mul, norm_ahead, one_mul]
  exact Real.norm_exp_I_mul_ofReal_sub_one_le

namespace Drive

variable (D : Drive)

/-- The heading, whole turns counted. -/
def heading (t : ℝ) : ℝ := D.heading₀ + ∫ s in (0 : ℝ)..t, D.rate s

/-- The velocity in the plane. -/
def planeVel (t : ℝ) : ℂ := ahead (D.heading t) * D.vel t

/-- The position. -/
def pos (t : ℝ) : ℂ := D.pos₀ + ∫ s in (0 : ℝ)..t, D.planeVel s

/-- What an exact sensor tells of the interval from `a` to `b`. -/
def reading (a b : ℝ) : Reading where
  dt := b - a
  travel := ∫ s in a..b, D.vel s
  turn := ∫ s in a..b, D.rate s

theorem continuous_heading : Continuous D.heading :=
  continuous_const.add
    (intervalIntegral.continuous_primitive
      (fun a b => D.continuous_rate.intervalIntegrable a b) 0)

theorem continuous_planeVel : Continuous D.planeVel :=
  (continuous_ahead.comp D.continuous_heading).mul D.continuous_vel

theorem heading_eq (a b : ℝ) :
    D.heading b = D.heading a + (D.reading a b).turn := by
  rw [heading, heading, add_assoc, reading,
    intervalIntegral.integral_add_adjacent_intervals
      (D.continuous_rate.intervalIntegrable _ _)
      (D.continuous_rate.intervalIntegrable _ _)]

theorem pos_eq (a b : ℝ) :
    D.pos b = D.pos a + ∫ s in a..b, D.planeVel s := by
  rw [pos, pos, add_assoc,
    intervalIntegral.integral_add_adjacent_intervals
      (D.continuous_planeVel.intervalIntegrable _ _)
      (D.continuous_planeVel.intervalIntegrable _ _)]

-- ============================================================= one interval

/-- A body that turns at no more than `W` turns by no more than `W` times
the time. -/
theorem abs_heading_sub_le {W : ℝ} (hW : ∀ t, |D.rate t| ≤ W) {a b : ℝ}
    (hab : a ≤ b) : |D.heading b - D.heading a| ≤ W * (b - a) := by
  rw [D.heading_eq a b, add_sub_cancel_left]
  have hturn : ‖∫ s in a..b, D.rate s‖ ≤ W * |b - a| :=
    intervalIntegral.norm_integral_le_of_norm_le_const fun s _ => hW s
  rwa [abs_of_nonneg (sub_nonneg.mpr hab)] at hturn

/-- The integral of how far the heading can have moved. -/
theorem integral_ramp (a b : ℝ) :
    ∫ s in a..b, (s - a) = (b - a) ^ 2 / 2 := by
  rw [intervalIntegral.integral_comp_sub_right (fun s => s) a, integral_id,
    sub_self]
  ring

/-- The error of adding the travel of an interval along its first
heading. -/
theorem displacement_sub_le {U W : ℝ} (hU : ∀ t, ‖D.vel t‖ ≤ U)
    (hW : ∀ t, |D.rate t| ≤ W) {a b : ℝ} (hab : a ≤ b) :
    ‖D.pos b - D.pos a - ahead (D.heading a) * (D.reading a b).travel‖
      ≤ U * W / 2 * (b - a) ^ 2 := by
  have hint : ∀ f : ℝ → ℂ, Continuous f →
      IntervalIntegrable f MeasureTheory.volume a b :=
    fun f hf => hf.intervalIntegrable a b
  have herr : D.pos b - D.pos a
        - ahead (D.heading a) * (D.reading a b).travel
      = ∫ s in a..b, (ahead (D.heading s) - ahead (D.heading a)) * D.vel s := by
    rw [D.pos_eq a b, add_sub_cancel_left, reading,
      ← intervalIntegral.integral_const_mul,
      ← intervalIntegral.integral_sub]
    · exact intervalIntegral.integral_congr fun s _ => (sub_mul _ _ _).symm
    · exact hint _ D.continuous_planeVel
    · exact hint _ (continuous_const.mul D.continuous_vel)
  have hU₀ : 0 ≤ U := (norm_nonneg _).trans (hU a)
  have hpoint : ∀ s ∈ Set.Ioc a b,
      ‖(ahead (D.heading s) - ahead (D.heading a)) * D.vel s‖
        ≤ U * W * (s - a) := by
    intro s hs
    have hturn : ‖ahead (D.heading s) - ahead (D.heading a)‖ ≤ W * (s - a) :=
      (norm_ahead_sub_le _ _).trans (D.abs_heading_sub_le hW hs.1.le)
    calc ‖(ahead (D.heading s) - ahead (D.heading a)) * D.vel s‖
        ≤ W * (s - a) * U := by
          rw [norm_mul]
          exact mul_le_mul hturn (hU s) (norm_nonneg _)
            ((norm_nonneg _).trans hturn)
      _ = U * W * (s - a) := by ring
  have hramp : ∫ s in a..b, U * W * (s - a) = U * W / 2 * (b - a) ^ 2 := by
    rw [intervalIntegral.integral_const_mul, integral_ramp]
    ring
  rw [herr, ← hramp]
  refine intervalIntegral.norm_integral_le_of_norm_le hab
    (Filter.Eventually.of_forall hpoint) ?_
  exact (continuous_const.mul (continuous_id.sub continuous_const))
    |>.intervalIntegrable a b

-- ================================================================= a run

/-- The reckoned pose after one more reading. -/
def advance (z : ℂ × ℝ) (r : Reading) : ℂ × ℝ :=
  (z.1 + ahead z.2 * r.travel, z.2 + r.turn)

/-- The reckoned pose after a run of readings. -/
def reckon (z : ℂ × ℝ) (rs : List Reading) : ℂ × ℝ := rs.foldl advance z

/-- When a run of readings that begins at `a` ends. -/
def finish (a : ℝ) (rs : List Reading) : ℝ :=
  a + (rs.map Reading.dt).sum

/-- A run of readings that an exact sensor takes one after the other,
beginning at `a`. -/
def Exact : ℝ → List Reading → Prop
  | _, [] => True
  | a, r :: rs =>
      0 ≤ r.dt ∧ r = D.reading a (a + r.dt) ∧ Exact (a + r.dt) rs

theorem finish_cons (a : ℝ) (r : Reading) (rs : List Reading) :
    finish a (r :: rs) = finish (a + r.dt) rs := by
  rw [finish, finish, List.map_cons, List.sum_cons, add_assoc]

variable {D}

/-- Reckoning keeps the heading, and adds to its error in position no more
than each interval's share. -/
theorem reckon_error_le {U W : ℝ} (hU : ∀ t, ‖D.vel t‖ ≤ U)
    (hW : ∀ t, |D.rate t| ≤ W) {a : ℝ} {rs : List Reading}
    (hrs : D.Exact a rs) (z : ℂ × ℝ) (hz : z.2 = D.heading a) :
    (reckon z rs).2 = D.heading (finish a rs)
      ∧ ‖(reckon z rs).1 - D.pos (finish a rs)‖
        ≤ ‖z.1 - D.pos a‖
          + U * W / 2 * (rs.map fun r => r.dt ^ 2).sum := by
  induction rs generalizing a z with
  | nil => simp [reckon, finish, hz]
  | cons r rs ih =>
      obtain ⟨hdt, hr, hrest⟩ := hrs
      have hb : a ≤ a + r.dt := le_add_of_nonneg_right hdt
      have hturn : (advance z r).2 = D.heading (a + r.dt) := by
        rw [D.heading_eq a, ← hr, ← hz]
        rfl
      obtain ⟨hhead, hpos⟩ := ih hrest (advance z r) hturn
      have hstep : ‖(advance z r).1 - D.pos (a + r.dt)‖
          ≤ ‖z.1 - D.pos a‖ + U * W / 2 * r.dt ^ 2 := by
        have hsplit : (advance z r).1 - D.pos (a + r.dt)
            = z.1 - D.pos a
              - (D.pos (a + r.dt) - D.pos a - ahead (D.heading a) * r.travel) := by
          rw [advance, hz]
          ring
        have herr := D.displacement_sub_le hU hW hb
        rw [← hr, add_sub_cancel_left] at herr
        rw [hsplit]
        exact (norm_sub_le _ _).trans (add_le_add_right herr _)
      rw [finish_cons]
      refine ⟨hhead, hpos.trans ?_⟩
      rw [List.map_cons, List.sum_cons, mul_add]
      linarith

end Drive

end

end LinoStm32.Lib
