/-
Division by zero in the wheel-speed computation.

`getRPM` divides by 2, by the wheel circumference, and, in each branch
of its limiter, by the speed the command asks of the wheels. The
branches are entered on `>=`: with a speed limit of zero they are
entered by a command that asks for nothing, and the scaler is 0 / 0. The
limit is zero whenever the power voltage is zero or below, which the
constructor's clamp makes of every such argument.

# Which divisions

The divisions are not listed by hand. The same definitions are run over
`Traced` numbers, which carry the divisors that went into them; the
trace is read before the four output clamps, which drop values.
-/
import LinoStm32.Proofs.Poison

namespace LinoStm32

open QNaN

-- ======================================================== traced numbers

/-- A number with the divisor of every division that went into it. -/
structure Traced (F : Type) where
  val : F
  divisors : List F

namespace Traced

variable {F : Type} [CFloat F]

/-- A number no division has gone into yet. -/
def ofVal (x : F) : Traced F := ⟨x, []⟩

instance : CFloat (Traced F) where
  add a b := ⟨a.val + b.val, a.divisors ++ b.divisors⟩
  sub a b := ⟨a.val - b.val, a.divisors ++ b.divisors⟩
  mul a b := ⟨a.val * b.val, a.divisors ++ b.divisors⟩
  div a b := ⟨a.val / b.val, a.divisors ++ b.divisors ++ [b.val]⟩
  neg a := ⟨-a.val, a.divisors⟩
  lt a b := a.val < b.val
  le a b := a.val ≤ b.val
  intCast n := ofVal (n : F)
  decLt a b := inferInstanceAs (Decidable (a.val < b.val))
  decLe a b := inferInstanceAs (Decidable (a.val ≤ b.val))
  feq a b := CFloat.feq a.val b.val
  toInt a := CFloat.toInt a.val

/-- `fabs` divides by nothing. -/
theorem fabs_eq (a : Traced F) : fabs a = ⟨fabs a.val, a.divisors⟩ := by
  show (if a.val < ((0 : Int) : F) then -a else a)
    = ⟨if a.val < ((0 : Int) : F) then -a.val else a.val, a.divisors⟩
  split <;> rfl

end Traced

-- ============================================== the divisions of getRPM

namespace Kinematics

section Divisors

variable {F : Type} [CFloat F]

/-- The object as `getRPM` finds it: its members are stored values. -/
def traced (k : Kinematics F) : Kinematics (Traced F) where
  basePlatform := k.basePlatform
  maxRpm := .ofVal k.maxRpm
  wheelsYDistance := .ofVal k.wheelsYDistance
  wheelCircumference := .ofVal k.wheelCircumference
  totalWheels := k.totalWheels

/-- The demand on traced numbers. -/
def tracedDemand (k : Kinematics F) (x y wz : F) : Demand (Traced F) :=
  k.traced.demand (.ofVal x) (.ofVal y) (.ofVal wz)

/-- The limited demand on traced numbers. -/
def tracedScale (k : Kinematics F) (x y wz : F) : Demand (Traced F) :=
  k.traced.scale (.ofVal y) (.ofVal wz) (k.tracedDemand x y wz)

/-- The divisors of the divisions `calculateRPM` evaluates. -/
def calculateDivisors (k : Kinematics F) (x y wz : F) : List F :=
  (k.tracedScale x y wz).x.divisors ++ (k.tracedScale x y wz).y.divisors
    ++ (k.tracedScale x y wz).tan.divisors

/-- The lateral component `getRPM` passes on. -/
def lateral (k : Kinematics F) (linearY : F) : F :=
  match k.basePlatform with
  | .mecanum => linearY
  | _ => ((0 : Int) : F)

/-- The divisors of the divisions `getRPM` evaluates. -/
def divisors (k : Kinematics F) (linearX linearY angularZ : F) : List F :=
  k.calculateDivisors linearX (k.lateral linearY) angularZ

theorem getRPM_eq (k : Kinematics F) (x y wz : F) :
    k.getRPM x y wz = k.calculateRPM x (k.lateral y) wz := by
  cases hb : k.basePlatform <;> simp only [getRPM, lateral, hb]

/-- The limiter's three ways out, with what each component was divided
by. -/
theorem tracedScale_eq (k : Kinematics F) (x y wz : F) :
    k.tracedScale x y wz =
      let d := k.demand x y wz
      let two := ((2 : Int) : F)
      let c := k.wheelCircumference
      let xySum := fabs d.x + fabs d.y
      let xtanSum := fabs d.x + fabs d.tan
      if k.maxRpm ≤ xySum ∧ CFloat.feq wz ((0 : Int) : F) = true then
        { x := ⟨d.x * (k.maxRpm / xySum), [c, c, c, xySum]⟩
          y := ⟨d.y * (k.maxRpm / xySum), [c, c, c, xySum]⟩
          tan := ⟨d.tan, [two, c]⟩ }
      else if k.maxRpm ≤ xtanSum ∧ CFloat.feq y ((0 : Int) : F) = true then
        { x := ⟨d.x * (k.maxRpm / xtanSum), [c, c, two, c, xtanSum]⟩
          y := ⟨d.y, [c]⟩
          tan := ⟨d.tan * (k.maxRpm / xtanSum),
            [two, c, c, two, c, xtanSum]⟩ }
      else ⟨⟨d.x, [c]⟩, ⟨d.y, [c]⟩, ⟨d.tan, [two, c]⟩⟩ := by
  unfold tracedScale scale
  simp only [Traced.fabs_eq]
  rfl

/-- The traced run computes what the plain run computes. -/
theorem tracedScale_val (k : Kinematics F) (x y wz : F) :
    (⟨(k.tracedScale x y wz).x.val, (k.tracedScale x y wz).y.val,
        (k.tracedScale x y wz).tan.val⟩ : Demand F)
      = k.scale y wz (k.demand x y wz) := by
  rw [tracedScale_eq]
  unfold scale
  dsimp only
  split
  · rfl
  · split <;> rfl

/-- `getRPM` mixes the values of the traced run. -/
theorem getRPM_traced (k : Kinematics F) (x y wz : F) :
    k.getRPM x y wz
      = k.mix ⟨(k.tracedScale x (k.lateral y) wz).x.val,
          (k.tracedScale x (k.lateral y) wz).y.val,
          (k.tracedScale x (k.lateral y) wz).tan.val⟩ := by
  rw [getRPM_eq, tracedScale_val]
  rfl

/-- The divisors are 2, the circumference, and that of the branch
taken. -/
theorem mem_calculateDivisors (k : Kinematics F) (x y wz c : F) :
    c ∈ k.calculateDivisors x y wz ↔
      let d := k.demand x y wz
      let xySum := fabs d.x + fabs d.y
      let xtanSum := fabs d.x + fabs d.tan
      c = ((2 : Int) : F) ∨ c = k.wheelCircumference
        ∨ if k.maxRpm ≤ xySum ∧ CFloat.feq wz ((0 : Int) : F) = true
          then c = xySum
          else (k.maxRpm ≤ xtanSum ∧ CFloat.feq y ((0 : Int) : F) = true)
            ∧ c = xtanSum := by
  unfold calculateDivisors
  rw [tracedScale_eq]
  dsimp only
  split
  · simp only [List.mem_append, List.mem_cons, List.not_mem_nil, or_false]
    grind
  · split
    · next h =>
      simp only [List.mem_append, List.mem_cons, List.not_mem_nil, or_false,
        h, true_and]
      grind
    · next h =>
      simp only [List.mem_append, List.mem_cons, List.not_mem_nil, or_false,
        h, false_and]
      grind

end Divisors

-- ==================================================== a divisor of zero

section Zero

theorem feq_zero_iff (a : QNaN) :
    CFloat.feq a ((0 : Int) : QNaN) = true ↔ a = num 0 := by
  cases a with
  | num q => simp
  | nan => simp [CFloat.feq, QNaN.test]

theorem fabs_nan : fabs nan = nan := rfl

theorem nan_div (x : QNaN) : nan / x = nan := rfl

/-- Two magnitudes that add up to zero are both zero. -/
theorem fabs_add_eq_zero_iff (a b : QNaN) :
    fabs a + fabs b = num 0 ↔ a = num 0 ∧ b = num 0 := by
  cases a with
  | nan => simp [fabs_nan]
  | num p =>
      cases b with
      | nan => simp [fabs_nan]
      | num q =>
          rw [fabs_num, fabs_num, num_add, num.injEq, num.injEq, num.injEq,
            fabs_eq_abs, fabs_eq_abs,
            add_eq_zero_iff_of_nonneg (abs_nonneg p) (abs_nonneg q),
            abs_eq_zero, abs_eq_zero]

/-- A component as a wheel speed is zero when the component is. -/
theorem wheel_eq_zero_iff {c : ℚ} (hc : c ≠ 0) (v : QNaN) :
    v * ((60 : Int) : QNaN) / num c = num 0 ↔ v = num 0 := by
  cases v with
  | nan => simp [nan_div]
  | num q =>
      rw [intCast_eq, num_mul, num_div hc, num.injEq, num.injEq]
      simp [hc]

variable {k : Kinematics ℚ}

theorem demand_x_eq_zero_iff (hcirc : k.wheelCircumference ≠ 0)
    (x y wz : QNaN) :
    (k.withNaN.demand x y wz).x = num 0 ↔ x = num 0 :=
  wheel_eq_zero_iff hcirc x

theorem demand_y_eq_zero_iff (hcirc : k.wheelCircumference ≠ 0)
    (x y wz : QNaN) :
    (k.withNaN.demand x y wz).y = num 0 ↔ y = num 0 :=
  wheel_eq_zero_iff hcirc y

theorem demand_tan_eq_zero_iff (hcirc : k.wheelCircumference ≠ 0)
    (x y wz : QNaN) :
    (k.withNaN.demand x y wz).tan = num 0
      ↔ wz * num k.wheelsYDistance = num 0 := by
  have h2 : ((2 : Int) : ℚ) ≠ 0 := by norm_num
  refine (wheel_eq_zero_iff hcirc _).trans ?_
  cases wz with
  | nan => simp
  | num q =>
      show num q * (num k.wheelsYDistance / ((2 : Int) : QNaN)) = num 0 ↔ _
      rw [intCast_eq, num_div h2, num_mul, num_mul, num.injEq, num.injEq]
      simp

/-- Only a zero limit lets a branch divide by a sum of zero, and then
exactly the commands that ask nothing of the wheels do. -/
theorem zero_mem_divisors_iff (hmax : 0 ≤ k.maxRpm)
    (hcirc : k.wheelCircumference ≠ 0) (x y wz : QNaN) :
    num 0 ∈ k.withNaN.calculateDivisors x y wz
      ↔ k.maxRpm = 0 ∧ x = num 0 ∧ y = num 0
        ∧ wz * num k.wheelsYDistance = num 0 := by
  have h2 : num 0 ≠ ((2 : Int) : QNaN) := by decide
  have hc : num 0 ≠ k.withNaN.wheelCircumference :=
    fun h => hcirc (num.inj h).symm
  have hlimit : k.withNaN.maxRpm ≤ num 0 ↔ k.maxRpm = 0 :=
    (num_le _ _).trans ⟨fun h => le_antisymm h hmax, fun h => h.le⟩
  rw [mem_calculateDivisors]
  simp only [h2, hc, false_or, feq_zero_iff, eq_comm (a := num 0)]
  constructor
  · intro h
    split at h
    · next hbranch =>
      obtain ⟨hle, hwz⟩ := hbranch
      rw [h] at hle
      rw [fabs_add_eq_zero_iff, demand_x_eq_zero_iff hcirc,
        demand_y_eq_zero_iff hcirc] at h
      refine ⟨hlimit.mp hle, h.1, h.2, ?_⟩
      rw [hwz, num_mul, zero_mul]
    · obtain ⟨⟨hle, hy⟩, h⟩ := h
      rw [h] at hle
      rw [fabs_add_eq_zero_iff, demand_x_eq_zero_iff hcirc,
        demand_tan_eq_zero_iff hcirc] at h
      exact ⟨hlimit.mp hle, h.1, hy, h.2⟩
  · intro h
    obtain ⟨hzero, hx, hy, htan⟩ := h
    have hdx := (demand_x_eq_zero_iff hcirc x y wz).mpr hx
    have hdy := (demand_y_eq_zero_iff hcirc x y wz).mpr hy
    have hdt := (demand_tan_eq_zero_iff hcirc x y wz).mpr htan
    split
    · exact (fabs_add_eq_zero_iff _ _).mpr ⟨hdx, hdy⟩
    · have hsum := (fabs_add_eq_zero_iff _ _).mpr ⟨hdx, hdt⟩
      refine ⟨⟨?_, hy⟩, hsum⟩
      rw [hsum]
      exact hlimit.mpr hzero

/-- The lateral component that reaches the wheels. -/
theorem lateral_eq_zero_iff (k : Kinematics QNaN) (y : QNaN) :
    k.lateral y = num 0 ↔ ¬ (k.basePlatform = .mecanum ∧ y ≠ num 0) := by
  cases hb : k.basePlatform <;> simp [lateral, hb]

/-- No division by zero: the limit is positive or the command asks
something of the wheels. -/
theorem divisors_ne_zero_iff (hmax : 0 ≤ k.maxRpm)
    (hcirc : k.wheelCircumference ≠ 0) (x y wz : QNaN) :
    (∀ c ∈ k.withNaN.divisors x y wz, c ≠ num 0)
      ↔ 0 < k.maxRpm ∨ x ≠ num 0
        ∨ (k.basePlatform = .mecanum ∧ y ≠ num 0)
        ∨ wz * num k.wheelsYDistance ≠ num 0 := by
  have hmem : (∀ c ∈ k.withNaN.divisors x y wz, c ≠ num 0)
      ↔ num 0 ∉ k.withNaN.divisors x y wz :=
    ⟨fun h hm => h _ hm rfl, fun h c hc he => h (he ▸ hc)⟩
  have hlateral : k.withNaN.lateral y = num 0
      ↔ ¬ (k.basePlatform = .mecanum ∧ y ≠ num 0) :=
    lateral_eq_zero_iff k.withNaN y
  have hne : k.maxRpm = 0 ↔ ¬ 0 < k.maxRpm :=
    ⟨fun h => h.not_gt, fun h => le_antisymm (not_lt.mp h) hmax⟩
  rw [hmem, divisors, zero_mem_divisors_iff hmax hcirc, hlateral, hne,
    not_and_or, not_and_or, not_and_or, not_not, not_not]

end Zero

-- ======================================================== the constructor

section New

variable (robotBase : Base) (motorMaxRpm : Int)
  (ratio operating power diameter distance : ℚ)

/-- The limit is never negative, and positive when all its factors
are. -/
theorem new_maxRpm (hop : 0 < operating) (hrpm : 0 ≤ motorMaxRpm)
    (hratio : 0 ≤ ratio) :
    0 ≤ (Kinematics.new robotBase motorMaxRpm ratio operating power diameter
        distance).maxRpm
      ∧ (0 < (Kinematics.new robotBase motorMaxRpm ratio operating power
          diameter distance).maxRpm
        ↔ 0 < power ∧ 0 < motorMaxRpm ∧ 0 < ratio) := by
  have hrpm' : (0 : ℚ) ≤ (motorMaxRpm : ℚ) := by exact_mod_cast hrpm
  have hclamp := constrain_mem hop.le power
  have hpower : 0 < constrain power 0 operating ↔ 0 < power := by
    rw [constrain_eq hop.le]
    simp [hop]
  have heq : (Kinematics.new robotBase motorMaxRpm ratio operating power
      diameter distance).maxRpm
      = constrain power 0 operating / operating * (motorMaxRpm : ℚ)
        * ratio := by
    simp only [Kinematics.new, Int.cast_zero]
  have hvolt : 0 ≤ constrain power 0 operating / operating :=
    div_nonneg hclamp.1 hop.le
  rw [heq]
  refine ⟨by positivity, ?_⟩
  constructor
  · intro h
    obtain ⟨hprod, hr⟩ := mul_ne_zero_iff.mp h.ne'
    obtain ⟨hquot, hm⟩ := mul_ne_zero_iff.mp hprod
    have hp := (div_ne_zero_iff.mp hquot).1
    refine ⟨hpower.mp (lt_of_le_of_ne hclamp.1 hp.symm), ?_,
      lt_of_le_of_ne hratio hr.symm⟩
    exact_mod_cast lt_of_le_of_ne hrpm' hm.symm
  · intro h
    obtain ⟨hp, hm, hr⟩ := h
    have hm' : (0 : ℚ) < (motorMaxRpm : ℚ) := by exact_mod_cast hm
    have hp' := div_pos (hpower.mpr hp) hop
    positivity

/-- With a limit of zero, standing still is scaled by 0 / 0. -/
theorem scale_zero_of_limit {k : Kinematics ℚ} (hk : k.maxRpm = 0) :
    (k.withNaN.scale (num 0) (num 0) ⟨num 0, num 0, num 0⟩).x = nan := by
  have hlimit : k.withNaN.maxRpm = num 0 := congrArg num hk
  simp only [scale, hlimit]
  decide +kernel

/-- The zero command is answered by zero on every wheel exactly when the
limit is positive. -/
theorem getRPM_zero_iff {k : Kinematics ℚ} (hmax : 0 ≤ k.maxRpm)
    (hcirc : k.wheelCircumference ≠ 0) :
    (∀ w, (k.withNaN.getRPM (num 0) (num 0) (num 0)).target w = num 0)
      ↔ 0 < k.maxRpm := by
  constructor
  · intro h
    by_contra hpos
    have hk : k.maxRpm = 0 := le_antisymm (not_lt.mp hpos) hmax
    have hlateral : k.withNaN.lateral (num 0) = num 0 := by
      unfold lateral
      split <;> rfl
    have hdemand : k.withNaN.demand (num 0) (num 0) (num 0)
        = ⟨num 0, num 0, num 0⟩ := by
      rw [demand_num hcirc]
      simp [demand, Demand.withNaN]
    have hnan : (k.withNaN.getRPM (num 0) (num 0) (num 0)).target 0
        = nan := by
      rw [getRPM_eq, hlateral, calculateRPM, hdemand]
      exact mix_nan (Or.inl (scale_zero_of_limit hk)) 0
    rw [h 0] at hnan
    cases hnan
  · intro hpos w
    rw [target_num hpos hcirc, getRPM_zero k hpos]

/-- No command makes `getRPM` divide by zero when the power voltage, the
rated speed and the ratio are all positive. Otherwise the commands that
ask nothing of the wheels do, and the zero command is among them: its
wheels do not get the speed zero. -/
theorem divides_safely_iff (hop : 0 < operating) (hdiam : 0 < diameter)
    (hrpm : 0 ≤ motorMaxRpm) (hratio : 0 ≤ ratio) :
    let k : Kinematics QNaN := .new robotBase motorMaxRpm (num ratio)
      (num operating) (num power) (num diameter) (num distance)
    (∀ x y wz, (∀ c ∈ k.divisors x y wz, c ≠ num 0)
      ↔ (0 < power ∧ 0 < motorMaxRpm ∧ 0 < ratio)
        ∨ x ≠ num 0 ∨ (robotBase = .mecanum ∧ y ≠ num 0)
        ∨ wz * num distance ≠ num 0)
    ∧ ((∀ w, (k.getRPM (num 0) (num 0) (num 0)).target w = num 0)
      ↔ 0 < power ∧ 0 < motorMaxRpm ∧ 0 < ratio) := by
  obtain ⟨hmax, hpos⟩ := new_maxRpm robotBase motorMaxRpm ratio operating
    power diameter distance hop hrpm hratio
  have hcirc : (Kinematics.new robotBase motorMaxRpm ratio operating power
      diameter distance).wheelCircumference ≠ 0 :=
    (mul_pos PI_pos hdiam).ne'
  intro k
  have hk : k = (Kinematics.new robotBase motorMaxRpm ratio operating power
      diameter distance).withNaN := new_withNaN hop
  rw [hk, ← hpos]
  exact ⟨divisors_ne_zero_iff hmax hcirc, getRPM_zero_iff hmax hcirc⟩

end New

/-- The configured board, standing still or not. -/
theorem divides_safely_iff_f446re :
    let k : Kinematics QNaN := .new .differentialDrive 140
      (num (85 / 100)) (num 24) (num 12) (num (152 / 1000))
      (num (271 / 1000))
    (∀ x y wz, (∀ c ∈ k.divisors x y wz, c ≠ num 0)
      ↔ ((0 : ℚ) < 12 ∧ (0 : Int) < 140 ∧ (0 : ℚ) < 85 / 100)
        ∨ x ≠ num 0
        ∨ (Base.differentialDrive = .mecanum ∧ y ≠ num 0)
        ∨ wz * num (271 / 1000) ≠ num 0)
    ∧ ((∀ w, (k.getRPM (num 0) (num 0) (num 0)).target w = num 0)
      ↔ (0 : ℚ) < 12 ∧ (0 : Int) < 140 ∧ (0 : ℚ) < 85 / 100) :=
  divides_safely_iff _ _ _ _ _ _ _ (by norm_num) (by norm_num)
    (by norm_num) (by norm_num)

/-- The configured board with a power voltage of zero: standing still
divides by zero, and wheel 1 gets a NaN for a speed. -/
theorem standing_still_divides_by_zero :
    let k : Kinematics QNaN := .new .differentialDrive 140
      (num (85 / 100)) (num 24) (num 0) (num (152 / 1000))
      (num (271 / 1000))
    ¬ ((∀ x y wz, ∀ c ∈ k.divisors x y wz, c ≠ num 0)
      ∧ ∀ w, (k.getRPM (num 0) (num 0) (num 0)).target w = num 0) := by
  intro k h
  have hmem : num 0 ∈ k.divisors (num 0) (num 0) (num 0) := by
    decide +kernel
  exact h.1 _ _ _ _ hmem rfl

end Kinematics

end LinoStm32
