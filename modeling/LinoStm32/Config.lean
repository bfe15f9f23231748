/-
The board configuration: the macros of `config/f446re_config.h` that the
control loop is constructed from, as one record.

`BoardConfig` holds any board's values; `f446re` is the one board the
repository configures. `Sane` collects what makes a configuration
describe a robot at all: positive limits and geometry, non-negative
gains, at least one PWM bit. The control loop never checks it; the
configured board meets it (`f446re_sane`).
-/
import LinoStm32.Kinematics

namespace LinoStm32

/-- The macros a board header defines for the control loop. -/
structure BoardConfig (F : Type) where
  linoBase : Base
  motorMaxRpm : Int
  maxRpmRatio : F
  motorOperatingVoltage : F
  motorPowerMaxVoltage : F
  wheelDiameter : F
  lrWheelsDistance : F
  countsPerRev : Fin 4 → Int
  kP : F
  kI : F
  kD : F
  pwmBits : Nat
  motorEncoderInv : Fin 4 → Bool
  motorEncoderA : Fin 4 → Int
  motorPwm : Fin 4 → Int
  motorInA : Fin 4 → Int
  motorInB : Fin 4 → Int
  /-- The `is32` column of `ENC_DESCRIPTORS`, by logical id. -/
  encIs32 : Int → Bool

namespace BoardConfig

variable {F : Type}

/-- `PWM_MAX`. -/
def pwmMax (cfg : BoardConfig F) : Int := 2 ^ cfg.pwmBits - 1

/-- `PWM_MIN`. -/
def pwmMin (cfg : BoardConfig F) : Int := -cfg.pwmMax

/-- A wheel whose motor has all three logical ids: `Generic2::used_`. -/
def motorUsed (cfg : BoardConfig F) (w : Fin 4) : Bool :=
  decide (0 ≤ cfg.motorPwm w) && decide (0 ≤ cfg.motorInA w)
    && decide (0 ≤ cfg.motorInB w)

variable [CFloat F]

/-- The kinematics `control_loop_init` constructs. -/
def kinematics (cfg : BoardConfig F) : Kinematics F :=
  Kinematics.new cfg.linoBase cfg.motorMaxRpm cfg.maxRpmRatio
    cfg.motorOperatingVoltage cfg.motorPowerMaxVoltage cfg.wheelDiameter
    cfg.lrWheelsDistance

/-- A configuration that describes a robot: positive limits and
geometry, gains that are not negative, a PWM of at least one bit. -/
structure Sane {K : Type} [Field K] [LinearOrder K]
    (cfg : BoardConfig K) : Prop where
  motorMaxRpm : 0 < cfg.motorMaxRpm
  maxRpmRatio : 0 < cfg.maxRpmRatio
  operatingVoltage : 0 < cfg.motorOperatingVoltage
  powerMaxVoltage : 0 < cfg.motorPowerMaxVoltage
  wheelDiameter : 0 < cfg.wheelDiameter
  lrWheelsDistance : 0 < cfg.lrWheelsDistance
  kP : 0 ≤ cfg.kP
  kI : 0 ≤ cfg.kI
  kD : 0 ≤ cfg.kD
  pwmBits : 0 < cfg.pwmBits

end BoardConfig

/-- `config/f446re_config.h`: a two-wheel differential drive. -/
def f446re {F : Type} [CFloat F] : BoardConfig F where
  linoBase := .differentialDrive
  motorMaxRpm := 140
  maxRpmRatio := ((85 : Int) : F) / ((100 : Int) : F)
  motorOperatingVoltage := ((24 : Int) : F)
  motorPowerMaxVoltage := ((12 : Int) : F)
  wheelDiameter := ((152 : Int) : F) / ((1000 : Int) : F)
  lrWheelsDistance := ((271 : Int) : F) / ((1000 : Int) : F)
  countsPerRev := fun _ => 144000
  kP := ((6 : Int) : F) / ((10 : Int) : F)
  kI := ((8 : Int) : F) / ((10 : Int) : F)
  kD := ((5 : Int) : F) / ((10 : Int) : F)
  pwmBits := 10
  motorEncoderInv := fun _ => false
  motorEncoderA := ![0, 1, -1, -1]
  motorPwm := ![0, 1, -1, -1]
  motorInA := ![0, 2, -1, -1]
  motorInB := ![1, 3, -1, -1]
  encIs32 := fun id => decide (id = 0)

/-- The configured board is sane. -/
theorem f446re_sane : (f446re : BoardConfig ℚ).Sane := by
  constructor <;> norm_num [f446re]

section Exact

variable {K : Type} [Field K] [LinearOrder K] {cfg : BoardConfig K}

theorem BoardConfig.Sane.pwmMax_pos (h : cfg.Sane) : 1 ≤ cfg.pwmMax := by
  have hpow : (2 : Int) ^ 1 ≤ 2 ^ cfg.pwmBits :=
    pow_le_pow_right₀ (by decide) h.pwmBits
  unfold pwmMax
  omega

variable [IsStrictOrderedRing K] [FloorRing K]

theorem PI_pos : (0 : K) < PI := by
  unfold PI
  positivity

namespace BoardConfig

/-- A sane board's wheel speed limit is positive. -/
theorem Sane.maxRpm_pos (h : cfg.Sane) : 0 < cfg.kinematics.maxRpm := by
  have hpow : 0 < constrain cfg.motorPowerMaxVoltage (0 : K)
      cfg.motorOperatingVoltage := by
    rw [constrain_eq h.operatingVoltage.le]
    exact lt_max_of_lt_right (lt_min h.powerMaxVoltage h.operatingVoltage)
  have hrpm : (0 : K) < (cfg.motorMaxRpm : K) := by
    exact_mod_cast h.motorMaxRpm
  show 0 < constrain cfg.motorPowerMaxVoltage ((0 : Int) : K)
      cfg.motorOperatingVoltage / cfg.motorOperatingVoltage
    * (cfg.motorMaxRpm : K) * cfg.maxRpmRatio
  rw [Int.cast_zero]
  exact mul_pos (mul_pos (div_pos hpow h.operatingVoltage) hrpm)
    h.maxRpmRatio

/-- A sane board's wheels have a circumference. -/
theorem Sane.wheelCircumference_pos (h : cfg.Sane) :
    0 < cfg.kinematics.wheelCircumference :=
  mul_pos PI_pos h.wheelDiameter

end BoardConfig

end Exact

end LinoStm32
