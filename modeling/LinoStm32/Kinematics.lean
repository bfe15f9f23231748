/-
The kinematics of `firmware/lib/kinematics`: from a body velocity
command to four wheel speeds (`getRPM`), and from four measured wheel
speeds back to a body velocity (`getVelocities`).

The speed limiter of `calculateRPM` is two guarded rescalings, tried in
order, and four clamps after them. The first rescaling needs the command
not to turn, the second needs it not to move sideways; a command that
does both is limited by the clamps alone.
-/
import LinoStm32.Num

namespace LinoStm32

-- ============================================================ the object

/-- `enum base`. -/
inductive Base
  | differentialDrive
  | skidSteer
  | mecanum
  deriving DecidableEq, Repr

/-- `struct rpm`: one speed per wheel, front left, front right, rear
left, rear right. -/
structure Rpm (F : Type) where
  motor1 : F
  motor2 : F
  motor3 : F
  motor4 : F

/-- The four speeds as the array the control step indexes. -/
def Rpm.target {F : Type} (r : Rpm F) : Fin 4 → F :=
  ![r.motor1, r.motor2, r.motor3, r.motor4]

/-- `struct velocities`. -/
structure Velocities (F : Type) where
  linearX : F
  linearY : F
  angularZ : F

/-- `class Kinematics`. -/
structure Kinematics (F : Type) where
  basePlatform : Base
  maxRpm : F
  wheelsYDistance : F
  wheelCircumference : F
  totalWheels : Int

namespace Kinematics

variable {F : Type} [CFloat F]

/-- `Kinematics::getTotalWheels`. -/
def getTotalWheels : Base → Int
  | .differentialDrive => 2
  | .skidSteer => 4
  | .mecanum => 4

/-- The constructor: the speed limit is the nominal limit at the supply
voltage, which is first clamped to the motor's operating voltage. -/
def new (robotBase : Base) (motorMaxRpm : Int)
    (maxRpmRatio motorOperatingVoltage motorPowerMaxVoltage
      wheelDiameter wheelsYDistance : F) : Kinematics F :=
  let power :=
    constrain motorPowerMaxVoltage ((0 : Int) : F) motorOperatingVoltage
  { basePlatform := robotBase
    maxRpm := (power / motorOperatingVoltage * (motorMaxRpm : F))
      * maxRpmRatio
    wheelsYDistance := wheelsYDistance
    wheelCircumference := PI * wheelDiameter
    totalWheels := getTotalWheels robotBase }

/-- An object some call of the constructor made. -/
def Built (k : Kinematics F) : Prop :=
  ∃ (robotBase : Base) (motorMaxRpm : Int)
    (maxRpmRatio motorOperatingVoltage motorPowerMaxVoltage wheelDiameter
      wheelsYDistance : F),
    k = new robotBase motorMaxRpm maxRpmRatio motorOperatingVoltage
      motorPowerMaxVoltage wheelDiameter wheelsYDistance

/-- Its wheel count is that of its base. -/
theorem Built.totalWheels {k : Kinematics F} (h : k.Built) :
    k.totalWheels = getTotalWheels k.basePlatform := by
  obtain ⟨_, _, _, _, _, _, _, rfl⟩ := h
  rfl

/-- The three components of a command as wheel speeds, in revolutions a
minute: along x, along y, and from turning. -/
structure Demand (F : Type) where
  x : F
  y : F
  tan : F

/-- The first part of `calculateRPM`: metres a second and radians a
second to revolutions a minute. -/
def demand (k : Kinematics F) (linearX linearY angularZ : F) : Demand F :=
  let tangentialVel := angularZ * (k.wheelsYDistance / ((2 : Int) : F))
  { x := linearX * ((60 : Int) : F) / k.wheelCircumference
    y := linearY * ((60 : Int) : F) / k.wheelCircumference
    tan := tangentialVel * ((60 : Int) : F) / k.wheelCircumference }

/-- The scaling part of `calculateRPM`: the two guarded branches. -/
def scale (k : Kinematics F) (linearY angularZ : F) (d : Demand F) :
    Demand F :=
  let xySum := fabs d.x + fabs d.y
  let xtanSum := fabs d.x + fabs d.tan
  if k.maxRpm ≤ xySum ∧ CFloat.feq angularZ ((0 : Int) : F) = true then
    let velScaler := k.maxRpm / xySum
    { d with x := d.x * velScaler, y := d.y * velScaler }
  else if k.maxRpm ≤ xtanSum ∧ CFloat.feq linearY ((0 : Int) : F) = true
  then
    let velScaler := k.maxRpm / xtanSum
    { d with x := d.x * velScaler, tan := d.tan * velScaler }
  else d

/-- The last part of `calculateRPM`: mix the demand into four wheels and
clamp each. -/
def mix (k : Kinematics F) (d : Demand F) : Rpm F where
  motor1 := constrain (d.x - d.y - d.tan) (-k.maxRpm) k.maxRpm
  motor2 := constrain (d.x + d.y + d.tan) (-k.maxRpm) k.maxRpm
  motor3 := constrain (d.x + d.y - d.tan) (-k.maxRpm) k.maxRpm
  motor4 := constrain (d.x - d.y + d.tan) (-k.maxRpm) k.maxRpm

/-- `Kinematics::calculateRPM`. -/
def calculateRPM (k : Kinematics F) (linearX linearY angularZ : F) :
    Rpm F :=
  k.mix (k.scale linearY angularZ (k.demand linearX linearY angularZ))

/-- `Kinematics::getRPM`: a base that cannot move sideways drops the
lateral component. -/
def getRPM (k : Kinematics F) (linearX linearY angularZ : F) : Rpm F :=
  match k.basePlatform with
  | .mecanum => k.calculateRPM linearX linearY angularZ
  | _ => k.calculateRPM linearX ((0 : Int) : F) angularZ

/-- `Kinematics::getVelocities`: a differential drive ignores the rear
pair; only a mecanum base reports a lateral velocity. -/
def getVelocities (k : Kinematics F) (rpm1 rpm2 rpm3 rpm4 : F) :
    Velocities F :=
  let rpm3 := match k.basePlatform with
    | .differentialDrive => ((0 : Int) : F)
    | _ => rpm3
  let rpm4 := match k.basePlatform with
    | .differentialDrive => ((0 : Int) : F)
    | _ => rpm4
  let averageRpsX :=
    (rpm1 + rpm2 + rpm3 + rpm4) / (k.totalWheels : F) / ((60 : Int) : F)
  let averageRpsY :=
    (-rpm1 + rpm2 + rpm3 - rpm4) / (k.totalWheels : F) / ((60 : Int) : F)
  let averageRpsA :=
    (-rpm1 + rpm2 - rpm3 + rpm4) / (k.totalWheels : F) / ((60 : Int) : F)
  { linearX := averageRpsX * k.wheelCircumference
    linearY := match k.basePlatform with
      | .mecanum => averageRpsY * k.wheelCircumference
      | _ => ((0 : Int) : F)
    angularZ := averageRpsA * k.wheelCircumference
      / (k.wheelsYDistance / ((2 : Int) : F)) }

/-- `Kinematics::getMaxRPM`. -/
def getMaxRPM (k : Kinematics F) : F := k.maxRpm

-- ======================================================= read exactly

section Exact

variable {K : Type} [Field K] [LinearOrder K] [IsStrictOrderedRing K]
  [FloorRing K]

/-- With a positive speed limit the zero command asks every wheel to
stand still. -/
theorem getRPM_zero (k : Kinematics K) (hk : 0 < k.maxRpm) (w : Fin 4) :
    (k.getRPM 0 0 0).target w = 0 := by
  have hdemand : k.demand 0 0 0 = ⟨0, 0, 0⟩ := by simp [demand]
  have hscale : k.scale 0 0 ⟨0, 0, 0⟩ = ⟨0, 0, 0⟩ := by
    simp [scale, fabs_eq_abs]
  have hmix : (k.mix ⟨0, 0, 0⟩).target w = 0 := by
    have h0 : constrain (0 : K) (-k.maxRpm) k.maxRpm = 0 :=
      constrain_of_mem (by linarith) hk.le
    fin_cases w <;> simpa [mix, Rpm.target] using h0
  have hcalc : (k.calculateRPM 0 0 0).target w = 0 := by
    rw [calculateRPM, hdemand, hscale, hmix]
  cases hb : k.basePlatform <;> simpa [getRPM, hb] using hcalc

omit [IsStrictOrderedRing K] in
/-- A differential drive turns by the difference of its front pair. -/
theorem getVelocities_differential {k : Kinematics K}
    (hb : k.basePlatform = .differentialDrive) (rpm1 rpm2 rpm3 rpm4 : K) :
    (k.getVelocities rpm1 rpm2 rpm3 rpm4).angularZ
      = (rpm2 - rpm1) / (k.totalWheels : K) / 60 * k.wheelCircumference
          / (k.wheelsYDistance / 2) := by
  simp only [getVelocities, hb, Int.cast_zero, Int.cast_ofNat]
  ring

end Exact

end Kinematics

end LinoStm32
