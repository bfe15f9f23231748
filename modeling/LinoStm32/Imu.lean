/-
The inertial sensor: the register arithmetic of `Inc/imu_math.h`, the
drivers `Mpu6050Imu` and `FakeIMU` of `Inc/stm32_imu.h`, and
`IMUInterface::getData` over each.

The bus is outside: what one transfer does is an input. A burst read of
six registers delivers them or fails (`Burst`); a failed one leaves the
caller's buffer unused.

`readGyroscope` keeps in `gyro` what it returns, and takes the bias off
that member at every call, also when the read failed; `readAccelerometer`
returns its member as the last good read left it.
-/
import LinoStm32.ControlLoop

namespace LinoStm32

-- ============================================================== imu_math

/-- A burst of six registers, or a failed transfer. -/
abbrev Burst := Option (Fin 6 → BitVec 8)

section ImuMath

/-- `be16`: a signed 16-bit number from a register pair, high byte
first. -/
def be16 (hi lo : BitVec 8) : Int :=
  (hi.setWidth 16 <<< 8 ||| lo.setWidth 16).toInt

variable {F : Type} [CFloat F]

/-- `kGToMs2`. -/
def kGToMs2 : F := ((981 : Int) : F) / ((100 : Int) : F)

/-- `kDegToRad`. -/
def kDegToRad : F :=
  ((314159265358979323846 : Int) : F) / ((100000000000000000000 : Int) : F)
    / ((180 : Int) : F)

/-- `mpu6050_accel_lsb_to_ms2`. -/
def mpu6050AccelLsbToMs2 (raw : Int) : F :=
  (raw : F) * (((1 : Int) : F) / ((16384 : Int) : F)) * kGToMs2

/-- `mpu6050_gyro_lsb_to_rads`. -/
def mpu6050GyroLsbToRads (raw : Int) : F :=
  (raw : F) * (((1 : Int) : F) / ((131 : Int) : F)) * kDegToRad

/-- Three axes from six registers. -/
def scaled (conv : Int → F) (b : Fin 6 → BitVec 8) : Vector3 F where
  x := conv (be16 (b 0) (b 1))
  y := conv (be16 (b 2) (b 3))
  z := conv (be16 (b 4) (b 5))

end ImuMath

namespace Vector3

variable {F : Type} [CFloat F]

/-- The zero-initialised vector. -/
def zero : Vector3 F :=
  ⟨((0 : Int) : F), ((0 : Int) : F), ((0 : Int) : F)⟩

/-- `+=`, axis by axis. -/
def add (a b : Vector3 F) : Vector3 F := ⟨a.x + b.x, a.y + b.y, a.z + b.z⟩

/-- `-=`, axis by axis. -/
def sub (a b : Vector3 F) : Vector3 F := ⟨a.x - b.x, a.y - b.y, a.z - b.z⟩

end Vector3

-- ============================================================ Mpu6050Imu

/-- `class Mpu6050Imu` with the message of its base class. -/
structure Mpu6050Imu (F : Type) where
  accel : Vector3 F
  gyro : Vector3 F
  bias : Vector3 F
  calibrated : Bool
  lastReadOk : Bool
  imuMsg : ImuMsg F

/-- What the bus does while `startSensor` runs: the identity register, and
whether each of the three register writes succeeds. -/
structure StartBus where
  whoAmI : Option (BitVec 8)
  pwrMgmt1 : Bool
  gyroConfig : Bool
  accelConfig : Bool

namespace Mpu6050Imu

variable {F : Type} [CFloat F]

/-- The constructor. It does not initialise the message: `imuMsg` is what
the memory holds. -/
def new (imuMsg : ImuMsg F) : Mpu6050Imu F where
  accel := Vector3.zero
  gyro := Vector3.zero
  bias := Vector3.zero
  calibrated := false
  lastReadOk := false
  imuMsg := imuMsg

/-- `MPU6050_WHO_AM_I_VALUE`. -/
def whoAmIValue : BitVec 8 := 0x68

/-- `startSensor`: each step needs the ones before it. -/
def startSensor (bus : StartBus) : Bool :=
  match bus.whoAmI with
  | none => false
  | some who =>
      if who ≠ whoAmIValue then false
      else if !bus.pwrMgmt1 then false
      else if !bus.gyroConfig then false
      else if !bus.accelConfig then false
      else true

/-- `readAccelerometer`. -/
def readAccelerometer (o : Mpu6050Imu F) (r : Burst) :
    Vector3 F × Mpu6050Imu F :=
  let o' := match r with
    | some b => { o with
        lastReadOk := true
        accel := scaled mpu6050AccelLsbToMs2 b }
    | none => { o with lastReadOk := false }
  (o'.accel, o')

/-- `readGyroscope`. -/
def readGyroscope (o : Mpu6050Imu F) (r : Burst) :
    Vector3 F × Mpu6050Imu F :=
  let o' := match r with
    | some b => { o with
        lastReadOk := true
        gyro := scaled mpu6050GyroLsbToRads b }
    | none => { o with lastReadOk := false }
  let o'' := if o'.calibrated then { o' with gyro := o'.gyro.sub o'.bias }
    else o'
  (o''.gyro, o'')

/-- The loop of `init`: each sample read is added to the sum. -/
def sumSamples (sum : Vector3 F) (o : Mpu6050Imu F) :
    List Burst → Vector3 F × Mpu6050Imu F
  | [] => (sum, o)
  | r :: rs =>
      let g := o.readGyroscope r
      sumSamples (sum.add g.1) g.2 rs

/-- `init`: start the sensor, and store the average of forty reads as the
bias. -/
def init (o : Mpu6050Imu F) (start : StartBus) (samples : Fin 40 → Burst) :
    Bool × Mpu6050Imu F :=
  if !startSensor start then (false, o)
  else
    let n : F := ((40 : Int) : F)
    let r := sumSamples Vector3.zero o (List.ofFn samples)
    (true, { r.2 with
      bias := ⟨r.1.x / n, r.1.y / n, r.1.z / n⟩
      calibrated := true })

section Reads

variable {o : Mpu6050Imu F}

/-- One failed read returns, and stores, one bias less. -/
theorem readGyroscope_none (h : o.calibrated = true) :
    (o.readGyroscope none).1 = o.gyro.sub o.bias := by
  simp [readGyroscope, h]

/-- A good read returns the registers less the bias. -/
theorem readGyroscope_some (h : o.calibrated = true)
    (b : Fin 6 → BitVec 8) :
    (o.readGyroscope (some b)).1
      = (scaled mpu6050GyroLsbToRads b).sub o.bias := by
  simp [readGyroscope, h]

/-- The gyroscope member is what the last gyroscope read returned. -/
theorem readGyroscope_gyro (r : Burst) :
    (o.readGyroscope r).2.gyro = (o.readGyroscope r).1 := rfl

theorem readGyroscope_bias (r : Burst) :
    (o.readGyroscope r).2.bias = o.bias := by
  cases r <;> simp only [readGyroscope] <;> split <;> rfl

theorem readGyroscope_calibrated (r : Burst) :
    (o.readGyroscope r).2.calibrated = o.calibrated := by
  cases r <;> simp only [readGyroscope] <;> split <;> rfl

/-- The accelerometer's reads leave the gyroscope's members alone. -/
theorem accel_step (r : Burst) :
    (o.readAccelerometer r).2.gyro = o.gyro
      ∧ (o.readAccelerometer r).2.bias = o.bias
      ∧ (o.readAccelerometer r).2.calibrated = o.calibrated := by
  cases r <;> exact ⟨rfl, rfl, rfl⟩

end Reads

/-- `readOk`. -/
def readOk (o : Mpu6050Imu F) : Bool := o.lastReadOk

/-- The dead zone of `getData`: a rate of less than 0.01 either way is
0. -/
def deadZone (v : F) : F :=
  let lim : F := ((1 : Int) : F) / ((100 : Int) : F)
  if -lim < v ∧ v < lim then ((0 : Int) : F) else v

/-- The three diagonal entries of a covariance, of `ACCEL_COV`, `GYRO_COV`
and `ORI_COV` alike. -/
def covariance (old : Fin 9 → F) : Fin 9 → F := fun i =>
  if i = 0 ∨ i = 4 ∨ i = 8 then
    ((1 : Int) : F) / ((100000 : Int) : F)
  else old i

/-- `getData`: one burst for the gyroscope, one for the accelerometer. -/
def getData (o : Mpu6050Imu F) (bus : Burst × Burst) :
    ImuMsg F × Mpu6050Imu F :=
  let g := o.readGyroscope bus.1
  let a := g.2.readAccelerometer bus.2
  let msg : ImuMsg F := { o.imuMsg with
    angularVelocity := ⟨deadZone g.1.x, deadZone g.1.y, deadZone g.1.z⟩
    angularVelocityCovariance :=
      covariance o.imuMsg.angularVelocityCovariance
    linearAcceleration := a.1
    linearAccelerationCovariance :=
      covariance o.imuMsg.linearAccelerationCovariance
    orientationCovariance := covariance o.imuMsg.orientationCovariance }
  (msg, { a.2 with imuMsg := msg })

/-- After a successful `init` the driver takes its bias off. -/
theorem init_calibrated {o : Mpu6050Imu F} {start : StartBus}
    {samples : Fin 40 → Burst} (h : (o.init start samples).1 = true) :
    (o.init start samples).2.calibrated = true := by
  unfold init at h ⊢
  split at h
  · exact absurd h Bool.false_ne_true
  · next hok => rw [if_neg hok]

end Mpu6050Imu

/-- The build with an MPU6050. -/
def ImuDriver.mpu6050 (F : Type) [CFloat F] : ImuDriver F where
  State := Mpu6050Imu F
  Bus := Burst × Burst
  getData o bus := o.getData bus
  readOk o := o.readOk
  useFakeImu := false

-- =============================================================== FakeIMU

/-- `class FakeIMU` with the members of its base class. -/
structure FakeImu (F : Type) where
  accel : Vector3 F
  gyro : Vector3 F
  gyroCal : Vector3 F
  imuMsg : ImuMsg F

namespace FakeImu

variable {F : Type} [CFloat F]

/-- The constructor. It initialises its own two members; `gyroCal` and
`imuMsg` are what the memory holds. -/
def new (gyroCal : Vector3 F) (imuMsg : ImuMsg F) : FakeImu F where
  accel := Vector3.zero
  gyro := Vector3.zero
  gyroCal := gyroCal
  imuMsg := imuMsg

/-- `startSensor`. -/
def startSensor : Bool := true

/-- `readAccelerometer`. -/
def readAccelerometer (o : FakeImu F) : Vector3 F := o.accel

/-- `readGyroscope`. -/
def readGyroscope (o : FakeImu F) : Vector3 F := o.gyro

/-- The loop of `calibrateGyro`: each sample is added to `gyroCal`. -/
def addSamples : Nat → FakeImu F → FakeImu F
  | 0, o => o
  | n + 1, o =>
      addSamples n { o with gyroCal := o.gyroCal.add o.readGyroscope }

/-- `IMUInterface::calibrateGyro`, over `sample_size_` reads. -/
def calibrateGyro (o : FakeImu F) : FakeImu F :=
  let n : F := ((40 : Int) : F)
  let o := addSamples 40 o
  { o with
    gyroCal := ⟨o.gyroCal.x / n, o.gyroCal.y / n, o.gyroCal.z / n⟩ }

/-- `IMUInterface::init`. -/
def init (o : FakeImu F) : Bool × FakeImu F :=
  let sensorOk := startSensor
  (sensorOk, if sensorOk then o.calibrateGyro else o)

/-- `getData`, in the build that takes `gyroCal` off. -/
def getData (o : FakeImu F) : ImuMsg F × FakeImu F :=
  let g := o.readGyroscope.sub o.gyroCal
  let msg : ImuMsg F := { o.imuMsg with
    angularVelocity := ⟨Mpu6050Imu.deadZone g.x, Mpu6050Imu.deadZone g.y,
      Mpu6050Imu.deadZone g.z⟩
    angularVelocityCovariance :=
      Mpu6050Imu.covariance o.imuMsg.angularVelocityCovariance
    linearAcceleration := o.readAccelerometer
    linearAccelerationCovariance :=
      Mpu6050Imu.covariance o.imuMsg.linearAccelerationCovariance
    orientationCovariance :=
      Mpu6050Imu.covariance o.imuMsg.orientationCovariance }
  (msg, { o with imuMsg := msg })

end FakeImu

/-- The build without an IMU. -/
def ImuDriver.fake (F : Type) [CFloat F] : ImuDriver F where
  State := FakeImu F
  Bus := Unit
  getData o _ := o.getData
  readOk _ := true
  useFakeImu := true

end LinoStm32
