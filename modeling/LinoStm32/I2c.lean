/-
The inertial sensor on its bus: the register calls of `Src/stm32_i2c.cpp`,
and the transfers `Mpu6050Imu` of `Inc/stm32_imu.h` makes with them.

`Imu.lean` has the driver with what a transfer did as an input. Here the
transfers are made, in the order of the source, on a bus with a state, and
what each did goes to the same driver.

# The HAL

`I2cHal` is the two HAL calls, which are not in the repository: a state of
the bus and of what hangs on it, and the calls. An `Answer` stands for
whatever made a transfer succeed or fail, and for what the sensor measured
by then.

# What is left out

`I2cBus::init`, which sets pins and clocks up, `ping`, which nothing
calls, the timeout of a transfer and the delays between them.
-/
import LinoStm32.Imu

namespace LinoStm32

-- ================================================================ the bus

/-- `HAL_I2C_Mem_Read` and `HAL_I2C_Mem_Write`, with the 16-bit device
address they take. A read that is not `HAL_OK` delivers nothing. -/
structure I2cHal where
  Wire : Type
  Answer : Type
  memRead : BitVec 16 → BitVec 8 → (n : Nat) → Answer → Wire →
    Option (Fin n → BitVec 8) × Wire
  memWrite : BitVec 16 → BitVec 8 → BitVec 8 → Answer → Wire → Bool × Wire

/-- `(uint16_t)(dev7 << 1)`. -/
def halAddress (dev7 : BitVec 8) : BitVec 16 := dev7.setWidth 16 <<< 1

namespace I2cHal

variable (H : I2cHal) (dev7 reg : BitVec 8)

/-- `I2cBus::read_regs`. -/
def readRegs (n : Nat) (a : H.Answer) (w : H.Wire) :
    Option (Fin n → BitVec 8) × H.Wire :=
  H.memRead (halAddress dev7) reg n a w

/-- `I2cBus::write_reg`. -/
def writeReg (val : BitVec 8) (a : H.Answer) (w : H.Wire) :
    Bool × H.Wire :=
  H.memWrite (halAddress dev7) reg val a w

end I2cHal

-- ================================================ the driver on the bus

namespace Mpu6050Imu

/-- `MPU6050_REG_WHO_AM_I`. -/
def regWhoAmI : BitVec 8 := 0x75

/-- `MPU6050_REG_PWR_MGMT_1`. -/
def regPwrMgmt1 : BitVec 8 := 0x6B

/-- `MPU6050_REG_GYRO_CONFIG`. -/
def regGyroConfig : BitVec 8 := 0x1B

/-- `MPU6050_REG_ACCEL_CONFIG`. -/
def regAccelConfig : BitVec 8 := 0x1C

/-- `MPU6050_REG_ACCEL_XOUT_H`. -/
def regAccelXoutH : BitVec 8 := 0x3B

/-- `MPU6050_REG_GYRO_XOUT_H`. -/
def regGyroXoutH : BitVec 8 := 0x43

/-- What happens to the four transfers of `startSensor`. -/
structure StartAnswers (H : I2cHal) where
  whoAmI : H.Answer
  pwrMgmt1 : H.Answer
  gyroConfig : H.Answer
  accelConfig : H.Answer

/-- The driver, and the bus its `bus_` points to. -/
structure Wired (F : Type) (H : I2cHal) where
  imu : Mpu6050Imu F
  wire : H.Wire

variable {F : Type} [CFloat F] {H : I2cHal} (addr : BitVec 8)

/-- `startSensor`: identify, wake, and pin the two ranges. -/
def startSensorOn (a : StartAnswers H) (w : H.Wire) : Bool × H.Wire :=
  let who := H.readRegs addr regWhoAmI 1 a.whoAmI w
  match who.1 with
  | none => (false, who.2)
  | some b =>
      if b 0 ≠ whoAmIValue then (false, who.2)
      else
        let pwr := H.writeReg addr regPwrMgmt1 0x01 a.pwrMgmt1 who.2
        if !pwr.1 then (false, pwr.2)
        else
          let gyro := H.writeReg addr regGyroConfig 0x00 a.gyroConfig pwr.2
          if !gyro.1 then (false, gyro.2)
          else
            let accel :=
              H.writeReg addr regAccelConfig 0x00 a.accelConfig gyro.2
            if !accel.1 then (false, accel.2) else (true, accel.2)

/-- `readGyroscope`. -/
def readGyroscopeOn (a : H.Answer) (o : Wired F H) :
    Vector3 F × Wired F H :=
  let b := H.readRegs addr regGyroXoutH 6 a o.wire
  let r := o.imu.readGyroscope b.1
  (r.1, ⟨r.2, b.2⟩)

/-- The loop of `init`. -/
def sumSamplesOn (sum : Vector3 F) (o : Wired F H) :
    List H.Answer → Vector3 F × Wired F H
  | [] => (sum, o)
  | a :: as =>
      let g := readGyroscopeOn addr a o
      sumSamplesOn (sum.add g.1) g.2 as

/-- `init`. -/
def initOn (start : StartAnswers H) (samples : Fin 40 → H.Answer)
    (o : Wired F H) : Bool × Wired F H :=
  let st := startSensorOn addr start o.wire
  if !st.1 then (false, ⟨o.imu, st.2⟩)
  else
    let n : F := ((40 : Int) : F)
    let r := sumSamplesOn addr Vector3.zero ⟨o.imu, st.2⟩
      (List.ofFn samples)
    (true,
      { imu := { r.2.imu with
          bias := ⟨r.1.x / n, r.1.y / n, r.1.z / n⟩
          calibrated := true }
        wire := r.2.wire })

/-- What the two bursts of `getData` deliver, and the bus after each. -/
def bursts (a : H.Answer × H.Answer) (w : H.Wire) :
    (Burst × Burst) × H.Wire × H.Wire :=
  let g := H.readRegs addr regGyroXoutH 6 a.1 w
  let x := H.readRegs addr regAccelXoutH 6 a.2 g.2
  ((g.1, x.1), g.2, x.2)

/-- `getData`: one burst for `readGyroscope`, then one for
`readAccelerometer`. -/
def getDataOn (o : Wired F H) (a : H.Answer × H.Answer) :
    ImuMsg F × Wired F H :=
  let b := bursts addr a o.wire
  let r := o.imu.getData b.1
  (r.1, ⟨r.2, b.2.2⟩)

end Mpu6050Imu

/-- The build with an MPU6050, down to its bus. -/
def ImuDriver.wired (F : Type) [CFloat F] (H : I2cHal) (addr : BitVec 8) :
    ImuDriver F where
  State := Mpu6050Imu.Wired F H
  Bus := H.Answer × H.Answer
  getData o bus := Mpu6050Imu.getDataOn addr o bus
  readOk o := o.imu.readOk
  useFakeImu := false

end LinoStm32
