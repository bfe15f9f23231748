/-
What an inertial sample is worth: from the sensor's registers, over the
bus, through the driver, into the snapshot.

On the bus the driver is that of `Imu.lean`, with what its transfers did
as its input (`initOn_eq`, `wired_run`), so what holds of every input there
holds of every bus here.

`Sensor` is what the driver relies on: reading registers leaves the
sensor's configuration alone, a write that succeeded is in force, and with
the sensor awake and a range pinned a burst holds the measured quantity to
the nearest count. A successful `startSensor` leaves all three registers
as it wrote them (`startSensorOn_pins`) and nothing writes again, so they
are pinned in every state a run reaches, and each burst that succeeds is
worth half a count (`samples_true`).
-/
import LinoStm32.I2c
import LinoStm32.Proofs.ImuHealth

namespace LinoStm32.Mpu6050Imu

-- ====================================================== the driver on inputs

section Inputs

variable {F : Type} [CFloat F] {H : I2cHal} {addr : BitVec 8}

/-- What the transfers of `startSensor` do; of one that is not made it
does not matter. -/
def startBus (addr : BitVec 8) (a : StartAnswers H) (w : H.Wire) :
    StartBus :=
  let who := H.readRegs addr regWhoAmI 1 a.whoAmI w
  let pwr := H.writeReg addr regPwrMgmt1 0x01 a.pwrMgmt1 who.2
  let gyro := H.writeReg addr regGyroConfig 0x00 a.gyroConfig pwr.2
  let accel := H.writeReg addr regAccelConfig 0x00 a.accelConfig gyro.2
  { whoAmI := who.1.map fun b => b ⟨0, Nat.one_pos⟩
    pwrMgmt1 := pwr.1
    gyroConfig := gyro.1
    accelConfig := accel.1 }

theorem startSensorOn_eq (a : StartAnswers H) (w : H.Wire) :
    (startSensorOn addr a w).1 = startSensor (startBus addr a w) := by
  simp only [startSensorOn, startSensor, startBus]
  cases (H.readRegs addr regWhoAmI 1 a.whoAmI w).1 with
  | none => rfl
  | some b =>
      simp only [Option.map_some, apply_ite Prod.fst]
      rfl

/-- A start that succeeds has made every write, and all succeeded. -/
theorem startSensorOn_true {a : StartAnswers H} {w : H.Wire}
    (h : (startSensorOn addr a w).1 = true) :
    let who := H.readRegs addr regWhoAmI 1 a.whoAmI w
    let pwr := H.writeReg addr regPwrMgmt1 0x01 a.pwrMgmt1 who.2
    let gyro := H.writeReg addr regGyroConfig 0x00 a.gyroConfig pwr.2
    let accel := H.writeReg addr regAccelConfig 0x00 a.accelConfig gyro.2
    pwr.1 = true ∧ gyro.1 = true ∧ accel.1 = true
      ∧ (startSensorOn addr a w).2 = accel.2 := by
  simp only [startSensorOn] at h ⊢
  cases hwho : (H.readRegs addr regWhoAmI 1 a.whoAmI w).1 with
  | none =>
      rw [hwho] at h
      cases h
  | some b =>
      simp only [hwho] at h ⊢
      split_ifs at h ⊢ with hid hpwr hgyro haccel
      simp only [Bool.not_eq_true', Bool.not_eq_false] at hpwr hgyro haccel
      exact ⟨hpwr, hgyro, haccel, rfl⟩

/-- The loop of `init` samples what its transfers deliver. -/
theorem sumSamplesOn_eq (addr : BitVec 8) (sum : Vector3 F) (o : Wired F H)
    (as : List H.Answer) :
    ∃ bs : List Burst, bs.length = as.length
      ∧ (sumSamplesOn addr sum o as).1 = (sumSamples sum o.imu bs).1
      ∧ (sumSamplesOn addr sum o as).2.imu = (sumSamples sum o.imu bs).2 := by
  induction as generalizing sum o with
  | nil => exact ⟨[], rfl, rfl, rfl⟩
  | cons a as ih =>
      obtain ⟨bs, hlength, hsum, himu⟩ :=
        ih (sum.add (readGyroscopeOn addr a o).1) (readGyroscopeOn addr a o).2
      exact ⟨(H.readRegs addr regGyroXoutH 6 a o.wire).1 :: bs,
        congrArg Nat.succ hlength, hsum, himu⟩

theorem exists_ofFn {α : Type*} {n : Nat} {l : List α} (h : l.length = n) :
    ∃ f : Fin n → α, List.ofFn f = l := by
  subst h
  exact ⟨l.get, List.ofFn_get l⟩

/-- On the bus `init` is `init` on what its transfers did. -/
theorem initOn_eq (addr : BitVec 8) (start : StartAnswers H)
    (samples : Fin 40 → H.Answer) (o : Wired F H) :
    ∃ bursts : Fin 40 → Burst,
      (initOn addr start samples o).1
          = (o.imu.init (startBus addr start o.wire) bursts).1
        ∧ (initOn addr start samples o).2.imu
          = (o.imu.init (startBus addr start o.wire) bursts).2 := by
  obtain ⟨bs, hlength, hsum, himu⟩ := sumSamplesOn_eq addr
    Vector3.zero ⟨o.imu, (startSensorOn addr start o.wire).2⟩
    (List.ofFn samples)
  obtain ⟨bursts, rfl⟩ := exists_ofFn (hlength.trans (List.length_ofFn))
  refine ⟨bursts, ?_⟩
  simp only [initOn, init, ← startSensorOn_eq, hsum, himu]
  split_ifs <;> exact ⟨rfl, rfl⟩

-- ---------------------------------------------------------------- the loop

variable {E : RpmSource F}

/-- The control loop with its driver taken off the bus. -/
def unwire (s : ControlLoop F E (ImuDriver.wired F H addr)) :
    ControlLoop F E (ImuDriver.mpu6050 F) :=
  { s with imu := Wired.imu s.imu }

/-- A call, with what the transfers of its tick do. -/
def unwireCall (w : H.Wire) : Call E (ImuDriver.wired F H addr) →
    Call E (ImuDriver.mpu6050 F)
  | .setCmd t c => .setCmd t c
  | .tick t inp a => .tick t inp (bursts addr a w).1

/-- The same call, whatever its transfers do. -/
inductive SameCall : Call E (ImuDriver.wired F H addr) →
    Call E (ImuDriver.mpu6050 F) → Prop
  | setCmd (t : Nat) (c : Cmd F) : SameCall (.setCmd t c) (.setCmd t c)
  | tick (t : Nat) (inp : E.Input) (a : H.Answer × H.Answer)
      (b : Burst × Burst) : SameCall (.tick t inp a) (.tick t inp b)

theorem sameCall_unwire (w : H.Wire)
    (call : Call E (ImuDriver.wired F H addr)) :
    SameCall call (unwireCall w call) := by
  cases call with
  | setCmd t c => exact .setCmd t c
  | tick t inp a => exact .tick t inp a _

/-- One call on the bus is that call on what its transfers did. -/
theorem unwire_exec (T : Trig F)
    (s : ControlLoop F E (ImuDriver.wired F H addr))
    (call : Call E (ImuDriver.wired F H addr)) :
    let r := Call.exec T s call
    let r' := Call.exec T (unwire s) (unwireCall (Wired.wire s.imu) call)
    r'.1 = unwire r.1 ∧ r'.2 = r.2 := by
  obtain ⟨cmd, cmdMs, odomMs, last, enc, core, imu, ok, readOk, snap⟩ := s
  cases call with
  | setCmd t c => exact ⟨rfl, rfl⟩
  | tick t inp a =>
      cases ok with
      | true => exact ⟨rfl, rfl⟩
      | false => exact ⟨rfl, rfl⟩

/-- A run of the control loop on the bus is a run of it, call by call, on
what the transfers did. -/
theorem wired_run (T : Trig F)
    (s : ControlLoop F E (ImuDriver.wired F H addr))
    (calls : List (Call E (ImuDriver.wired F H addr))) :
    ∃ calls' : List (Call E (ImuDriver.mpu6050 F)),
      List.Forall₂ SameCall calls calls'
        ∧ let M := loopMachine F E (ImuDriver.wired F H addr) T
          let N := loopMachine F E (ImuDriver.mpu6050 F) T
          N.final (unwire s) calls' = unwire (M.final s calls)
            ∧ N.outputs (unwire s) calls' = M.outputs s calls := by
  induction calls generalizing s with
  | nil => exact ⟨[], .nil, rfl, rfl⟩
  | cons call calls ih =>
      obtain ⟨hstate, hout⟩ := unwire_exec T s call
      obtain ⟨calls', hsame, hfinal, houts⟩ := ih (Call.exec T s call).1
      rw [← hstate] at hfinal houts
      refine ⟨unwireCall (Wired.wire s.imu) call :: calls',
        .cons (sameCall_unwire _ call) hsame, hfinal, ?_⟩
      rw [Lib.Mealy.outputs_cons, Lib.Mealy.outputs_cons]
      exact congrArg₂ _ hout houts

end Inputs

-- ================================================================ the sensor

section Accuracy

variable {K : Type} [Field K] [LinearOrder K] [FloorRing K]

/-- No component is further than `ε` off. -/
def Within (ε : K) (u v : Vector3 K) : Prop :=
  |u.x - v.x| ≤ ε ∧ |u.y - v.y| ≤ ε ∧ |u.z - v.z| ≤ ε

/-- Every component times `c`. -/
def times (c : K) (v : Vector3 K) : Vector3 K := ⟨c * v.x, c * v.y, c * v.z⟩

/-- The three counts of a burst. -/
def counts (b : Fin 6 → BitVec 8) : Vector3 K := scaled (fun n => (n : K)) b

/-- An MPU6050 at `addr`: the configuration it holds, and the acceleration
in g and the turn rate in degrees a second at a burst. -/
structure Sensor (K : Type) (H : I2cHal) where
  config : H.Wire → BitVec 8 → BitVec 8
  accel : H.Answer → H.Wire → Vector3 K
  rate : H.Answer → H.Wire → Vector3 K

/-- Awake, with the ranges the driver converts for. -/
structure Sensor.Pinned {H : I2cHal} (S : Sensor K H) (w : H.Wire) :
    Prop where
  pwrMgmt1 : S.config w regPwrMgmt1 = 0x01
  gyroConfig : S.config w regGyroConfig = 0x00
  accelConfig : S.config w regAccelConfig = 0x00

/-- The writes of `startSensor`. -/
def startWrites : List (BitVec 8 × BitVec 8) :=
  [(regPwrMgmt1, 0x01), (regGyroConfig, 0x00), (regAccelConfig, 0x00)]

/-- What the driver relies on. Reading changes no configuration; one of the
three writes that succeeded changes the one register; and a pinned sensor
holds what it measures, up to the end of its range, to the nearest count:
16384 to the g and 131 to the degree a second. -/
structure Sensor.Documented {H : I2cHal} (S : Sensor K H)
    (addr : BitVec 8) : Prop where
  read : ∀ dev7 reg n a w,
    S.config (H.readRegs dev7 reg n a w).2 = S.config w
  write : ∀ reg val, (reg, val) ∈ startWrites → ∀ a w,
    (H.writeReg addr reg val a w).1 = true →
    S.config (H.writeReg addr reg val a w).2
      = Function.update (S.config w) reg val
  accel : ∀ a w b, S.Pinned w →
    (H.readRegs addr regAccelXoutH 6 a w).1 = some b →
    Within (32767 / 16384) (S.accel a w) Vector3.zero →
    Within (1 / 2) (counts b) (times 16384 (S.accel a w))
  rate : ∀ a w b, S.Pinned w →
    (H.readRegs addr regGyroXoutH 6 a w).1 = some b →
    Within (32767 / 131) (S.rate a w) Vector3.zero →
    Within (1 / 2) (counts b) (times 131 (S.rate a w))

variable {H : I2cHal} {addr : BitVec 8} {S : Sensor K H}

omit [Field K] [LinearOrder K] [FloorRing K] in
theorem Sensor.Pinned.congr {w w' : H.Wire} (h : S.Pinned w)
    (hw : S.config w' = S.config w) : S.Pinned w' :=
  ⟨hw ▸ h.pwrMgmt1, hw ▸ h.gyroConfig, hw ▸ h.accelConfig⟩

/-- A sensor that has started is pinned. -/
theorem startSensorOn_pins (hS : S.Documented addr) (a : StartAnswers H)
    (w : H.Wire) (h : (startSensorOn addr a w).1 = true) :
    S.Pinned (startSensorOn addr a w).2 := by
  obtain ⟨hpwr, hgyro, haccel, hend⟩ := startSensorOn_true h
  have hconfig := hS.write _ _ (by simp [startWrites]) _ _ haccel
  rw [hS.write _ _ (by simp [startWrites]) _ _ hgyro,
    hS.write _ _ (by simp [startWrites]) _ _ hpwr, hS.read, ← hend]
    at hconfig
  constructor <;> rw [hconfig] <;> rfl

/-- Reads leave it pinned, in the loop of `init` -/
theorem sumSamplesOn_config (hS : S.Documented addr) (sum : Vector3 K)
    (o : Wired K H) (as : List H.Answer) :
    S.config (sumSamplesOn addr sum o as).2.wire = S.config o.wire := by
  induction as generalizing sum o with
  | nil => rfl
  | cons a as ih =>
      rw [sumSamplesOn, ih]
      exact hS.read addr regGyroXoutH 6 a o.wire

theorem initOn_pins (hS : S.Documented addr) {start : StartAnswers H}
    {samples : Fin 40 → H.Answer} {o : Wired K H}
    (h : (initOn addr start samples o).1 = true) :
    S.Pinned (initOn addr start samples o).2.wire := by
  have hstart : (startSensorOn addr start o.wire).1 = true := by
    obtain ⟨bursts, hresult, -⟩ := initOn_eq addr start samples o
    rwa [hresult, init_result, ← startSensorOn_eq] at h
  have hpins := startSensorOn_pins hS start o.wire hstart
  simp only [initOn, hstart, Bool.not_true, Bool.false_eq_true, if_false]
  exact hpins.congr (sumSamplesOn_config hS _ _ _)

-- ------------------------------------------------------------------ the runs

variable {E : RpmSource K}

/-- What every call keeps of a loop on the bus. -/
structure Kept (S : Sensor K H) (bias : Vector3 K)
    (s : ControlLoop K E (ImuDriver.wired K H addr)) : Prop where
  pinned : S.Pinned (Wired.wire s.imu)
  running : Running bias (unwire s)

/-- Every call keeps it: what a tick does to the bus is read. -/
theorem Kept.exec (hS : S.Documented addr) {bias : Vector3 K} (T : Trig K)
    {s : ControlLoop K E (ImuDriver.wired K H addr)} (h : Kept S bias s)
    (call : Call E (ImuDriver.wired K H addr)) :
    Kept S bias (Call.exec T s call).1 := by
  obtain ⟨hstate, -⟩ := unwire_exec T s call
  refine ⟨?_, ?_⟩
  · cases call with
    | setCmd t c => exact h.pinned
    | tick t inp a =>
        obtain ⟨-, himu, -⟩ := controlLoopTick_imu
          (I := ImuDriver.wired K H addr) h.running.imuOk T t inp a
        refine h.pinned.congr ?_
        show S.config (Wired.wire (controlLoopTick T t inp a s).1.imu) = _
        rw [himu]
        exact (hS.read _ _ _ _ _).trans (hS.read _ _ _ _ _)
  · rw [← hstate]
    exact h.running.final T [unwireCall (Wired.wire s.imu) call]

-- ---------------------------------------------------------------- the values

variable [IsStrictOrderedRing K]

/-- A count half a count off, converted. -/
theorem half_count {n v c k : K} (hc : 0 < c) (hk : 0 ≤ k)
    (h : |n - c * v| ≤ 1 / 2) :
    |n * (1 / c) * k - k * v| ≤ k / c / 2 := by
  have hsplit : n * (1 / c) * k - k * v = (n - c * v) * (k / c) := by
    field_simp
  rw [hsplit, abs_mul, abs_of_nonneg (div_nonneg hk hc.le)]
  calc |n - c * v| * (k / c)
      ≤ 1 / 2 * (k / c) :=
        mul_le_mul_of_nonneg_right h (div_nonneg hk hc.le)
    _ = k / c / 2 := by ring

/-- A burst half a count off, converted. -/
theorem Within.converted {b : Fin 6 → BitVec 8} {v : Vector3 K} {c k : K}
    {conv : Int → K} (hc : 0 < c) (hk : 0 ≤ k)
    (hconv : ∀ n : Int, conv n = (n : K) * (1 / c) * k)
    (h : Within (1 / 2) (counts b) (times c v)) :
    Within (k / c / 2) (scaled conv b) (times k v) := by
  have hone : ∀ (n : Int) (m : K), |(n : K) - c * m| ≤ 1 / 2 →
      |conv n - k * m| ≤ k / c / 2 := by
    intro n m hnm
    rw [hconv]
    exact half_count hc hk hnm
  exact ⟨hone _ _ h.1, hone _ _ h.2.1, hone _ _ h.2.2⟩

/-- The dead zone moves a rate by less than its width. -/
theorem deadZone_near (v : K) : |deadZone v - v| ≤ 1 / 100 := by
  simp only [deadZone, Int.cast_one, Int.cast_ofNat, Int.cast_zero]
  split
  · next h =>
    rw [zero_sub, abs_neg]
    exact (abs_lt.mpr h).le
  · rw [sub_self, abs_zero]
    positivity

/-- The rates a tick stores, of a gyroscope burst half a count off. -/
theorem Within.rates {b : Fin 6 → BitVec 8} {v bias : Vector3 K} {ε : K}
    (h : Within ε (scaled mpu6050GyroLsbToRads b) v) :
    Within (ε + 1 / 100) (rates bias b) (v.sub bias) := by
  have hone : ∀ n m c : K, |n - m| ≤ ε →
      |deadZone (n - c) - (m - c)| ≤ ε + 1 / 100 := by
    intro n m c hnm
    have hzone := deadZone_near (n - c)
    calc |deadZone (n - c) - (m - c)|
        = |(n - m) + (deadZone (n - c) - (n - c))| := by
          congr 1
          ring
      _ ≤ |n - m| + |deadZone (n - c) - (n - c)| := abs_add_le _ _
      _ ≤ ε + 1 / 100 := add_le_add hnm hzone
  exact ⟨hone _ _ _ h.1, hone _ _ _ h.2.1, hone _ _ _ h.2.2⟩

/-- After a successful `init` on the bus, in every run of calls with any
faults: a tick that leaves the health flag at 1 has stored the acceleration
at its burst to half a count, in m/s², and one whose gyroscope burst
succeeded has stored the turn rate less the bias to half a count and the
dead zone, in rad/s. -/
theorem samples_true (hS : S.Documented addr) (cfg : BoardConfig K)
    (T : Trig K) (enc : E.State) {o : Wired K H} {start : StartAnswers H}
    {samples : Fin 40 → H.Answer}
    (hinit : (initOn addr start samples o).1 = true) (t₀ : Nat)
    (calls : List (Call E (ImuDriver.wired K H addr))) (t : Nat)
    (inp : E.Input) (a : H.Answer × H.Answer) :
    let imu := initOn addr start samples o
    let s := (loopMachine K E (ImuDriver.wired K H addr) T).final
      (controlLoopInit cfg enc imu.2 imu.1 t₀) calls
    let w := Wired.wire s.imu
    let b := bursts addr a w
    let s' := (controlLoopTick T t inp a s).1
    (s'.imuReadOk = true →
      Within (32767 / 16384) (S.accel a.2 b.2.1) Vector3.zero →
        Within (kGToMs2 / 16384 / 2) s'.imuSnap.linearAcceleration
          (times kGToMs2 (S.accel a.2 b.2.1)))
    ∧ (b.1.1.isSome = true →
      Within (32767 / 131) (S.rate a.1 w) Vector3.zero →
        Within (kDegToRad / 131 / 2 + 1 / 100) s'.imuSnap.angularVelocity
          ((times kDegToRad (S.rate a.1 w)).sub imu.2.imu.bias)) := by
  intro imu s w b s'
  have hcal : imu.2.imu.calibrated = true := by
    obtain ⟨bursts, hresult, himu⟩ := initOn_eq addr start samples o
    rw [himu]
    exact init_calibrated (hresult.symm.trans hinit)
  have hstart : Kept S imu.2.imu.bias
      (controlLoopInit cfg enc imu.2 imu.1 t₀ :
        ControlLoop K E (ImuDriver.wired K H addr)) :=
    ⟨initOn_pins hS hinit, ⟨hinit, hcal, rfl⟩⟩
  have hkept : Kept S imu.2.imu.bias s :=
    Lib.Mealy.final_invariant (P := Kept S imu.2.imu.bias)
      (fun u call h => h.exec hS T call) hstart calls
  obtain ⟨hstate, -⟩ := unwire_exec T s (.tick t inp a)
  obtain ⟨hsnap, hflag, -⟩ := hkept.running.tick T t inp b.1
  have hsnap' : s'.imuSnap = (Mpu6050Imu.getData (unwire s).imu b.1).1 :=
    (congrArg ControlLoop.imuSnap hstate).symm.trans hsnap
  have hflag' : s'.imuReadOk = b.1.2.isSome :=
    (congrArg ControlLoop.imuReadOk hstate).symm.trans hflag
  rw [hsnap', hflag']
  constructor
  · intro hread hrange
    obtain ⟨x, hx⟩ := Option.isSome_iff_exists.mp hread
    have hpins : S.Pinned b.2.1 := hkept.pinned.congr (hS.read _ _ _ _ _)
    have hcounts := hS.accel a.2 b.2.1 x hpins hx hrange
    have hvec : (Mpu6050Imu.getData (unwire s).imu b.1).1.linearAcceleration
        = scaled mpu6050AccelLsbToMs2 x := by
      simp only [getData, readAccelerometer, hx]
    rw [hvec]
    refine hcounts.converted (by norm_num) ?_ fun n => ?_
    · simp only [kGToMs2, Int.cast_ofNat]
      positivity
    · simp only [mpu6050AccelLsbToMs2, Int.cast_one, Int.cast_ofNat]
  · intro hread hrange
    obtain ⟨x, hx⟩ := Option.isSome_iff_exists.mp hread
    have hcounts := hS.rate a.1 w x hkept.pinned hx hrange
    have hgood := readGyroscope_some hkept.running.calibrated x
    have hvec : (Mpu6050Imu.getData (unwire s).imu b.1).1.angularVelocity
        = rates imu.2.imu.bias x := by
      simp only [getData, hx, hgood, hkept.running.bias]
      rfl
    rw [hvec]
    refine (hcounts.converted (by norm_num) ?_ fun n => ?_).rates
    · simp only [kDegToRad, Int.cast_ofNat]
      positivity
    · simp only [mpu6050GyroLsbToRads, Int.cast_one, Int.cast_ofNat]

end Accuracy

-- ========================================================= a register bank

/-- A sensor that is a bank of registers. A transfer is answered with the
next burst, or not at all. -/
def registerBank : I2cHal where
  Wire := BitVec 8 → BitVec 8
  Answer := Burst
  memRead _ reg n a w :=
    (a.map fun b i => if h : n = 6 then b (i.cast h) else w reg, w)
  memWrite _ reg val a w :=
    if a.isSome then (true, Function.update w reg val) else (false, w)

/-- It measures what its bursts hold. -/
def registerSensor : Sensor ℚ registerBank where
  config w := w
  accel a _ := a.elim Vector3.zero fun b => times (1 / 16384) (counts b)
  rate a _ := a.elim Vector3.zero fun b => times (1 / 131) (counts b)

theorem exact_count {c : ℚ} (hc : c ≠ 0) (b : Fin 6 → BitVec 8) :
    Within (1 / 2) (counts b) (times c (times (1 / c) (counts b))) := by
  have hone : ∀ n : ℚ, |n - c * (1 / c * n)| ≤ 1 / 2 := by
    intro n
    rw [← mul_assoc, mul_one_div_cancel hc, one_mul, sub_self, abs_zero]
    norm_num
  exact ⟨hone _, hone _, hone _⟩

theorem registerSensor_documented :
    registerSensor.Documented 0x68 where
  read _ _ _ _ _ := rfl
  write reg val _ a w h := by
    cases a with
    | none => cases h
    | some b => rfl
  accel a w b _ h _ := by
    obtain ⟨b', rfl, rfl⟩ := Option.map_eq_some_iff.mp h
    exact exact_count (by norm_num) b'
  rate a w b _ h _ := by
    obtain ⟨b', rfl, rfl⟩ := Option.map_eq_some_iff.mp h
    exact exact_count (by norm_num) b'

/-- A burst of `256 * n` on the z axis and nothing on the others. -/
def burstZ (n : BitVec 8) : Burst := some ![0, 0, 0, 0, n, 0]

/-- What the sensor measures then. -/
theorem burstZ_counts (n : BitVec 8) (c : ℚ) :
    times c (counts ![0, 0, 0, 0, n, 0]) = ⟨0, 0, c * be16 n 0⟩ := by
  have hzero : be16 0#8 0#8 = 0 := by decide
  simp [times, counts, scaled, hzero]

/-- A tick both of whose bursts fail, one whose gyroscope burst fails, and a
good one. -/
def failThenRead :
    List (Call (encoders ℚ) (ImuDriver.wired ℚ registerBank 0x68)) :=
  [.tick 20 (20000, fun _ => 0) (none, none),
    .tick 40 (40000, fun _ => 0) (none, burstZ 0x40),
    .tick 60 (60000, fun _ => 0) (burstZ 0x10, burstZ 0x40)]

/-- The tick after them: 4096 counts of turning, and one g upwards. -/
theorem samples_true_registerBank :
    let imu := initOn (F := ℚ) (H := registerBank) 0x68
      ⟨burstZ 0, burstZ 0, burstZ 0, burstZ 0⟩ (fun _ => burstZ 0)
      ⟨new ImuMsg.zero, fun _ => 0x68⟩
    let s := (loopMachine ℚ _ _ Trig.level).final
      (controlLoopInit f446re (f446re (F := ℚ)).encoders imu.2 imu.1 0)
      failThenRead
    let s' := (controlLoopTick Trig.level 80 (80000, fun _ => 0)
      (burstZ 0x10, burstZ 0x40) s).1
    s'.imuReadOk = true ∧ 0 < s'.imuSnap.angularVelocity.z
      ∧ Within (kGToMs2 / 16384 / 2) s'.imuSnap.linearAcceleration
        (times kGToMs2 ⟨0, 0, 1⟩)
      ∧ Within (kDegToRad / 131 / 2 + 1 / 100) s'.imuSnap.angularVelocity
        ((times kDegToRad ⟨0, 0, 4096 / 131⟩).sub imu.2.imu.bias) := by
  intro imu s s'
  have hinit : imu.1 = true := rfl
  have hread : s'.imuReadOk = true := rfl
  have haccel : ∀ w, registerSensor.accel (burstZ 0x40) w = ⟨0, 0, 1⟩ := by
    intro w
    refine (burstZ_counts 0x40 (1 / 16384)).trans ?_
    norm_num [show be16 0x40 0 = 16384 by decide]
  have hrate : ∀ w,
      registerSensor.rate (burstZ 0x10) w = ⟨0, 0, 4096 / 131⟩ := by
    intro w
    refine (burstZ_counts 0x10 (1 / 131)).trans ?_
    norm_num [show be16 0x10 0 = 4096 by decide]
  obtain ⟨hacceltrue, hratetrue⟩ := samples_true (E := encoders ℚ)
    registerSensor_documented f446re Trig.level
    (BoardConfig.encoders (f446re (F := ℚ))) hinit 0 failThenRead 80
    (80000, fun _ => 0) (burstZ 0x10, burstZ 0x40)
  rw [haccel] at hacceltrue
  rw [hrate] at hratetrue
  refine ⟨hread, by decide +kernel, hacceltrue hread ?_, hratetrue rfl ?_⟩
  · norm_num [Within, Vector3.zero]
  · norm_num [Within, Vector3.zero]

end LinoStm32.Mpu6050Imu
