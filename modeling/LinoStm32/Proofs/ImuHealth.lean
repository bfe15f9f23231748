/-
What the IMU driver reports about its reads: the result of `init`, and
the health flag of a tick.

`startSensor` returns false when any of its transfers fails. The loop of
`init` after it does not look: a failed read hands it the gyroscope
member as it was, the samples are averaged all the same, and the result
is true. So the result is honest when the sensor does not start or every
one of the forty reads succeeds.

The flag a tick stores is `readOk` after `getData`, and the last read of
`getData` is the accelerometer's. It says nothing about the gyroscope's
read before it.
-/
import LinoStm32.Proofs.GyroFault

namespace LinoStm32

namespace Mpu6050Imu

-- ============================================================ calibration

section Calibration

variable {K : Type} [Field K] [LinearOrder K] [FloorRing K]

/-- The mean of forty samples. -/
def mean (v : Fin 40 → Vector3 K) : Vector3 K where
  x := (∑ i, (v i).x) / 40
  y := (∑ i, (v i).y) / 40
  z := (∑ i, (v i).z) / 40

/-- The result of `init` can be relied on: true means that every sample
was read and the bias is their mean, and with fewer than forty successful
reads it is false. -/
def HonestInit (o : Mpu6050Imu K) (start : StartBus)
    (samples : Fin 40 → Burst) : Prop :=
  ((o.init start samples).1 = true →
    ∃ b : Fin 40 → Fin 6 → BitVec 8, (∀ i, samples i = some (b i))
      ∧ (o.init start samples).2.bias
        = mean fun i => scaled mpu6050GyroLsbToRads (b i))
  ∧ ((Finset.univ.filter fun i => (samples i).isSome).card < 40 →
    (o.init start samples).1 = false)

/-- `init` reports what `startSensor` does. -/
theorem init_result (o : Mpu6050Imu K) (start : StartBus)
    (samples : Fin 40 → Burst) :
    (o.init start samples).1 = startSensor start := by
  unfold init
  cases startSensor start <;> rfl

/-- An uncalibrated driver returns what it read. -/
theorem readGyroscope_raw {o : Mpu6050Imu K} (h : o.calibrated = false)
    (b : Fin 6 → BitVec 8) :
    (o.readGyroscope (some b)).1 = scaled mpu6050GyroLsbToRads b := by
  simp [readGyroscope, h]

/-- Good reads add up. -/
theorem sumSamples_good {o : Mpu6050Imu K} (h : o.calibrated = false)
    (sum : Vector3 K) (l : List (Fin 6 → BitVec 8)) :
    (sumSamples sum o (l.map some)).1 = ⟨
      sum.x + (l.map fun b => (scaled mpu6050GyroLsbToRads b : Vector3 K).x).sum,
      sum.y + (l.map fun b => (scaled mpu6050GyroLsbToRads b : Vector3 K).y).sum,
      sum.z + (l.map fun b => (scaled mpu6050GyroLsbToRads b : Vector3 K).z).sum⟩ := by
  induction l generalizing sum o with
  | nil => simp [sumSamples]
  | cons b l ih =>
      have hcal := (readGyroscope_calibrated (o := o) (some b)).trans h
      rw [List.map_cons, sumSamples, ih hcal, readGyroscope_raw h]
      simp only [Vector3.add, List.map_cons, List.sum_cons, add_assoc]

/-- Forty good reads leave their mean as the bias. -/
theorem init_bias {o : Mpu6050Imu K} (h : o.calibrated = false)
    {start : StartBus} (hstart : startSensor start = true)
    (b : Fin 40 → Fin 6 → BitVec 8) :
    (o.init start fun i => some (b i)).2.bias
      = mean fun i => scaled mpu6050GyroLsbToRads (b i) := by
  have hlist : List.ofFn (fun i => some (b i)) = (List.ofFn b).map some := by
    rw [List.map_ofFn]
    rfl
  unfold init
  rw [hstart, hlist]
  simp only [Bool.not_true, Bool.false_eq_true, if_false]
  rw [sumSamples_good h]
  simp only [mean, Vector3.zero, List.map_ofFn, List.sum_ofFn, Int.cast_zero,
    zero_add, Function.comp_apply, Int.cast_ofNat]

/-- For every pattern of failed transfers and all register contents, the
result of the first `init` is honest exactly when `startSensor` fails or
all forty reads succeed. -/
theorem honest_init_iff (imuMsg : ImuMsg K) (start : StartBus)
    (samples : Fin 40 → Burst) :
    HonestInit (new imuMsg) start samples
      ↔ startSensor start = false ∨ ∀ i, (samples i).isSome = true := by
  unfold HonestInit
  rw [init_result]
  constructor
  · intro h
    cases hstart : startSensor start with
    | false => exact Or.inl rfl
    | true =>
        right
        by_contra hfail
        push Not at hfail
        obtain ⟨i, hi⟩ := hfail
        have hcard : (Finset.univ.filter
            fun i => (samples i).isSome).card < 40 := by
          refine (Finset.card_lt_card
            (Finset.filter_ssubset.mpr ⟨i, Finset.mem_univ i, hi⟩)).trans_eq ?_
          simp
        rw [h.2 hcard] at hstart
        cases hstart
  · intro h
    rcases h with hstart | hall
    · refine ⟨fun htrue => ?_, fun _ => hstart⟩
      rw [hstart] at htrue
      cases htrue
    · obtain ⟨b, rfl⟩ : ∃ b : Fin 40 → Fin 6 → BitVec 8,
          samples = fun i => some (b i) :=
        ⟨fun i => (samples i).get (hall i),
          funext fun i => (Option.some_get (hall i)).symm⟩
      refine ⟨fun hstart => ⟨b, fun _ => rfl, init_bias rfl hstart b⟩, ?_⟩
      intro hcard
      simp at hcard

/-- A sensor that starts and then never answers is reported calibrated. -/
theorem silent_sensor_calibrates :
    ¬ HonestInit (new ImuMsg.zero : Mpu6050Imu ℚ) startOk fun _ => none := by
  intro h
  have hfalse : startSensor startOk = false := by
    rw [← init_result (new ImuMsg.zero : Mpu6050Imu ℚ) startOk fun _ => none]
    exact h.2 (by simp)
  exact absurd hfalse (by decide)

end Calibration

-- ========================================================== the health flag

section Health

variable {F : Type} [CFloat F] {E : RpmSource F}

/-- What a calibrated `getData` makes of two good bursts. -/
def rates (bias : Vector3 F) (b : Fin 6 → BitVec 8) : Vector3 F :=
  let v := (scaled mpu6050GyroLsbToRads b).sub bias
  ⟨deadZone v.x, deadZone v.y, deadZone v.z⟩

/-- At the end of every tick of a run whose health flag is 1, both vectors
of the snapshot come from bursts of that tick, and these succeeded. -/
def FlagHonest (bias : Vector3 F) (T : Trig F)
    (s₀ : ControlLoop F E (ImuDriver.mpu6050 F))
    (calls : List (Call E (ImuDriver.mpu6050 F))) : Prop :=
  ∀ pre t inp bus post, calls = pre ++ .tick t inp bus :: post →
    let s := (controlLoopTick T t inp bus
      ((loopMachine F E (ImuDriver.mpu6050 F) T).final s₀ pre)).1
    s.imuReadOk = true →
      ∃ g a, bus = (some g, some a)
        ∧ s.imuSnap.angularVelocity = rates bias g
        ∧ s.imuSnap.linearAcceleration = scaled mpu6050AccelLsbToMs2 a

/-- What every call keeps of a loop whose IMU was initialised. -/
structure Running (bias : Vector3 F)
    (s : ControlLoop F E (ImuDriver.mpu6050 F)) : Prop where
  imuOk : s.imuOk = true
  calibrated : Mpu6050Imu.calibrated s.imu = true
  bias : Mpu6050Imu.bias s.imu = bias

variable {bias : Vector3 F} {s : ControlLoop F E (ImuDriver.mpu6050 F)}

/-- `getData` reads the gyroscope first and the accelerometer last. -/
theorem getData_members (o : Mpu6050Imu F) (bus : Burst × Burst) :
    (o.getData bus).2.lastReadOk = bus.2.isSome
      ∧ (o.getData bus).2.calibrated = o.calibrated
      ∧ (o.getData bus).2.bias = o.bias := by
  obtain ⟨-, hbias, hcal⟩ := accel_step (o := (o.readGyroscope bus.1).2) bus.2
  refine ⟨?_, hcal.trans (readGyroscope_calibrated bus.1),
    hbias.trans (readGyroscope_bias bus.1)⟩
  cases h : bus.2 <;> simp [getData, readAccelerometer, h]

/-- The IMU part of a tick of such a loop. -/
theorem Running.tick (h : Running bias s) (T : Trig F) (t : Nat)
    (inp : E.Input) (bus : Burst × Burst) :
    let r := Mpu6050Imu.getData s.imu bus
    let s' := (controlLoopTick T t inp bus s).1
    s'.imuSnap = r.1 ∧ s'.imuReadOk = bus.2.isSome ∧ Running bias s' := by
  intro r s'
  obtain ⟨hread, hcal, hbias⟩ := getData_members s.imu bus
  obtain ⟨hok, himu, hflag, hsnap⟩ :=
    controlLoopTick_imu (I := ImuDriver.mpu6050 F) h.imuOk T t inp bus
  refine ⟨hsnap, hflag.trans hread, hok, ?_, ?_⟩
  · rw [himu]
    exact hcal.trans h.calibrated
  · rw [himu]
    exact hbias.trans h.bias

/-- Every call sequence keeps it. -/
theorem Running.final (h : Running bias s) (T : Trig F)
    (calls : List (Call E (ImuDriver.mpu6050 F))) :
    Running bias ((loopMachine F E (ImuDriver.mpu6050 F) T).final s calls) :=
  Lib.Mealy.final_invariant (P := Running bias)
    (fun s call h => by
      cases call with
      | setCmd t c => exact ⟨h.imuOk, h.calibrated, h.bias⟩
      | tick t inp bus => exact (h.tick T t inp bus).2.2) h calls

/-- Two good bursts are what the sample is computed from. -/
theorem getData_good {o : Mpu6050Imu F} (h : o.calibrated = true)
    (g a : Fin 6 → BitVec 8) :
    (o.getData (some g, some a)).1.angularVelocity = rates o.bias g
      ∧ (o.getData (some g, some a)).1.linearAcceleration
        = scaled mpu6050AccelLsbToMs2 a := by
  refine ⟨?_, rfl⟩
  have hread := readGyroscope_some h g
  simp only [getData, hread]
  rfl

/-- After a successful `init`, over any run of calls: the flag is honest
at every tick exactly when no tick's gyroscope burst fails while its
accelerometer burst succeeds. -/
theorem flag_honest_iff (cfg : BoardConfig F) (T : Trig F) (enc : E.State)
    (o : Mpu6050Imu F) {start : StartBus} {samples : Fin 40 → Burst}
    (hinit : (o.init start samples).1 = true) (t₀ : Nat)
    (calls : List (Call E (ImuDriver.mpu6050 F))) :
    FlagHonest (o.init start samples).2.bias T
        (controlLoopInit cfg enc (o.init start samples).2
          (o.init start samples).1 t₀) calls
      ↔ ∀ t inp bus, Call.tick t inp bus ∈ calls →
          bus.1 = none → bus.2 = none := by
  have hstart : Running (E := E) (o.init start samples).2.bias
      (controlLoopInit cfg enc (o.init start samples).2
        (o.init start samples).1 t₀) :=
    ⟨hinit, init_calibrated hinit, rfl⟩
  have hrun := hstart.final T
  constructor
  · intro h t inp bus hmem hnone
    obtain ⟨pre, post, hsplit⟩ := List.append_of_mem hmem
    obtain ⟨-, hflag, -⟩ := (hrun pre).tick T t inp bus
    by_contra hsome
    obtain ⟨g, a, hbus, -⟩ := h pre t inp bus post hsplit
      (hflag.trans (Option.isSome_iff_ne_none.mpr hsome))
    rw [hbus] at hnone
    cases hnone
  · intro h pre t inp bus post hsplit s hok
    obtain ⟨hsnap, hflag, -⟩ := (hrun pre).tick T t inp bus
    have hmem : Call.tick t inp bus ∈ calls := by
      rw [hsplit]
      exact List.mem_append_right _ List.mem_cons_self
    have hsome : bus.2.isSome = true := hflag.symm.trans hok
    obtain ⟨a, ha⟩ := Option.isSome_iff_exists.mp hsome
    cases hg : bus.1 with
    | none =>
        have hnone := h t inp bus hmem hg
        rw [hnone] at ha
        cases ha
    | some g =>
        have hbus : bus = (some g, some a) := Prod.ext hg ha
        have hgood := getData_good (hrun pre).calibrated g a
        rw [(hrun pre).bias] at hgood
        refine ⟨g, a, hbus, ?_⟩
        show (controlLoopTick T t inp bus _).1.imuSnap.angularVelocity = _
          ∧ (controlLoopTick T t inp bus _).1.imuSnap.linearAcceleration = _
        rw [hsnap, hbus]
        exact hgood

end Health

-- ===================================================== one failed gyroscope

/-- A good tick, one with no burst, one whose accelerometer burst fails, and
a good one. -/
def neverHalf : List (Call (encoders ℚ) (ImuDriver.mpu6050 ℚ)) :=
  [.tick 20 (20000, fun _ => 0) (some (burstX 131), some (burstX 1)),
    .tick 40 (40000, fun _ => 0) (none, none),
    .tick 60 (60000, fun _ => 0) (some (burstX 255), none),
    .tick 80 (80000, fun _ => 0) (some (burstX 255), some (burstX 2))]

/-- The flag after each of them, and the last sample. -/
theorem flag_honest_iff_neverHalf :
    let o := (new ImuMsg.zero : Mpu6050Imu ℚ).init startOk
      fun _ => some (burstX 131)
    let s₀ : ControlLoop ℚ (encoders ℚ) (ImuDriver.mpu6050 ℚ) :=
      controlLoopInit f446re (f446re (F := ℚ)).encoders o.2 o.1 0
    let after := fun n => (loopMachine ℚ _ _ Trig.level).final s₀
      (neverHalf.take n)
    [1, 2, 3, 4].map (fun n => (after n).imuReadOk)
        = [true, false, false, true]
      ∧ 0 < (after 4).imuSnap.angularVelocity.x
      ∧ 0 < (after 4).imuSnap.linearAcceleration.x
      ∧ FlagHonest o.2.bias Trig.level s₀ neverHalf := by
  intro o s₀ after
  refine ⟨by decide +kernel, by decide +kernel, by decide +kernel,
    (flag_honest_iff f446re Trig.level _ (new ImuMsg.zero) rfl 0
      neverHalf).mpr ?_⟩
  intro t inp bus hmem hnone
  simp only [neverHalf, List.mem_cons, List.not_mem_nil, or_false] at hmem
  rcases hmem with heq | heq | heq | heq <;> cases heq
  · cases hnone
  · rfl
  · rfl
  · cases hnone

/-- A tick whose gyroscope burst fails and whose accelerometer burst
succeeds. -/
def halfFailed : List (Call (encoders ℚ) (ImuDriver.mpu6050 ℚ)) :=
  [.tick 20 (20000, fun _ => 0) (none, some (burstX 1))]

/-- At its end the flag is 1, and the angular velocity is not from that
tick. -/
theorem flag_hides_failed_gyro :
    let o := (new ImuMsg.zero : Mpu6050Imu ℚ).init startOk
      fun _ => some (burstX 131)
    o.1 = true
      ∧ ¬ FlagHonest o.2.bias Trig.level
        (controlLoopInit f446re (BoardConfig.encoders (f446re (F := ℚ))) o.2
          o.1 0) halfFailed := by
  intro o
  refine ⟨rfl, fun h => ?_⟩
  obtain ⟨g, a, hbus, -⟩ := h [] 20 (20000, fun _ => 0)
    (none, some (burstX 1)) [] rfl rfl
  cases hbus

end Mpu6050Imu

end LinoStm32
