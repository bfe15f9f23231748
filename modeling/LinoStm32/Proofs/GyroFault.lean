/-
Failed gyroscope reads: exactly when they return the last good value.

A calibrated `readGyroscope` takes the bias off the stored vector at every
call. After a good read that is once; every failed read after it takes
the bias off again, so the `n`-th returns the good value less `n` times
the bias (`drifted`, `after_run`). The sibling `readAccelerometer` stores
only what a good read returned and touches nothing else (`accel_step`).

So over a run of reads the last good value comes back exactly when there
is no bias to take off, or no failure after a good read.
-/
import LinoStm32.Imu
import LinoStm32.Lib.Window

namespace LinoStm32

namespace Mpu6050Imu

variable {K : Type} [Field K] [LinearOrder K] [FloorRing K]

-- =============================================================== the reads

/-- One read of the driver, with what the bus does to it. -/
inductive Read
  | gyro (r : Burst)
  | accel (r : Burst)

/-- The read made. -/
def Read.exec (o : Mpu6050Imu K) : Read → Mpu6050Imu K × Vector3 K
  | .gyro r => ((o.readGyroscope r).2, (o.readGyroscope r).1)
  | .accel r => ((o.readAccelerometer r).2, (o.readAccelerometer r).1)

/-- Reads in sequence. -/
def machine (K : Type) [Field K] [LinearOrder K] [FloorRing K] :
    Lib.Mealy (Mpu6050Imu K) Read (Vector3 K) :=
  ⟨fun o c => c.exec o⟩

/-- What a good gyroscope read returned. -/
def good : Read × Vector3 K → Option (Vector3 K)
  | (.gyro (some _), v) => some v
  | _ => none

/-- Over these reads a gyroscope read that succeeds returns the scaled
registers less the bias, and one that fails returns what the latest good
one before it did. -/
def LastGood (o : Mpu6050Imu K) (reads : List Read) : Prop :=
  ∀ pre r post, reads = pre ++ .gyro r :: post →
    let v := (((machine K).final o pre).readGyroscope r).1
    match r with
    | some b => v = (scaled mpu6050GyroLsbToRads b).sub o.bias
    | none => ∀ g ∈ Lib.latest good ((machine K).transcript o pre), v = g

-- =============================================================== the drift

/-- What a read of the registers is worth, the bias taken off once. -/
def value (bias : Vector3 K) : Read → Option (Vector3 K)
  | .gyro (some b) => some ((scaled mpu6050GyroLsbToRads b).sub bias)
  | _ => none

theorem value_some (bias : Vector3 K) (b : Fin 6 → BitVec 8) :
    value bias (.gyro (some b))
      = some ((scaled mpu6050GyroLsbToRads b).sub bias) := rfl

/-- Whether a read is a failed one of the gyroscope. -/
def Read.failed : Read → Bool
  | .gyro none => true
  | _ => false

/-- The failed reads since the last good one. -/
def failures (bias : Vector3 K) (reads : List Read) : Nat :=
  (Lib.window (value bias) reads).countP Read.failed

/-- A vector with the bias taken off `n` more times. -/
def drifted (v bias : Vector3 K) (n : Nat) : Vector3 K where
  x := v.x - n * bias.x
  y := v.y - n * bias.y
  z := v.z - n * bias.z

/-- What the driver holds after some reads. -/
structure After (start : Mpu6050Imu K) (reads : List Read)
    (o : Mpu6050Imu K) : Prop where
  calibrated : o.calibrated = true
  bias : o.bias = start.bias
  gyro : o.gyro
    = drifted ((Lib.latest (value start.bias) reads).getD start.gyro)
        start.bias (failures start.bias reads)

section Drift

variable {start o : Mpu6050Imu K} {reads : List Read}

theorem drifted_zero (v bias : Vector3 K) : drifted v bias 0 = v := by
  simp [drifted]

theorem drifted_succ (v bias : Vector3 K) (n : Nat) :
    drifted v bias (n + 1) = (drifted v bias n).sub bias := by
  simp only [drifted, Vector3.sub, Nat.cast_add, Nat.cast_one]
  congr 1 <;> ring

theorem after_nil (h : start.calibrated = true) :
    After start [] start where
  calibrated := h
  bias := rfl
  gyro := (drifted_zero _ _).symm

/-- One more read. -/
theorem After.step (h : After start reads o) (c : Read) :
    After start (reads ++ [c]) (c.exec o).1 := by
  cases c with
  | accel r =>
      obtain ⟨hgyro, hbias, hcal⟩ := accel_step (o := o) r
      have hvalue : value start.bias (.accel r) = none := rfl
      refine ⟨hcal.trans h.calibrated, hbias.trans h.bias, ?_⟩
      show (o.readAccelerometer r).2.gyro = _
      rw [hgyro, h.gyro, Lib.latest_concat_none _ hvalue, failures,
        failures, Lib.window_concat_none _ hvalue, List.countP_append]
      rfl
  | gyro r =>
      refine ⟨(readGyroscope_calibrated r).trans h.calibrated,
        (readGyroscope_bias r).trans h.bias, ?_⟩
      show (o.readGyroscope r).2.gyro = _
      rw [readGyroscope_gyro]
      cases r with
      | some b =>
          have hvalue := value_some start.bias b
          rw [readGyroscope_some h.calibrated, h.bias,
            Lib.latest_concat_some _ hvalue, failures,
            Lib.window_concat_some _ hvalue]
          exact (drifted_zero _ _).symm
      | none =>
          have hvalue : value start.bias (.gyro none) = none := rfl
          have hcount : failures start.bias (reads ++ [.gyro none])
              = failures start.bias reads + 1 := by
            rw [failures, Lib.window_concat_none _ hvalue,
              List.countP_append]
            rfl
          rw [readGyroscope_none h.calibrated, h.bias, h.gyro,
            Lib.latest_concat_none _ hvalue, hcount, drifted_succ]

/-- What a calibrated driver holds after any reads: the latest good value
less the bias once for every failure since. -/
theorem after_run (h : start.calibrated = true) (reads : List Read) :
    After start reads ((machine K).final start reads) := by
  induction reads using List.reverseRecOn with
  | nil => exact after_nil h
  | append_singleton reads c ih =>
      rw [Lib.Mealy.final_concat]
      exact ih.step c

/-- The latest good read returned the latest value of the registers. -/
theorem latest_good (h : start.calibrated = true) (reads : List Read) :
    Lib.latest good ((machine K).transcript start reads)
      = Lib.latest (value start.bias) reads := by
  induction reads using List.reverseRecOn with
  | nil => rfl
  | append_singleton reads c ih =>
      rw [Lib.Mealy.transcript_concat]
      have hafter := after_run h reads
      match c with
      | .accel r =>
          rw [Lib.latest_concat_none _ rfl, Lib.latest_concat_none _ rfl, ih]
      | .gyro none =>
          rw [Lib.latest_concat_none _ rfl, Lib.latest_concat_none _ rfl, ih]
      | .gyro (some b) =>
          have hv := readGyroscope_some hafter.calibrated b
          rw [hafter.bias] at hv
          have hgood : ∀ v : Vector3 K, good (.gyro (some b), v) = some v :=
            fun _ => rfl
          rw [Lib.latest_concat_some _ (hgood _),
            Lib.latest_concat_some _ (value_some start.bias b)]
          exact congrArg some hv

end Drift

-- ============================================================== the result

section Result

/-- A drift that ends where it started has nothing to take off. -/
theorem bias_eq_zero {v bias : Vector3 K} {n : Nat} (hn : n ≠ 0)
    (h : drifted v bias n = v) : bias = Vector3.zero := by
  have hcast : (n : K) ≠ 0 := Nat.cast_ne_zero.mpr hn
  have hzero : ∀ a b : K, a - n * b = a → b = 0 := by
    intro a b hab
    exact (mul_eq_zero.mp (sub_eq_self.mp hab)).resolve_left hcast
  have hx := hzero _ _ (congrArg Vector3.x h)
  have hy := hzero _ _ (congrArg Vector3.y h)
  have hz := hzero _ _ (congrArg Vector3.z h)
  simp only [Vector3.zero, Int.cast_zero]
  exact Vector3.ext hx hy hz

theorem drifted_unbiased (v : Vector3 K) (n : Nat) :
    drifted v Vector3.zero n = v := by
  simp [drifted, Vector3.zero]

/-- A failed read, against the latest good one. -/
theorem After.failed {start o : Mpu6050Imu K} {reads : List Read}
    (h : After start reads o) {g : Vector3 K}
    (hg : Lib.latest (value start.bias) reads = some g) :
    (o.readGyroscope none).1
      = drifted g start.bias (failures start.bias reads + 1) := by
  rw [readGyroscope_none h.calibrated, h.gyro, hg, h.bias, drifted_succ]
  rfl

/-- A latest good value was read from some registers. -/
theorem exists_of_latest {bias g : Vector3 K} {reads : List Read}
    (h : Lib.latest (value bias) reads = some g) :
    ∃ b, Read.gyro (some b) ∈ reads := by
  obtain ⟨c, hc, hval⟩ := Lib.mem_of_latest h
  match c, hval with
  | .gyro (some b), _ => exact ⟨b, hc⟩

/-- And once registers were read there is one. -/
theorem latest_of_mem {bias : Vector3 K} {reads : List Read}
    {b : Fin 6 → BitVec 8} (h : Read.gyro (some b) ∈ reads) :
    ∃ g, Lib.latest (value bias) reads = some g := by
  cases hg : Lib.latest (value bias) reads with
  | some g => exact ⟨g, rfl⟩
  | none =>
      have hnil : reads.filterMap (value bias) = [] :=
        List.getLast?_eq_none_iff.mp hg
      exact absurd (List.filterMap_eq_nil_iff.mp hnil _ h)
        (Option.some_ne_none _)

/-- After a successful `init`, over any reads: a failed gyroscope read
returns the last good value exactly when the bias found is zero or no
failed read has a good one before it. -/
theorem last_good_iff (o : Mpu6050Imu K) {start : StartBus}
    {samples : Fin 40 → Burst} (hinit : (o.init start samples).1 = true)
    (reads : List Read) :
    LastGood (o.init start samples).2 reads
      ↔ (o.init start samples).2.bias = Vector3.zero
        ∨ ∀ pre post, reads = pre ++ .gyro none :: post →
          ∀ b, Read.gyro (some b) ∉ pre := by
  have hcal := init_calibrated hinit
  generalize (o.init start samples).2 = o' at hcal ⊢
  constructor
  · intro h
    refine or_iff_not_imp_right.mpr fun hne => ?_
    push Not at hne
    obtain ⟨pre, post, hsplit, b, hb⟩ := hne
    obtain ⟨g, hg⟩ : ∃ g, Lib.latest (value o'.bias) pre = some g :=
      latest_of_mem hb
    have hlast := h pre none post hsplit g
      (by rw [latest_good hcal, hg]; rfl)
    rw [(after_run hcal pre).failed hg] at hlast
    exact bias_eq_zero (Nat.succ_ne_zero _) hlast
  · intro h pre r post hsplit
    have hafter := after_run hcal pre
    cases r with
    | some b =>
        show (Mpu6050Imu.readGyroscope _ (some b)).1 = _
        rw [readGyroscope_some hafter.calibrated, hafter.bias]
    | none =>
        intro v g hg
        rw [latest_good hcal] at hg
        rcases h with hzero | hnever
        · show (Mpu6050Imu.readGyroscope _ none).1 = g
          rw [hafter.failed hg, hzero, drifted_unbiased]
        · obtain ⟨b, hb⟩ := exists_of_latest hg
          exact absurd hb (hnever pre post hsplit b)

/-- A sensor that answers at start. -/
def startOk : StartBus := ⟨some 0x68, true, true, true⟩

/-- A burst that reads `n` on the x axis and nothing on the others. -/
def burstX (n : BitVec 8) : Fin 6 → BitVec 8 := ![0, n, 0, 0, 0, 0]

/-- The condition, for a sensor that is off by one degree a second. -/
theorem last_good_iff_offset :
    let o := ((Mpu6050Imu.new ImuMsg.zero : Mpu6050Imu ℚ).init startOk
      fun _ => some (burstX 131)).2
    LastGood o [.gyro (some (burstX 131)), .gyro none]
      ↔ o.bias = Vector3.zero
        ∨ ∀ pre post, [Read.gyro (some (burstX 131)), .gyro none]
            = pre ++ .gyro none :: post →
          ∀ b, Read.gyro (some b) ∉ pre :=
  last_good_iff _ rfl _

/-- Standing still, its first failed read reports a turn. -/
theorem failed_read_drifts :
    let r := (Mpu6050Imu.new ImuMsg.zero : Mpu6050Imu ℚ).init startOk
      fun _ => some (burstX 131)
    r.1 = true
      ∧ ¬ LastGood r.2 [.gyro (some (burstX 131)), .gyro none] := by
  intro r
  refine ⟨rfl, fun h => ?_⟩
  have hlast := h [.gyro (some (burstX 131))] none [] rfl
    (r.2.readGyroscope (some (burstX 131))).1 rfl
  have hx := congrArg Vector3.x hlast
  revert hx
  decide +kernel

end Result

end Mpu6050Imu

end LinoStm32
