/-
What the memory of a new IMU object leaves in its samples.

`operator new` hands out memory as `malloc` left it. The base class
initialises neither its message nor `gyro_cal_`. `getData` writes the
diagonals of the covariances and copies the message whole, so the other
entries are published as the memory held them; and `calibrateGyro` adds
its samples to what `gyro_cal_` held. Only the MPU6050 driver hides that
function by its own `init`.

# Two runs

Two runs that differ in that memory only stay `Alike`: every call takes
both to states that differ in the IMU object and the snapshot, and there
as the driver's own relation says (`alike_exec`). Each driver owes one
lemma about one `getData`.
-/
import LinoStm32.Proofs.ImuHealth

namespace LinoStm32

variable {K : Type} [Field K] [LinearOrder K] [FloorRing K]

-- ============================================================ the question

/-- What the memory of a new IMU object holds in the members that no
constructor writes. -/
structure Leftover (K : Type) where
  imuMsg : ImuMsg K
  gyroCal : Vector3 K

/-- Off the diagonal of a three by three matrix. -/
def OffDiagonal (i : Fin 9) : Prop := i ≠ 0 ∧ i ≠ 4 ∧ i ≠ 8

/-- The matrix is diagonal. -/
def Diagonal (c : Fin 9 → K) : Prop := ∀ i, OffDiagonal i → c i = 0

/-- Two samples with the same rates, accelerations and covariances, these
diagonal. -/
structure SameSample (a b : ImuMsg K) : Prop where
  angularVelocity : a.angularVelocity = b.angularVelocity
  linearAcceleration : a.linearAcceleration = b.linearAcceleration
  angularVelocityCovariance :
    a.angularVelocityCovariance = b.angularVelocityCovariance
  linearAccelerationCovariance :
    a.linearAccelerationCovariance = b.linearAccelerationCovariance
  angularDiagonal : Diagonal a.angularVelocityCovariance
  linearDiagonal : Diagonal a.linearAccelerationCovariance

section Runs

variable {E : RpmSource K} {I : ImuDriver K}

/-- Along a sequence of calls two runs publish the same samples, with
diagonal covariances. -/
def SameSamples (T : Trig K) (s s' : ControlLoop K E I)
    (calls : List (Call E I)) : Prop :=
  ∀ pre t inp bus post, calls = pre ++ .tick t inp bus :: post →
    SameSample
      (controlLoopTick T t inp bus ((loopMachine K E I T).final s pre)).1.imuSnap
      (controlLoopTick T t inp bus ((loopMachine K E I T).final s' pre)).1.imuSnap

/-- No call of the sequence is a tick. -/
def NoTick (calls : List (Call E I)) : Prop :=
  ∀ t inp bus, Call.tick t inp bus ∉ calls

theorem sameSamples_of_noTick {calls : List (Call E I)}
    (h : NoTick calls) (T : Trig K) (s s' : ControlLoop K E I) :
    SameSamples T s s' calls := by
  intro pre t inp bus post hsplit
  refine absurd ?_ (h t inp bus)
  rw [hsplit]
  exact List.mem_append_right _ List.mem_cons_self

-- ==================================================== two runs side by side

/-- Two states that differ in the IMU object and the snapshot only, and
there as `R` allows. -/
structure Alike (R : I.State → I.State → Prop) (s s' : ControlLoop K E I) :
    Prop where
  rest : s' = { s with imu := s'.imu, imuSnap := s'.imuSnap }
  imu : R s.imu s'.imu
  snap : SameSample s.imuSnap s'.imuSnap

/-- What a driver owes: from related objects one `getData` gives the same
sample and health, and related objects. -/
def Follows (I : ImuDriver K) (R : I.State → I.State → Prop) : Prop :=
  ∀ a b bus, R a b →
    R (I.getData a bus).2 (I.getData b bus).2
      ∧ SameSample (I.getData a bus).1 (I.getData b bus).1
      ∧ I.readOk (I.getData a bus).2 = I.readOk (I.getData b bus).2

omit [LinearOrder K] [FloorRing K] in
/-- The tick's own change to a sample keeps them the same. -/
theorem SameSample.published {a b : ImuMsg K} (h : SameSample a b)
    (I : ImuDriver K) (wz : K) :
    SameSample (imuSample I wz a) (imuSample I wz b) := by
  obtain ⟨hg, ha, hgc, hac, hgd, had⟩ := h
  unfold imuSample
  split
  · exact ⟨congrArg (fun v => { v with z := wz }) hg, ha, hgc, hac, hgd, had⟩
  · exact ⟨hg, ha, hgc, hac, hgd, had⟩

variable {R : I.State → I.State → Prop} {s s' : ControlLoop K E I}

omit [LinearOrder K] [FloorRing K] in
/-- The IMU part of a tick. -/
theorem Alike.imuPart (hR : Follows I R) (h : Alike R s s') (bus : I.Bus) :
    Alike R (imuTick bus s) (imuTick bus s') := by
  obtain ⟨hrest, himu, hsnap⟩ := h
  obtain ⟨hrel, hsample, hread⟩ := hR s.imu s'.imu bus himu
  generalize s'.imu = imu' at *
  generalize s'.imuSnap = snap' at *
  subst hrest
  unfold imuTick
  dsimp only
  split
  · refine ⟨?_, hrel, hsample.published I s.last.wz⟩
    rw [hread]
  · exact ⟨rfl, himu, hsnap⟩

/-- A tick. What comes before its IMU part looks at neither. -/
theorem Alike.tick (hR : Follows I R) (h : Alike R s s') (T : Trig K)
    (t : Nat) (inp : E.Input) (bus : I.Bus) :
    Alike R (controlLoopTick T t inp bus s).1
      (controlLoopTick T t inp bus s').1 := by
  refine Alike.imuPart hR ?_ bus
  refine ⟨?_, h.imu, h.snap⟩
  have hrest := h.rest
  generalize s'.imu = imu' at *
  generalize s'.imuSnap = snap' at *
  subst hrest
  rfl

/-- Whole runs. -/
theorem Alike.final (hR : Follows I R) (h : Alike R s s') (T : Trig K)
    (calls : List (Call E I)) :
    Alike R ((loopMachine K E I T).final s calls)
      ((loopMachine K E I T).final s' calls) := by
  have hsim := Lib.Mealy.simulation (M := loopMachine K E I T)
    (N := loopMachine K E I T) (R := Alike R) (Q := fun _ _ => True)
    (f := id) (fun a b call hab => ⟨?_, trivial⟩) h calls
  · rw [List.map_id] at hsim
    exact hsim.1
  · cases call with
    | setCmd t c =>
        have hrest := hab.rest
        refine ⟨?_, hab.imu, hab.snap⟩
        show controlSetCmd t c b = _
        rw [hrest]
        rfl
    | tick t inp bus => exact hab.tick hR T t inp bus

/-- So their samples are the same. -/
theorem Alike.sameSamples (hR : Follows I R) (h : Alike R s s')
    (T : Trig K) (calls : List (Call E I)) : SameSamples T s s' calls := by
  intro pre t inp bus post _
  exact ((h.final hR T pre).tick hR T t inp bus).snap

-- ================================================== what getData keeps

/-- The message's two covariances are diagonal. -/
def Clean (m : ImuMsg K) : Prop :=
  Diagonal m.angularVelocityCovariance
    ∧ Diagonal m.linearAccelerationCovariance

/-- Writing the diagonal makes no matrix diagonal that was not. -/
theorem diagonal_covariance_iff (c : Fin 9 → K) :
    Diagonal (Mpu6050Imu.covariance c) ↔ Diagonal c := by
  have hsame : ∀ i, OffDiagonal i → Mpu6050Imu.covariance c i = c i := by
    intro i hi
    unfold OffDiagonal at hi
    simp [Mpu6050Imu.covariance, hi]
  unfold Diagonal
  exact forall_congr' fun i => imp_congr_right fun hi => by rw [hsame i hi]

/-- It makes diagonal matrices equal. -/
theorem covariance_eq {c c' : Fin 9 → K} (h : Diagonal c)
    (h' : Diagonal c') :
    Mpu6050Imu.covariance c = Mpu6050Imu.covariance c' := by
  funext i
  by_cases hi : i = 0 ∨ i = 4 ∨ i = 8
  · simp [Mpu6050Imu.covariance, hi]
  · have hoff : OffDiagonal i := by
      unfold OffDiagonal
      tauto
    simp [Mpu6050Imu.covariance, hi, h i hoff, h' i hoff]

/-- A driver whose `getData` writes the diagonals into its own message
and hands that out. -/
structure Fills (I : ImuDriver K) (msg : I.State → ImuMsg K) : Prop where
  stored : ∀ a bus, msg (I.getData a bus).2 = (I.getData a bus).1
  angular : ∀ a bus, (I.getData a bus).1.angularVelocityCovariance
    = Mpu6050Imu.covariance (msg a).angularVelocityCovariance
  linear : ∀ a bus, (I.getData a bus).1.linearAccelerationCovariance
    = Mpu6050Imu.covariance (msg a).linearAccelerationCovariance

section Fills

variable {msg : I.State → ImuMsg K}

theorem Fills.clean_iff (h : Fills I msg) (a : I.State) (bus : I.Bus) :
    Clean (I.getData a bus).1 ↔ Clean (msg a) := by
  unfold Clean
  rw [h.angular, h.linear, diagonal_covariance_iff, diagonal_covariance_iff]

/-- With the gate open, a tick publishes a sample as clean as the object's
message, and leaves the message so. -/
theorem Fills.tick (h : Fills I msg) (hok : s.imuOk = true) (T : Trig K)
    (t : Nat) (inp : E.Input) (bus : I.Bus) :
    let s' := (controlLoopTick T t inp bus s).1
    s'.imuOk = true ∧ (Clean s'.imuSnap ↔ Clean (msg s.imu))
      ∧ (Clean (msg s'.imu) ↔ Clean (msg s.imu)) := by
  intro s'
  obtain ⟨hok', himu', -, hsnap'⟩ := controlLoopTick_imu hok T t inp bus
  have hsample : ∀ (wz : K) (m : ImuMsg K),
      Clean (imuSample I wz m) ↔ Clean m := by
    intro wz m
    unfold imuSample
    split <;> exact Iff.rfl
  refine ⟨hok', ?_, ?_⟩
  · rw [hsnap', hsample, h.clean_iff]
  · rw [himu', h.stored, h.clean_iff]

/-- Whole runs leave it so too. -/
theorem Fills.final (h : Fills I msg) (hok : s.imuOk = true) (T : Trig K)
    (calls : List (Call E I)) :
    ((loopMachine K E I T).final s calls).imuOk = true
      ∧ (Clean (msg ((loopMachine K E I T).final s calls).imu)
        ↔ Clean (msg s.imu)) := by
  refine Lib.Mealy.final_invariant (M := loopMachine K E I T)
    (P := fun r => r.imuOk = true ∧ (Clean (msg r.imu) ↔ Clean (msg s.imu)))
    (fun r call hr => ?_) ⟨hok, Iff.rfl⟩ calls
  cases call with
  | setCmd t c => exact hr
  | tick t inp bus =>
      obtain ⟨hok', -, hmsg⟩ := h.tick hr.1 T t inp bus
      exact ⟨hok', hmsg.trans hr.2⟩

/-- Samples that are the same with diagonal covariances need clean
messages to start from, unless there are no samples. -/
theorem Fills.clean_of_sameSamples (h : Fills I msg) (hok : s.imuOk = true)
    (hok' : s'.imuOk = true) {T : Trig K} {calls : List (Call E I)}
    (hsame : SameSamples T s s' calls) :
    NoTick calls ∨ (Clean (msg s.imu) ∧ Clean (msg s'.imu)) := by
  refine or_iff_not_imp_left.mpr fun htick => ?_
  unfold NoTick at htick
  push Not at htick
  obtain ⟨t, inp, bus, hmem⟩ := htick
  obtain ⟨pre, post, hsplit⟩ := List.append_of_mem hmem
  have hsample := hsame pre t inp bus post hsplit
  obtain ⟨hpre, hmsg⟩ := h.final hok T pre
  obtain ⟨hpre', hmsg'⟩ := h.final hok' T pre
  obtain ⟨-, hsnap, -⟩ := h.tick hpre T t inp bus
  obtain ⟨-, hsnap', -⟩ := h.tick hpre' T t inp bus
  refine ⟨hmsg.mp (hsnap.mp ⟨hsample.angularDiagonal,
    hsample.linearDiagonal⟩), hmsg'.mp (hsnap'.mp ⟨?_, ?_⟩)⟩
  · rw [← hsample.angularVelocityCovariance]
    exact hsample.angularDiagonal
  · rw [← hsample.linearAccelerationCovariance]
    exact hsample.linearDiagonal

end Fills

/-- With the gate closed nothing is sampled. -/
theorem sameSamples_of_not_ok (hok : s.imuOk = false)
    (hok' : s'.imuOk = false) (hsnap : s.imuSnap = ImuMsg.zero)
    (hsnap' : s'.imuSnap = ImuMsg.zero) (T : Trig K)
    (calls : List (Call E I)) : SameSamples T s s' calls := by
  have hstep : ∀ (r : ControlLoop K E I) (call : Call E I),
      (r.imuOk = false ∧ r.imuSnap = ImuMsg.zero) →
      ((Call.exec T r call).1.imuOk = false
        ∧ (Call.exec T r call).1.imuSnap = ImuMsg.zero) := by
    intro r call hr
    cases call with
    | setCmd t c => exact hr
    | tick t inp bus =>
        show (imuTick bus (publishOdom _ _)).imuOk = false
          ∧ (imuTick bus (publishOdom _ _)).imuSnap = ImuMsg.zero
        unfold imuTick
        rw [if_neg (by exact (Bool.eq_false_iff.mp hr.1))]
        exact hr
  have hrun := fun (r : ControlLoop K E I)
      (hr : r.imuOk = false ∧ r.imuSnap = ImuMsg.zero)
      (pre : List (Call E I)) =>
    Lib.Mealy.final_invariant (M := loopMachine K E I T) hstep hr pre
  intro pre t inp bus post _
  have h := hstep _ (.tick t inp bus) (hrun s ⟨hok, hsnap⟩ pre)
  have h' := hstep _ (.tick t inp bus) (hrun s' ⟨hok', hsnap'⟩ pre)
  show SameSample (Call.exec T _ (.tick t inp bus)).1.imuSnap
    (Call.exec T _ (.tick t inp bus)).1.imuSnap
  rw [h.2, h'.2]
  exact ⟨rfl, rfl, rfl, rfl, fun _ _ => Int.cast_zero,
    fun _ _ => Int.cast_zero⟩

end Runs

-- ========================================================== the two drivers

namespace Mpu6050Imu

/-- The object with another message. -/
def withMsg (o : Mpu6050Imu K) (m : ImuMsg K) : Mpu6050Imu K :=
  { o with imuMsg := m }

variable (o : Mpu6050Imu K) (m : ImuMsg K)

/-- No read looks at the message. -/
theorem readGyroscope_withMsg (r : Burst) :
    (o.withMsg m).readGyroscope r
      = ((o.readGyroscope r).1, (o.readGyroscope r).2.withMsg m) := by
  cases hcal : o.calibrated <;> cases r <;>
    simp [readGyroscope, withMsg, hcal]

theorem readAccelerometer_withMsg (r : Burst) :
    (o.withMsg m).readAccelerometer r
      = ((o.readAccelerometer r).1,
          (o.readAccelerometer r).2.withMsg m) := by
  cases r <;> rfl

theorem sumSamples_withMsg (sum : Vector3 K) (l : List Burst) :
    sumSamples sum (o.withMsg m) l
      = ((sumSamples sum o l).1, (sumSamples sum o l).2.withMsg m) := by
  induction l generalizing sum o with
  | nil => rfl
  | cons r l ih =>
      rw [sumSamples, readGyroscope_withMsg]
      exact ih _ _

/-- Neither does `init`. -/
theorem init_withMsg (start : StartBus) (samples : Fin 40 → Burst) :
    (o.withMsg m).init start samples
      = ((o.init start samples).1, (o.init start samples).2.withMsg m) := by
  unfold init
  rw [sumSamples_withMsg]
  split <;> rfl

/-- And it leaves the message as it was. -/
theorem init_imuMsg (start : StartBus) (samples : Fin 40 → Burst) :
    (o.init start samples).2.imuMsg = o.imuMsg := by
  have h := init_withMsg o o.imuMsg start samples
  exact congrArg (fun r => r.2.imuMsg) h

/-- `getData` looks at the message for what it does not write. -/
theorem getData_withMsg (bus : Burst × Burst) :
    (o.withMsg m).getData bus
      = ({ (o.getData bus).1 with
            orientation := m.orientation
            orientationCovariance := covariance m.orientationCovariance
            angularVelocityCovariance :=
              covariance m.angularVelocityCovariance
            linearAccelerationCovariance :=
              covariance m.linearAccelerationCovariance },
          (o.getData bus).2.withMsg ((o.withMsg m).getData bus).1) := by
  have hg := readGyroscope_withMsg o m bus.1
  have ha := readAccelerometer_withMsg (o.readGyroscope bus.1).2 m bus.2
  simp only [getData, hg, ha]
  rfl

/-- `getData` fills the message of the object. -/
theorem fills : Fills (ImuDriver.mpu6050 K) Mpu6050Imu.imuMsg where
  stored _ _ := rfl
  angular _ _ := rfl
  linear _ _ := rfl

/-- Objects that differ in their clean messages only. -/
def SameBut (a b : Mpu6050Imu K) : Prop :=
  ∃ m, b = a.withMsg m ∧ Clean a.imuMsg ∧ Clean m

/-- They give the same samples. -/
theorem follows : Follows (ImuDriver.mpu6050 K) SameBut := by
  intro a b bus h
  obtain ⟨m, rfl, hclean, hclean'⟩ := h
  have hdata := getData_withMsg a m bus
  have hfirst := fills.clean_iff a bus
  have hsecond := fills.clean_iff (a.withMsg m) bus
  obtain ⟨hangular, hlinear⟩ := hfirst.mpr hclean
  refine ⟨⟨((a.withMsg m).getData bus).1, congrArg Prod.snd hdata,
    hfirst.mpr hclean, hsecond.mpr hclean'⟩,
    ⟨?_, ?_, ?_, ?_, hangular, hlinear⟩, ?_⟩
  · exact (congrArg (fun r => r.1.angularVelocity) hdata).symm
  · exact (congrArg (fun r => r.1.linearAcceleration) hdata).symm
  · exact covariance_eq hclean.1 hclean'.1
  · exact covariance_eq hclean.2 hclean'.2
  · exact (congrArg (fun r => r.2.lastReadOk) hdata).symm

end Mpu6050Imu

namespace FakeImu

/-- The object with another message. -/
def withMsg (o : FakeImu K) (m : ImuMsg K) : FakeImu K :=
  { o with imuMsg := m }

/-- `getData` fills the message of the object. -/
theorem fills : Fills (ImuDriver.fake K) FakeImu.imuMsg where
  stored _ _ := rfl
  angular _ _ := rfl
  linear _ _ := rfl

/-- Objects that differ in their clean messages only. -/
def SameBut (a b : FakeImu K) : Prop :=
  ∃ m, b = a.withMsg m ∧ Clean a.imuMsg ∧ Clean m

/-- They give the same samples. -/
theorem follows : Follows (ImuDriver.fake K) SameBut := by
  intro a b bus h
  obtain ⟨m, rfl, hclean, hclean'⟩ := h
  have hfirst := fills.clean_iff a bus
  have hsecond := fills.clean_iff (a.withMsg m) bus
  obtain ⟨hangular, hlinear⟩ := hfirst.mpr hclean
  exact ⟨⟨_, rfl, hfirst.mpr hclean, hsecond.mpr hclean'⟩,
    ⟨rfl, rfl, covariance_eq hclean.1 hclean'.1,
      covariance_eq hclean.2 hclean'.2, hangular, hlinear⟩, rfl⟩

variable {o : FakeImu K}

/-- Samples of nothing add nothing. -/
theorem addSamples_of_still (h : o.gyro = Vector3.zero) (n : Nat) :
    addSamples n o = o := by
  have hadd : o.gyroCal.add o.readGyroscope = o.gyroCal := by
    simp [readGyroscope, h, Vector3.add, Vector3.zero]
  induction n with
  | zero => rfl
  | succ n ih =>
      rw [addSamples, hadd]
      exact ih

/-- What `gyroCal` held stays in it, divided by the number of samples. -/
theorem init_gyroCal (gyroCal : Vector3 K) (imuMsg : ImuMsg K) :
    (new gyroCal imuMsg).init
      = (true, { new gyroCal imuMsg with
          gyroCal := ⟨gyroCal.x / 40, gyroCal.y / 40, gyroCal.z / 40⟩ }) := by
  have hadd : addSamples 40 (new gyroCal imuMsg) = new gyroCal imuMsg :=
    addSamples_of_still rfl 40
  simp only [init, startSensor, calibrateGyro, hadd, if_true,
    Int.cast_ofNat]
  rfl

/-- `gyroCal` is the mean of the samples. -/
def Calibrated (o : FakeImu K) : Prop :=
  o.gyroCal = Mpu6050Imu.mean fun _ => o.readGyroscope

/-- After `init` it is that exactly when it was zero before. -/
theorem init_calibrated_iff [IsStrictOrderedRing K] (gyroCal : Vector3 K)
    (imuMsg : ImuMsg K) :
    ((new gyroCal imuMsg).init).2.Calibrated ↔ gyroCal = Vector3.zero := by
  have hzero : ∀ v : K, v / 40 = 0 ↔ v = 0 := fun v => by simp
  rw [init_gyroCal]
  simp [Calibrated, Mpu6050Imu.mean, readGyroscope, new, Vector3.zero,
    Vector3.ext_iff, hzero]

end FakeImu

-- ============================================================== the result

section Result

variable {E : RpmSource K} (cfg : BoardConfig K) (T : Trig K)
  (enc : E.State) (t₀ : Nat)

/-- After `control_loop_init` of the build with an MPU6050, in memory
that held `m`. -/
def mpu6050Start (start : StartBus) (samples : Fin 40 → Burst)
    (m : Leftover K) : ControlLoop K E (ImuDriver.mpu6050 K) :=
  let r := (Mpu6050Imu.new m.imuMsg).init start samples
  controlLoopInit cfg enc r.2 r.1 t₀

/-- The IMU object of the build without one, made in memory that held
`m` and initialised. -/
def fakeImu (m : Leftover K) : FakeImu K :=
  ((FakeImu.new m.gyroCal m.imuMsg).init).2

/-- After `control_loop_init` of that build. -/
def fakeStart (m : Leftover K) : ControlLoop K E (ImuDriver.fake K) :=
  controlLoopInit cfg enc (fakeImu m)
    ((FakeImu.new m.gyroCal m.imuMsg).init).1 t₀

/-- Two zero snapshots. -/
theorem sameSample_zero : SameSample (ImuMsg.zero : ImuMsg K) ImuMsg.zero :=
  ⟨rfl, rfl, rfl, rfl, fun _ _ => Int.cast_zero, fun _ _ => Int.cast_zero⟩

/-- The build with an MPU6050. -/
theorem mpu6050_sameSamples_iff (start : StartBus)
    (samples : Fin 40 → Burst) (m m' : Leftover K)
    (calls : List (Call E (ImuDriver.mpu6050 K))) :
    SameSamples T (mpu6050Start cfg enc t₀ start samples m)
        (mpu6050Start cfg enc t₀ start samples m') calls
      ↔ Mpu6050Imu.startSensor start = false ∨ NoTick calls
        ∨ (Clean m.imuMsg ∧ Clean m'.imuMsg) := by
  have hok : ∀ m : Leftover K,
      (mpu6050Start cfg enc t₀ start samples m).imuOk
        = Mpu6050Imu.startSensor start :=
    fun m => Mpu6050Imu.init_result _ start samples
  have hmsg : ∀ m : Leftover K, Mpu6050Imu.imuMsg
      (mpu6050Start cfg enc t₀ start samples m).imu = m.imuMsg :=
    fun m => Mpu6050Imu.init_imuMsg _ start samples
  constructor
  · intro h
    cases hstart : Mpu6050Imu.startSensor start with
    | false => exact Or.inl rfl
    | true =>
        have hclean := Mpu6050Imu.fills.clean_of_sameSamples
          ((hok m).trans hstart) ((hok m').trans hstart) h
        rw [hmsg m, hmsg m'] at hclean
        exact Or.inr hclean
  · intro h
    rcases h with hstart | hnone | ⟨hclean, hclean'⟩
    · exact sameSamples_of_not_ok ((hok m).trans hstart)
        ((hok m').trans hstart) rfl rfl T calls
    · exact sameSamples_of_noTick hnone T _ _
    · have hinit := Mpu6050Imu.init_withMsg (Mpu6050Imu.new m.imuMsg)
        m'.imuMsg start samples
      refine Alike.sameSamples Mpu6050Imu.follows ⟨?_, ?_, sameSample_zero⟩
        T calls
      · -- both runs come out of `init` with the same result
        have hres : ((Mpu6050Imu.new m'.imuMsg).init start samples).1
            = ((Mpu6050Imu.new m.imuMsg).init start samples).1 :=
          (hok m').trans (hok m).symm
        unfold mpu6050Start
        simp only [hres]
        rfl
      · refine ⟨m'.imuMsg, congrArg Prod.snd hinit, ?_, hclean'⟩
        rw [hmsg m]
        exact hclean

/-- The build without one. -/
theorem fake_sameSamples_iff [IsStrictOrderedRing K] (m m' : Leftover K)
    (calls : List (Call E (ImuDriver.fake K))) :
    (SameSamples T (fakeStart cfg enc t₀ m) (fakeStart cfg enc t₀ m') calls
      ∧ (fakeImu m).Calibrated ∧ (fakeImu m').Calibrated)
      ↔ (m.gyroCal = Vector3.zero ∧ m'.gyroCal = Vector3.zero)
        ∧ (NoTick calls ∨ (Clean m.imuMsg ∧ Clean m'.imuMsg)) := by
  have hcal : ∀ m : Leftover K,
      (fakeImu m).Calibrated ↔ m.gyroCal = Vector3.zero :=
    fun m => FakeImu.init_calibrated_iff m.gyroCal m.imuMsg
  have hmsg : ∀ m : Leftover K, (fakeImu m).imuMsg = m.imuMsg := by
    intro m
    rw [fakeImu, FakeImu.init_gyroCal]
    rfl
  rw [hcal, hcal, and_comm]
  refine and_congr_right fun hzero => ?_
  constructor
  · intro h
    have hclean := FakeImu.fills.clean_of_sameSamples
      (s := fakeStart cfg enc t₀ m) rfl rfl h
    have hclean' : NoTick calls
        ∨ (Clean (fakeImu m).imuMsg ∧ Clean (fakeImu m').imuMsg) := hclean
    rw [hmsg m, hmsg m'] at hclean'
    exact hclean'
  · intro h
    rcases h with hnone | ⟨hclean, hclean'⟩
    · exact sameSamples_of_noTick hnone T _ _
    · refine Alike.sameSamples FakeImu.follows ⟨rfl, ?_, sameSample_zero⟩
        T calls
      refine ⟨m'.imuMsg, ?_, ?_, hclean'⟩
      · show fakeImu m' = (fakeImu m).withMsg m'.imuMsg
        rw [fakeImu, fakeImu, FakeImu.init_gyroCal, FakeImu.init_gyroCal,
          hzero.1, hzero.2]
        rfl
      · show Clean (fakeImu m).imuMsg
        rw [hmsg m]
        exact hclean

/-- For every two contents of the memory, either driver, and the same
readings, faults and calls in both runs.

With an MPU6050 the samples are the same, with diagonal covariances,
exactly when the sensor does not start, or no tick samples it, or both
memories had zeros off the diagonals of the message's covariances.

Without one they are, and `gyroCal` is the mean of its samples, exactly
when besides both memories had a zero `gyroCal`. -/
theorem samples_independent_iff [IsStrictOrderedRing K] (m m' : Leftover K) :
    (∀ (start : StartBus) (samples : Fin 40 → Burst)
        (calls : List (Call E (ImuDriver.mpu6050 K))),
      SameSamples T (mpu6050Start cfg enc t₀ start samples m)
          (mpu6050Start cfg enc t₀ start samples m') calls
        ↔ Mpu6050Imu.startSensor start = false ∨ NoTick calls
          ∨ (Clean m.imuMsg ∧ Clean m'.imuMsg))
    ∧ ∀ calls : List (Call E (ImuDriver.fake K)),
      (SameSamples T (fakeStart cfg enc t₀ m) (fakeStart cfg enc t₀ m')
          calls
        ∧ (fakeImu m).Calibrated ∧ (fakeImu m').Calibrated)
        ↔ (m.gyroCal = Vector3.zero ∧ m'.gyroCal = Vector3.zero)
          ∧ (NoTick calls ∨ (Clean m.imuMsg ∧ Clean m'.imuMsg)) :=
  ⟨fun start samples =>
      mpu6050_sameSamples_iff cfg T enc t₀ start samples m m',
    fake_sameSamples_iff cfg T enc t₀ m m'⟩

end Result

/-- On the configured board, for a zeroed memory and one with a calibration
left in it. -/
theorem samples_independent_iff_f446re :
    let m : Leftover ℚ := ⟨ImuMsg.zero, Vector3.zero⟩
    let m' : Leftover ℚ := ⟨ImuMsg.zero, ⟨1, 0, 0⟩⟩
    let enc := BoardConfig.encoders (f446re (F := ℚ))
    (∀ (start : StartBus) (samples : Fin 40 → Burst)
        (calls : List (Call (encoders ℚ) (ImuDriver.mpu6050 ℚ))),
      SameSamples Trig.level (mpu6050Start f446re enc 0 start samples m)
          (mpu6050Start f446re enc 0 start samples m') calls
        ↔ Mpu6050Imu.startSensor start = false ∨ NoTick calls
          ∨ (Clean m.imuMsg ∧ Clean m'.imuMsg))
    ∧ ∀ calls : List (Call (encoders ℚ) (ImuDriver.fake ℚ)),
      (SameSamples Trig.level (fakeStart f446re enc 0 m)
          (fakeStart f446re enc 0 m') calls
        ∧ (fakeImu m).Calibrated ∧ (fakeImu m').Calibrated)
        ↔ (m.gyroCal = Vector3.zero ∧ m'.gyroCal = Vector3.zero)
          ∧ (NoTick calls ∨ (Clean m.imuMsg ∧ Clean m'.imuMsg)) :=
  samples_independent_iff f446re Trig.level _ 0 _ _

/-- With a one next to the diagonal in one of the two memories, the first
sample of a good sensor has it too. -/
theorem leftover_published :
    ¬ SameSamples (E := encoders ℚ) Trig.level
      (mpu6050Start f446re (BoardConfig.encoders (f446re (F := ℚ))) 0
        Mpu6050Imu.startOk (fun _ => some (Mpu6050Imu.burstX 131))
        ⟨ImuMsg.zero, Vector3.zero⟩)
      (mpu6050Start f446re (BoardConfig.encoders (f446re (F := ℚ))) 0
        Mpu6050Imu.startOk (fun _ => some (Mpu6050Imu.burstX 131))
        ⟨{ ImuMsg.zero with
            angularVelocityCovariance := fun i => if i = 1 then 1 else 0 },
          Vector3.zero⟩)
      [.tick 20 (20000, fun _ => 0)
        (some (Mpu6050Imu.burstX 131), some (Mpu6050Imu.burstX 1))] := by
  intro h
  have hcov := congrFun (h [] 20 (20000, fun _ => 0)
    (some (Mpu6050Imu.burstX 131), some (Mpu6050Imu.burstX 1)) [] rfl
    ).angularVelocityCovariance 1
  revert hcov
  decide +kernel

end LinoStm32
