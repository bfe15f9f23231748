/-
Odometry against the encoder counts: on a differential drive, exactly
when the heading is the count difference it should be.

A tick reads two clocks. `lino_millis` is read at its top and gives the
interval of the odometry; `lino_micros` is read after the critical
section and gives the interval of the wheel speeds. The heading of one
tick moves by

    circumference / (cpr * distance) * (right - left counts)
      * (odometry interval / wheel speed interval)

so it is right as long as the last factor is 1. The pose feeds back into
nothing, so each tick adds its own error and none is ever made good.

`DriveRun` is a run on one physical clock: instants of the two reads in
any ordered field, offsets of the two counters, and the true counts of
the wheels, of which the code only ever sees residues.
-/
import LinoStm32.ControlLoop
import LinoStm32.Lib.Clock

namespace LinoStm32

variable {K : Type} [Field K] [LinearOrder K] [FloorRing K]

-- ========================================================== the encoders

/-- An encoder as `control_loop_init` sets it up for a wired wheel. -/
structure Wired (cpr : Int) (is32 : Bool) (e : Encoder) : Prop where
  used : e.used = true
  cpr_eq : e.math.cpr = cpr
  is32_eq : e.math.is32 = is32
  plain : e.math.invert = false

/-- An encoder that has sampled: what it stored. -/
structure Sampled (cpr : Int) (is32 : Bool) (count : Int) (us : Nat)
    (e : Encoder) : Prop extends Wired cpr is32 e where
  first : e.math.first = false
  prevCnt : e.math.prevCnt = EncoderMath.counterReg is32 count
  prevUs : e.math.prevUs = BitVec.ofNat 32 us

section Sample

variable {cpr : Int} {is32 : Bool} {e : Encoder} {count count' : Int}
  {us us' : Nat}

/-- The first sample reports 0 and stores its reading. -/
theorem Wired.getRPM_first (h : Wired cpr is32 e) (hcpr : 0 < cpr)
    (hfirst : e.math.first = true) (count : Int) (us : Nat) :
    (e.getRPM (F := K) (EncoderMath.counterReg is32 count)
        (BitVec.ofNat 32 us)).1 = 0
      ∧ Sampled cpr is32 count us
        (e.getRPM (F := K) (EncoderMath.counterReg is32 count)
          (BitVec.ofNat 32 us)).2 := by
  have hcpr' : 0 < e.math.cpr := by rw [h.cpr_eq]; exact hcpr
  rw [Encoder.getRPM, if_pos h.used, EncoderMath.update_first _ _ hcpr' hfirst]
  exact ⟨Int.cast_zero, ⟨h.used, h.cpr_eq, h.is32_eq, h.plain⟩, rfl, rfl, rfl⟩

/-- A later sample reports the true count change over the true
microsecond interval, and stores its reading. -/
theorem Sampled.getRPM (h : Sampled cpr is32 count us e) (hcpr : 0 < cpr)
    (hus : us < us') (hlt : us' < us + 2 ^ 32)
    (hlo : -2 ^ EncoderMath.counterBits is32 ≤ 2 * (count' - count))
    (hhi : 2 * (count' - count) < 2 ^ EncoderMath.counterBits is32) :
    (e.getRPM (F := K) (EncoderMath.counterReg is32 count')
        (BitVec.ofNat 32 us')).1
      = ((count' - count : Int) : K) / (cpr : K)
          / (((us' - us : Nat) : K) / 60000000)
      ∧ Sampled cpr is32 count' us'
        (e.getRPM (F := K) (EncoderMath.counterReg is32 count')
          (BitVec.ofNat 32 us')).2 := by
  have hcpr' : 0 < e.math.cpr := by rw [h.cpr_eq]; exact hcpr
  have helapsed : (BitVec.ofNat 32 us' - e.math.prevUs).toNat = us' - us := by
    rw [h.prevUs]
    exact Lib.elapsed_of_lt 32 hus.le (by omega)
  have hdt : BitVec.ofNat 32 us' - e.math.prevUs ≠ 0 := by
    intro h0
    rw [h0] at helapsed
    simp at helapsed
    omega
  have hdelta : e.math.delta (EncoderMath.counterReg is32 count')
      = count' - count := by
    rw [← h.is32_eq] at hlo hhi ⊢
    exact EncoderMath.delta_counterReg h.plain
      (by rw [h.prevCnt, h.is32_eq]) hlo hhi
  rw [Encoder.getRPM, if_pos h.used,
    EncoderMath.update_sample _ _ hcpr' h.first hdt]
  refine ⟨?_, ⟨h.used, h.cpr_eq, h.is32_eq, h.plain⟩, h.first, rfl, rfl⟩
  show ((e.math.delta _ : Int) : K) / _ / (_ / _) = _
  rw [hdelta, helapsed, h.cpr_eq]
  push_cast
  rfl

end Sample

-- ============================================================== the setup

/-- The wheels that carry the encoders of a differential drive: front
left and front right. -/
def Front (w : Fin 4) : Prop := w = 0 ∨ w = 1

/-- A differential drive with both front encoders wired, equal counts per
revolution, and no inversion. -/
structure TwoWheelBoard (cfg : BoardConfig K) (cpr : Int) : Prop where
  base : cfg.linoBase = .differentialDrive
  cpr_pos : 0 < cpr
  countsPerRev : ∀ w, Front w → cfg.countsPerRev w = cpr
  wired : ∀ w, Front w → 0 ≤ cfg.motorEncoderA w
  plain : ∀ w, Front w → cfg.motorEncoderInv w = false

/-- The counter width of a wheel's encoder. -/
def BoardConfig.is32 (cfg : BoardConfig K) (w : Fin 4) : Bool :=
  cfg.encIs32 (cfg.motorEncoderA w)

/-- A run of ticks on one physical clock, `msAt k` and `usAt k` being the
instants in microseconds at which tick `k` reads `lino_millis` and
`lino_micros`, and `count k w` the counts of wheel `w` when it samples.
Between ticks any commands may be accepted. -/
structure DriveRun (cfg : BoardConfig K) (I : ImuDriver K) where
  msAt : Nat → K
  usAt : Nat → K
  offMs : K
  offUs : K
  count : Nat → Fin 4 → Int
  cmds : Nat → List (Nat × Cmd K)
  bus : Nat → I.Bus
  ms_nonneg : 0 ≤ msAt 0 + offMs
  us_nonneg : 0 ≤ usAt 0 + offUs
  ms_le_us : ∀ k, msAt k ≤ usAt k
  us_le_ms : ∀ k, usAt k ≤ msAt (k + 1)
  us_pos : ∀ k, ⌊usAt k + offUs⌋₊ < ⌊usAt (k + 1) + offUs⌋₊
  us_lt : ∀ k, ⌊usAt (k + 1) + offUs⌋₊ < ⌊usAt k + offUs⌋₊ + 2 ^ 32
  count_lo : ∀ k w, Front w → -2 ^ EncoderMath.counterBits (cfg.is32 w)
    ≤ 2 * (count (k + 1) w - count k w)
  count_hi : ∀ k w, Front w → 2 * (count (k + 1) w - count k w)
    < 2 ^ EncoderMath.counterBits (cfg.is32 w)

namespace DriveRun

variable {cfg : BoardConfig K} {I : ImuDriver K} (run : DriveRun cfg I)

/-- The millisecond count at tick `k`'s first read, before it wraps. -/
def ms (k : Nat) : Nat := ⌊(run.msAt k + run.offMs) / 1000⌋₊

/-- The microsecond count at tick `k`'s second read, before it wraps. -/
def us (k : Nat) : Nat := ⌊run.usAt k + run.offUs⌋₊

/-- What tick `k` reads of the encoders: the microsecond stamp and the
four counter registers. -/
def input (k : Nat) : UInt32T × (Fin 4 → UInt32T) :=
  (BitVec.ofNat 32 (run.us k),
    fun w => EncoderMath.counterReg (cfg.is32 w) (run.count k w))

/-- The commands accepted before tick `k`. -/
def accepted (k : Nat) : List (Call (encoders K) I) :=
  (run.cmds k).map fun c => .setCmd c.1 c.2

/-- The calls of the first `n` ticks. -/
def calls : Nat → List (Call (encoders K) I)
  | 0 => []
  | k + 1 => calls k ++ run.accepted k
      ++ [.tick (run.ms k) (run.input k) (run.bus k)]

variable (T : Trig K) (imu : I.State) (imuOk : Bool) (t₀ : Nat)

/-- The state from which tick `k` starts. -/
def before (k : Nat) : ControlLoop K (encoders K) I :=
  (loopMachine K (encoders K) I T).final
    (controlLoopInit cfg cfg.encoders imu imuOk t₀)
    (run.calls k ++ run.accepted k)

/-- Tick `k`: the state after it and what it did. -/
def tick (k : Nat) : ControlLoop K (encoders K) I × TickOut K :=
  controlLoopTick T (run.ms k) (run.input k) (run.bus k)
    (run.before T imu imuOk t₀ k)

/-- The interval, in seconds, over which tick `k` computes the speed of
wheel `w`: from the encoder's stored stamp to the tick's. -/
def rpmDt (k : Nat) (w : Fin 4) : K :=
  ((((run.input k).1
      - ((run.before T imu imuOk t₀ k).enc w).math.prevUs).toNat : Int) : K)
    / 1000000

/-- Over the first `n` ticks: from the second one on, the interval given
to the integrator is the one the wheel speeds were computed over; and
after each, the heading is that of the counts since the first sample. -/
def OdometryAgrees (cpr : Int) (n : Nat) : Prop :=
  (∀ k, k + 1 < n → ∀ w, Front w →
      (run.tick T imu imuOk t₀ (k + 1)).2.dt
        = run.rpmDt T imu imuOk t₀ (k + 1) w)
    ∧ ∀ k, k < n →
      (run.tick T imu imuOk t₀ k).1.core.odom.heading
        = cfg.kinematics.wheelCircumference
            / ((cpr : K) * cfg.kinematics.wheelsYDistance)
          * (((run.count k 1 - run.count 0 1)
            - (run.count k 0 - run.count 0 0) : Int) : K)

/-- Over the first `n` ticks: from one to the next the millisecond count,
read first, moves by exactly what the microsecond count, read second,
moves by. -/
def ClocksAgree (n : Nat) : Prop :=
  ∀ k, k + 1 < n →
    1000 * ((run.ms (k + 1) - run.ms k) % 2 ^ 32)
      = run.us (k + 1) - run.us k

-- =========================================================== one tick

theorem us_lt_succ (k : Nat) : run.us k < run.us (k + 1) := run.us_pos k

theorem us_succ_lt (k : Nat) : run.us (k + 1) < run.us k + 2 ^ 32 :=
  run.us_lt k

/-- What the run leaves after tick `k`, as far as the odometry reads it. -/
structure After (cpr : Int) (k : Nat)
    (s : ControlLoop K (encoders K) I) : Prop where
  kin : s.core.kin = cfg.kinematics
  prevOdomMs : s.prevOdomMs = linoMillis (run.ms k)
  enc : ∀ w, Front w →
    Sampled cpr (cfg.is32 w) (run.count k w) (run.us k) (s.enc w)

/-- Accepting commands touches nothing the odometry reads. -/
theorem final_accepted (s : ControlLoop K (encoders K) I)
    (cs : List (Nat × Cmd K)) :
    ((loopMachine K (encoders K) I T).final s
        (cs.map fun c => .setCmd c.1 c.2)).core = s.core
      ∧ ((loopMachine K (encoders K) I T).final s
        (cs.map fun c => .setCmd c.1 c.2)).enc = s.enc
      ∧ ((loopMachine K (encoders K) I T).final s
        (cs.map fun c => .setCmd c.1 c.2)).prevOdomMs = s.prevOdomMs := by
  induction cs generalizing s with
  | nil => exact ⟨rfl, rfl, rfl⟩
  | cons c cs ih => exact ih (controlSetCmd c.1 c.2 s)

/-- What a tick adds to the heading of a differential drive. -/
theorem tick_heading {s : ControlLoop K (encoders K) I}
    (hkin : s.core.kin = cfg.kinematics)
    (hbase : cfg.linoBase = .differentialDrive) (t : Nat)
    (inp : UInt32T × (Fin 4 → UInt32T)) (bus : I.Bus) :
    (controlLoopTick T t inp bus s).1.core.odom.heading
      = s.core.odom.heading
        + (((s.enc 1).getRPM (inp.2 1) inp.1).1
            - ((s.enc 0).getRPM (inp.2 0) inp.1).1) / 2 / 60
          * cfg.kinematics.wheelCircumference
          / (cfg.kinematics.wheelsYDistance / 2)
          * odomDt (linoMillis t) s.prevOdomMs := by
  have hdrive : s.core.kin.basePlatform = .differentialDrive := by
    rw [hkin]
    exact hbase
  have hwheels : cfg.kinematics.totalWheels = 2 := by
    show Kinematics.getTotalWheels cfg.linoBase = 2
    rw [hbase]
    rfl
  rw [tick_core, ControlCore.step_odom, OdomIntegrator.update_heading,
    ControlCore.velocities, Kinematics.getVelocities_differential hdrive,
    hkin, hwheels, Int.cast_ofNat]

variable {T imu imuOk t₀} {cpr : Int}

/-- The first tick seeds the encoders and turns nothing. -/
theorem tick_zero (hb : TwoWheelBoard cfg cpr) :
    run.After cpr 0 (run.tick T imu imuOk t₀ 0).1
      ∧ (run.tick T imu imuOk t₀ 0).1.core.odom.heading = 0 := by
  obtain ⟨hcore, henc, -⟩ := final_accepted T
    (controlLoopInit cfg cfg.encoders imu imuOk t₀) (run.cmds 0)
  change (run.before T imu imuOk t₀ 0).core = ControlCore.fresh cfg at hcore
  change (run.before T imu imuOk t₀ 0).enc = cfg.encoders at henc
  have hkin : (run.before T imu imuOk t₀ 0).core.kin = cfg.kinematics := by
    rw [hcore]
    rfl
  have hsample : ∀ w, Front w → _ := fun w hw => by
    have hused : (decide (0 ≤ cfg.motorEncoderA w)
        && decide (0 < cfg.countsPerRev w)) = true := by
      rw [hb.countsPerRev w hw]
      simp [hb.wired w hw, hb.cpr_pos]
    have hwired : Wired cpr (cfg.is32 w) (cfg.encoders w) := by
      simp only [BoardConfig.encoders, Encoder.new, hused, if_true]
      exact ⟨rfl, hb.countsPerRev w hw, rfl, hb.plain w hw⟩
    have hfirst : (cfg.encoders w).math.first = true := by
      simp only [BoardConfig.encoders, Encoder.new, hused, if_true]
      rfl
    exact hwired.getRPM_first (K := K) hb.cpr_pos hfirst (run.count 0 w)
      (run.us 0)
  rw [← henc] at hsample
  refine ⟨⟨?_, ?_, fun w hw => ?_⟩, ?_⟩
  · rw [tick, tick_core]
    exact hkin
  · exact tick_prevOdomMs _ _ _ _ _
  · rw [tick, tick_enc]
    exact (hsample w hw).2
  · have h0 := (hsample 0 (Or.inl rfl)).1
    have h1 := (hsample 1 (Or.inr rfl)).1
    rw [tick, tick_heading T hkin hb.base]
    simp only [input]
    rw [h0, h1, hcore]
    simp [ControlCore.fresh, OdomIntegrator.zero]

theorem before_succ (k : Nat) :
    run.before T imu imuOk t₀ (k + 1)
      = (loopMachine K (encoders K) I T).final (run.tick T imu imuOk t₀ k).1
          (run.accepted (k + 1)) := by
  unfold before
  rw [calls, Lib.Mealy.final_append, Lib.Mealy.final_append]
  rfl

/-- What a tick finds is what the one before it left. -/
theorem before_of_after {k : Nat}
    (h : run.After cpr k (run.tick T imu imuOk t₀ k).1) :
    run.After cpr k (run.before T imu imuOk t₀ (k + 1))
      ∧ (run.before T imu imuOk t₀ (k + 1)).core
        = (run.tick T imu imuOk t₀ k).1.core := by
  obtain ⟨hcore, henc, hms⟩ := final_accepted T
    (run.tick T imu imuOk t₀ k).1 (run.cmds (k + 1))
  rw [before_succ]
  refine ⟨⟨?_, hms.trans h.prevOdomMs, fun w hw => ?_⟩, hcore⟩
  · exact (congrArg ControlCore.kin hcore).trans h.kin
  · exact (congrFun henc w).symm ▸ h.enc w hw

/-- The microsecond interval of a tick, in seconds. -/
theorem tick_rpmDt {k : Nat}
    (h : run.After cpr k (run.tick T imu imuOk t₀ k).1) {w : Fin 4}
    (hw : Front w) :
    run.rpmDt T imu imuOk t₀ (k + 1) w
      = ((run.us (k + 1) - run.us k : Nat) : K) / 1000000 := by
  obtain ⟨hbefore, -⟩ := run.before_of_after h
  have hlt := run.us_succ_lt k
  rw [rpmDt, (hbefore.enc w hw).prevUs]
  show (((BitVec.ofNat 32 (run.us (k + 1)) - BitVec.ofNat 32 (run.us k)).toNat
    : Int) : K) / 1000000 = _
  rw [Lib.elapsed_of_lt 32 (run.us_lt_succ k).le (by omega), Int.cast_natCast]

variable [IsStrictOrderedRing K]

theorem ms_mono (k : Nat) : run.ms k ≤ run.ms (k + 1) := by
  refine Nat.floor_le_floor (div_le_div_of_nonneg_right ?_ (by norm_num))
  have h := (run.ms_le_us k).trans (run.us_le_ms k)
  linarith

/-- The millisecond interval of a tick, in seconds. -/
theorem tick_dt {k : Nat}
    (h : run.After cpr k (run.tick T imu imuOk t₀ k).1) :
    (run.tick T imu imuOk t₀ (k + 1)).2.dt
      = (((run.ms (k + 1) - run.ms k) % 2 ^ 32 : Nat) : K) / 1000 := by
  obtain ⟨hbefore, -⟩ := run.before_of_after h
  have hdt : (run.tick T imu imuOk t₀ (k + 1)).2.dt
      = odomDt (linoMillis (run.ms (k + 1)))
        (run.before T imu imuOk t₀ (k + 1)).prevOdomMs := rfl
  rw [hdt, hbefore.prevOdomMs, odomDt, linoMillis, linoMillis,
    Lib.elapsed 32 (run.ms_mono k), Int.cast_natCast, Int.cast_ofNat]

/-- Every later tick keeps what the odometry reads, and turns by the
count difference, scaled by how far the two intervals differ. -/
theorem tick_succ (hb : TwoWheelBoard cfg cpr) {k : Nat}
    (h : run.After cpr k (run.tick T imu imuOk t₀ k).1) :
    run.After cpr (k + 1) (run.tick T imu imuOk t₀ (k + 1)).1
      ∧ (run.tick T imu imuOk t₀ (k + 1)).1.core.odom.heading
        = (run.tick T imu imuOk t₀ k).1.core.odom.heading
          + cfg.kinematics.wheelCircumference
              / ((cpr : K) * cfg.kinematics.wheelsYDistance)
            * (((run.count (k + 1) 1 - run.count k 1)
              - (run.count (k + 1) 0 - run.count k 0) : Int) : K)
            * ((1000 * ((run.ms (k + 1) - run.ms k) % 2 ^ 32) : Nat)
              / ((run.us (k + 1) - run.us k : Nat) : K)) := by
  obtain ⟨hbefore, hcore⟩ := run.before_of_after h
  have hsample : ∀ w, Front w → _ := fun w hw =>
    (hbefore.enc w hw).getRPM (K := K) hb.cpr_pos (run.us_lt_succ k)
      (run.us_succ_lt k) (run.count_lo k w hw) (run.count_hi k w hw)
  refine ⟨⟨?_, tick_prevOdomMs _ _ _ _ _, fun w hw => ?_⟩, ?_⟩
  · rw [tick, tick_core]
    exact hbefore.kin
  · rw [tick, tick_enc]
    exact (hsample w hw).2
  · have h0 := (hsample 0 (Or.inl rfl)).1
    have h1 := (hsample 1 (Or.inr rfl)).1
    have hdt := run.tick_dt h
    have hdt' : (run.tick T imu imuOk t₀ (k + 1)).2.dt
        = odomDt (linoMillis (run.ms (k + 1)))
          (run.before T imu imuOk t₀ (k + 1)).prevOdomMs := rfl
    rw [tick, tick_heading T hbefore.kin hb.base, ← hdt', hdt, hcore]
    simp only [input]
    rw [h0, h1]
    push_cast
    ring

-- =========================================================== whole runs

theorem after_tick (hb : TwoWheelBoard cfg cpr) (k : Nat) :
    run.After cpr k (run.tick T imu imuOk t₀ k).1 := by
  induction k with
  | zero => exact (run.tick_zero hb).1
  | succ k ih => exact (run.tick_succ hb ih).1

/-- A tick's two intervals are equal exactly when the two counts moved by
the same time. -/
theorem dt_eq_iff (hb : TwoWheelBoard cfg cpr) (k : Nat) {w : Fin 4}
    (hw : Front w) :
    (run.tick T imu imuOk t₀ (k + 1)).2.dt
        = run.rpmDt T imu imuOk t₀ (k + 1) w
      ↔ 1000 * ((run.ms (k + 1) - run.ms k) % 2 ^ 32)
        = run.us (k + 1) - run.us k := by
  have hafter : run.After cpr k (run.tick T imu imuOk t₀ k).1 :=
    run.after_tick hb k
  rw [run.tick_dt hafter, run.tick_rpmDt hafter hw,
    div_eq_div_iff (by norm_num) (by norm_num)]
  constructor
  · intro h
    have hcast : ((1000 * ((run.ms (k + 1) - run.ms k) % 2 ^ 32) : Nat) : K)
        = ((run.us (k + 1) - run.us k : Nat) : K) := by
      push_cast at h ⊢
      linarith
    exact_mod_cast hcast
  · intro h
    rw [← h]
    push_cast
    ring

/-- While the clocks agree the heading is that of the counts. -/
theorem heading_of_clocksAgree (hb : TwoWheelBoard cfg cpr) {n : Nat}
    (hclocks : run.ClocksAgree n) {k : Nat} (hk : k < n) :
    (run.tick T imu imuOk t₀ k).1.core.odom.heading
      = cfg.kinematics.wheelCircumference
          / ((cpr : K) * cfg.kinematics.wheelsYDistance)
        * (((run.count k 1 - run.count 0 1)
          - (run.count k 0 - run.count 0 0) : Int) : K) := by
  induction k with
  | zero =>
      rw [(run.tick_zero hb).2, sub_self, sub_self, sub_self, Int.cast_zero,
        mul_zero]
  | succ k ih =>
      have hus : ((run.us (k + 1) - run.us k : Nat) : K) ≠ 0 := by
        have hlt := run.us_lt_succ k
        exact Nat.cast_ne_zero.mpr (by omega)
      rw [(run.tick_succ hb (run.after_tick hb k)).2, ih (by omega),
        hclocks k hk, div_self hus]
      push_cast
      ring

/-- The odometry of the first `n` ticks agrees with the encoders exactly
when the two clocks agree over them. -/
theorem odometry_agrees_iff (hb : TwoWheelBoard cfg cpr) (T : Trig K)
    (imu : I.State) (imuOk : Bool) (t₀ n : Nat) :
    run.OdometryAgrees T imu imuOk t₀ cpr n ↔ run.ClocksAgree n := by
  constructor
  · intro h k hk
    exact (run.dt_eq_iff hb k (Or.inl rfl)).mp (h.1 k hk 0 (Or.inl rfl))
  · intro h
    exact ⟨fun k hk w hw => (run.dt_eq_iff hb k hw).mpr (h k hk),
      fun k hk => run.heading_of_clocksAgree hb h hk⟩

end DriveRun

-- ====================================================== a delayed sample

/-- The configured board carries its two encoders. -/
theorem f446re_twoWheelBoard :
    TwoWheelBoard (f446re : BoardConfig ℚ) 144000 where
  base := rfl
  cpr_pos := by decide
  countsPerRev _ _ := rfl
  wired w hw := by rcases hw with rfl | rfl <;> decide
  plain _ _ := rfl

/-- Ticks 20 ms apart while the right wheel turns by 160 counts each,
tick 1 being held up by `late` microseconds between its two clock reads. -/
def turning (late : Nat) (hlate : late < 20000) :
    DriveRun (f446re : BoardConfig ℚ) (ImuDriver.absent ℚ) where
  msAt k := ((20000 * k : Nat) : ℚ)
  usAt k := ((20000 * k + if k = 1 then late else 0 : Nat) : ℚ)
  offMs := 0
  offUs := 0
  count k := ![0, 160 * k, 0, 0]
  cmds _ := []
  bus _ := ()
  ms_nonneg := by norm_num
  us_nonneg := by norm_num
  ms_le_us k := Nat.cast_le.mpr (by omega)
  us_le_ms k := Nat.cast_le.mpr (by split <;> omega)
  us_pos k := by
    rw [add_zero, add_zero, Nat.floor_natCast, Nat.floor_natCast]
    split <;> split <;> omega
  us_lt k := by
    rw [add_zero, add_zero, Nat.floor_natCast, Nat.floor_natCast]
    split <;> split <;> omega
  count_lo k w hw := by
    rcases hw with rfl | rfl
    · simp
    · refine le_trans (b := 0) (by simp) ?_
      simp
  count_hi k w hw := by
    rcases hw with rfl | rfl
    · simp
    · refine lt_of_le_of_lt (b := 320) ?_ (by decide)
      simp
      linarith

/-- With no delay the odometry of three ticks agrees. -/
theorem odometry_agrees_iff_turning :
    (turning 0 (by decide)).OdometryAgrees Trig.level () false 0 144000 3 := by
  have hclocks : (turning 0 (by decide)).ClocksAgree 3 := by
    intro k hk
    have hk' : k = 0 ∨ k = 1 := by omega
    rcases hk' with rfl | rfl <;> decide +kernel
  exact ((turning 0 (by decide)).odometry_agrees_iff f446re_twoWheelBoard
    Trig.level () false 0 3).mpr hclocks

/-- Held up by half a millisecond, tick 1 integrates 20 ms of a speed it
measured over 20.5 ms. -/
theorem odometry_disagrees :
    ¬ (turning 500 (by decide)).OdometryAgrees Trig.level () false 0
      144000 2 := by
  intro h
  have hheading := h.2 1 (by decide)
  revert hheading
  decide +kernel

end LinoStm32
