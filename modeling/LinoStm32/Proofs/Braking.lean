/-
What the deadman does to the wheels: exactly when an expired tick brakes,
and a run in which it does not.

The deadman replaces the COMMAND, not the controllers. At an expired
tick every target is 0, so a turning wheel's error opposes its motion;
but the integral and the derivative still hold what earlier ticks put
there. The PWM of that tick is the sum of two parts:

- the braking part, `-(kp + ki + kd) * rpm`, which opposes the motion;
- the carry, `ki * integral - kd * prevError`, which is whatever the
  past left.

`PID.Yields` says the carry does not overcome the braking part by a full
PWM count, and `sameSign_iff_not_yields` that this is exactly the
condition under which the wheel is not pushed on. The clamp never
decides: it keeps every value from 1 on at or above 1.

What the past left is read off the calls: the errors summed since the wheel
last rested, and the error of the last tick (`carryYields_iff`).
-/
import LinoStm32.ControlLoop
import LinoStm32.Proofs.PidLaw

namespace LinoStm32

variable {K : Type} [Field K] [LinearOrder K] [FloorRing K]

-- ================================================ statement vocabulary

/-- A PWM that drives a wheel in the direction it is already turning. -/
def SameSign (pwm : Int) (rpm : K) : Prop :=
  (0 < pwm ∧ 0 < rpm) ∨ (pwm < 0 ∧ rpm < 0)

/-- The correction carried over from earlier samples does not overcome
the braking correction for a wheel turning at `rpm` by one PWM count. -/
def PID.Yields (p : PID K) (rpm : K) : Prop :=
  (0 < rpm → p.ki * p.integral - p.kd * p.prevError
      < (p.kp + p.ki + p.kd) * rpm + 1)
    ∧ (rpm < 0 → (p.kp + p.ki + p.kd) * rpm - 1
      < p.ki * p.integral - p.kd * p.prevError)

/-- The call sequence ticks at `t` in state `s`: some prefix of it leads
to `s`, and the next call is that tick. -/
def TicksAt {F : Type} [CFloat F] {E : RpmSource F} {I : ImuDriver F}
    (T : Trig F) (s₀ : ControlLoop F E I) (calls : List (Call E I))
    (s : ControlLoop F E I) (t : Nat) (inp : E.Input) (bus : I.Bus) :
    Prop :=
  ∃ pre post, calls = pre ++ .tick t inp bus :: post
    ∧ s = (loopMachine F E I T).final s₀ pre

/-- The deadman has expired for a tick reading the clock at `t`. -/
def Expired {F : Type} {E : RpmSource F} {I : ImuDriver F}
    (t : Nat) (s : ControlLoop F E I) : Prop :=
  cmdTimeoutMs ≤ linoMillis t - s.prevCmdMs

section Runs

variable {E : RpmSource K} {I : ImuDriver K}

/-- No expired tick of the run drives a used wheel in the direction it
is already turning. -/
def DeadmanBrakes (cfg : BoardConfig K) (T : Trig K)
    (s₀ : ControlLoop K E I) (calls : List (Call E I)) : Prop :=
  ∀ s t inp bus, TicksAt T s₀ calls s t inp bus → Expired t s →
    ∀ w, cfg.motorUsed w = true →
      ∀ p, (controlLoopTick T t inp bus s).2.step.pwm w = some p →
        ¬ SameSign p ((controlLoopTick T t inp bus s).2.rpm w)

/-- At every expired tick of the run, every used wheel's carry yields to
the wheel speed measured there. -/
def CarryYields (cfg : BoardConfig K) (T : Trig K)
    (s₀ : ControlLoop K E I) (calls : List (Call E I)) : Prop :=
  ∀ s t inp bus, TicksAt T s₀ calls s t inp bus → Expired t s →
    ∀ w, cfg.motorUsed w = true →
      (s.core.pid w).Yields ((E.getRPM s.enc inp).1 w)

end Runs

-- ================================================ one expired sample

/-- What the controller of a turning wheel returns with the target at 0:
the carry against the braking part, clamped. -/
theorem PID.compute_zero_target (p : PID K) {rpm : K} (hr : rpm ≠ 0) :
    (p.compute 0 rpm).1
      = constrain ((p.ki * p.integral - p.kd * p.prevError)
          - (p.kp + p.ki + p.kd) * rpm) p.minVal p.maxVal := by
  rw [p.compute_of_not_rest fun h => hr h.2]
  congr 1
  ring

/-- An expired tick passes the zero command on. -/
theorem tick_expired {E : RpmSource K} {I : ImuDriver K} (T : Trig K)
    {s : ControlLoop K E I} {t : Nat} (h : Expired t s) (inp : E.Input)
    (bus : I.Bus) : (controlLoopTick T t inp bus s).2.cmd = Cmd.zero :=
  if_pos h

variable [IsStrictOrderedRing K]

/-- With the target at 0, the PWM pushes the wheel on exactly when the
carry does not yield. -/
theorem sameSign_iff_not_yields (p : PID K) (hmin : p.minVal = -p.maxVal)
    (hmax : 1 ≤ p.maxVal) (rpm : K) :
    SameSign (CFloat.toInt (p.compute 0 rpm).1) rpm ↔ ¬ p.Yields rpm := by
  have hlim : p.minVal ≤ p.maxVal := by linarith
  rcases lt_trichotomy rpm 0 with hr | hr | hr
  · -- turning backward: the push is a PWM of -1 or less
    have hpos : ¬ 0 < rpm := not_lt.mpr hr.le
    have hpush : CFloat.toInt (p.compute 0 rpm).1 < 0
        ↔ (p.ki * p.integral - p.kd * p.prevError)
          - (p.kp + p.ki + p.kd) * rpm ≤ -1 := by
      rw [toInt_eq, Lib.towardZero_neg_iff, p.compute_zero_target hr.ne]
      exact constrain_le_iff hlim (by linarith) (by linarith) _
    simp only [SameSign, PID.Yields, hpos, hr, and_false, false_or,
      and_true, false_imp_iff, true_and, true_imp_iff, not_lt, hpush]
    constructor <;> intro h <;> linarith
  · -- standing still: neither side says anything
    subst hr
    simp [SameSign, PID.Yields]
  · -- turning forward: the push is a PWM of 1 or more
    have hneg : ¬ rpm < 0 := not_lt.mpr hr.le
    have hpush : 0 < CFloat.toInt (p.compute 0 rpm).1
        ↔ 1 ≤ (p.ki * p.integral - p.kd * p.prevError)
          - (p.kp + p.ki + p.kd) * rpm := by
      rw [toInt_eq, Lib.towardZero_pos_iff, p.compute_zero_target hr.ne']
      exact le_constrain_iff hlim (by linarith) hmax _
    simp only [SameSign, PID.Yields, hneg, hr, and_false, or_false,
      and_true, false_imp_iff, true_imp_iff, not_lt, hpush]
    constructor <;> intro h <;> linarith

-- ===================================================== one expired tick

variable {E : RpmSource K} {I : ImuDriver K} {cfg : BoardConfig K}

/-- The PWM of a wheel at an expired tick: its controller's output for
the target 0. -/
theorem tick_expired_pwm (hcfg : cfg.Sane) (T : Trig K)
    {s : ControlLoop K E I} (hs : s.core.Configured cfg) {t : Nat}
    (h : Expired t s) (inp : E.Input) (bus : I.Bus) (w : Fin 4) :
    (controlLoopTick T t inp bus s).2.step.pwm w
      = some (CFloat.toInt
          ((s.core.pid w).compute 0 ((E.getRPM s.enc inp).1 w)).1) := by
  have htarget : s.core.target Cmd.zero w = 0 := by
    have hk : 0 < s.core.kin.maxRpm := hs.kin ▸ hcfg.maxRpm_pos
    simpa [ControlCore.target, Cmd.zero] using s.core.kin.getRPM_zero hk w
  have hpwm : (controlLoopTick T t inp bus s).2.step.pwm w
      = s.core.pwm (controlLoopTick T t inp bus s).2.cmd
          (E.getRPM s.enc inp).1 w := rfl
  rw [hpwm, tick_expired T h, ControlCore.pwm,
    ControlCore.output_eq (hs.wheel w), htarget, Option.map_some]

/-- An expired tick spares a wheel exactly when its carry yields. -/
theorem tick_expired_brakes_iff (hcfg : cfg.Sane) (T : Trig K)
    {s : ControlLoop K E I} (hs : s.core.Configured cfg) {t : Nat}
    (h : Expired t s) (inp : E.Input) (bus : I.Bus) (w : Fin 4) :
    (∀ p, (controlLoopTick T t inp bus s).2.step.pwm w = some p →
        ¬ SameSign p ((controlLoopTick T t inp bus s).2.rpm w))
      ↔ (s.core.pid w).Yields ((E.getRPM s.enc inp).1 w) := by
  have hmin : (s.core.pid w).minVal = -(s.core.pid w).maxVal := by
    rw [hs.minVal, hs.maxVal, BoardConfig.pwmMin, Int.cast_neg]
  have hmax : 1 ≤ (s.core.pid w).maxVal := by
    rw [hs.maxVal]
    exact_mod_cast hcfg.pwmMax_pos
  have hiff := sameSign_iff_not_yields (s.core.pid w) hmin hmax
    ((E.getRPM s.enc inp).1 w)
  rw [tick_expired_pwm hcfg T hs h]
  constructor
  · intro hall
    by_contra hny
    exact hall _ rfl (hiff.mpr hny)
  · intro hy p hp hsame
    cases hp
    exact hiff.mp hsame hy

-- ========================================================== whole runs

/-- Every expired tick of a run brakes exactly when at every expired
tick the carry of each used wheel yields to its measured speed. -/
theorem deadman_brakes_iff (hcfg : cfg.Sane) (T : Trig K) (enc : E.State)
    (imu : I.State) (imuOk : Bool) (t₀ : Nat) (calls : List (Call E I)) :
    DeadmanBrakes cfg T (controlLoopInit cfg enc imu imuOk t₀) calls
      ↔ CarryYields cfg T (controlLoopInit cfg enc imu imuOk t₀) calls := by
  have hconf : ∀ s t inp bus,
      TicksAt T (controlLoopInit cfg enc imu imuOk t₀) calls s t inp bus →
      s.core.Configured cfg := by
    intro s t inp bus hat
    obtain ⟨pre, post, -, rfl⟩ := hat
    exact final_configured cfg T enc imu imuOk t₀ pre
  constructor
  · intro h s t inp bus hat hexp w hw
    exact (tick_expired_brakes_iff hcfg T (hconf s t inp bus hat) hexp inp
      bus w).mp (h s t inp bus hat hexp w hw)
  · intro h s t inp bus hat hexp w hw
    exact (tick_expired_brakes_iff hcfg T (hconf s t inp bus hat) hexp inp
      bus w).mpr (h s t inp bus hat hexp w hw)

-- =================================================== what the past left

/-- The samples a run gives to the controller of a wheel: at each tick the
target of the command passed on, and the measured speed. -/
def pidCalls (cfg : BoardConfig K) (T : Trig K) (s₀ : ControlLoop K E I)
    (calls : List (Call E I)) (w : Fin 4) : List (PID.Call K) :=
  ((loopMachine K E I T).outputs s₀ calls).filterMap fun out =>
    out.map fun k => .compute
      ((cfg.kinematics.getRPM k.cmd.x k.cmd.y k.cmd.wz).target w) (k.rpm w)

omit [IsStrictOrderedRing K] in
theorem pidCalls_concat_setCmd (T : Trig K) (s₀ : ControlLoop K E I)
    (calls : List (Call E I)) (t : Nat) (c : Cmd K) (w : Fin 4) :
    pidCalls cfg T s₀ (calls ++ [.setCmd t c]) w
      = pidCalls cfg T s₀ calls w := by
  rw [pidCalls, Lib.Mealy.outputs_append, List.filterMap_append]
  exact List.append_nil _

omit [IsStrictOrderedRing K] in
theorem pidCalls_concat_tick (T : Trig K) (s₀ : ControlLoop K E I)
    (calls : List (Call E I)) (t : Nat) (inp : E.Input) (bus : I.Bus)
    (w : Fin 4) :
    let k := (controlLoopTick T t inp bus
      ((loopMachine K E I T).final s₀ calls)).2
    pidCalls cfg T s₀ (calls ++ [.tick t inp bus]) w
      = pidCalls cfg T s₀ calls w ++ [.compute
        ((cfg.kinematics.getRPM k.cmd.x k.cmd.y k.cmd.wz).target w)
        (k.rpm w)] := by
  intro k
  rw [pidCalls, Lib.Mealy.outputs_append, List.filterMap_append]
  rfl

omit [IsStrictOrderedRing K] in
/-- Its controller is where these samples lead a fresh one. -/
theorem final_pid (T : Trig K) (enc : E.State) (imu : I.State)
    (imuOk : Bool) (t₀ : Nat) (calls : List (Call E I)) (w : Fin 4) :
    let s₀ : ControlLoop K E I := controlLoopInit cfg enc imu imuOk t₀
    ((loopMachine K E I T).final s₀ calls).core.pid w
      = (PID.machine K).final (PID.new ((cfg.pwmMin : Int) : K)
          ((cfg.pwmMax : Int) : K) cfg.kP cfg.kI cfg.kD)
        (pidCalls cfg T s₀ calls w) := by
  intro s₀
  induction calls using List.reverseRecOn with
  | nil => rfl
  | append_singleton calls c ih =>
      cases c with
      | setCmd t cmd =>
          rw [final_concat_setCmd, pidCalls_concat_setCmd]
          exact ih
      | tick t inp bus =>
          have hconf := final_configured cfg T enc imu imuOk t₀ calls
          rw [final_concat_tick, pidCalls_concat_tick,
            Lib.Mealy.final_append, ← ih, tick_core, ControlCore.step_pid,
            ControlCore.drive_pid (hconf.wheel w), ControlCore.target,
            hconf.kin]
          rfl

/-- What is carried over from the samples, and whether it yields. -/
def ErrorsYield (cfg : BoardConfig K) (samples : List (PID.Call K))
    (rpm : K) : Prop :=
  let carry :=
    cfg.kI * PID.errorSum samples - cfg.kD * PID.lastError samples
  let brake := (cfg.kP + cfg.kI + cfg.kD) * rpm
  (0 < rpm → carry < brake + 1) ∧ (rpm < 0 → brake - 1 < carry)

omit [IsStrictOrderedRing K] in
/-- So what the carry is made of is the sum of the errors since the wheel
last rested, and the error of the tick before. -/
theorem yields_iff (T : Trig K) (enc : E.State) (imu : I.State)
    (imuOk : Bool) (t₀ : Nat) (calls : List (Call E I)) (w : Fin 4)
    (rpm : K) :
    let s₀ : ControlLoop K E I := controlLoopInit cfg enc imu imuOk t₀
    (((loopMachine K E I T).final s₀ calls).core.pid w).Yields rpm
      ↔ ErrorsYield cfg (pidCalls cfg T s₀ calls w) rpm := by
  intro s₀
  have hconf := final_configured cfg T enc imu imuOk t₀ calls
  have htracks := PID.final_tracks ((cfg.pwmMin : Int) : K)
    ((cfg.pwmMax : Int) : K) cfg.kP cfg.kI cfg.kD
    (pidCalls cfg T s₀ calls w)
  rw [← final_pid] at htracks
  rw [PID.Yields, ErrorsYield, hconf.kp, hconf.ki, hconf.kd,
    htracks.integral, htracks.prevError]

omit [IsStrictOrderedRing K] in
/-- The condition of the run, told by its calls. -/
theorem carryYields_iff (T : Trig K) (enc : E.State) (imu : I.State)
    (imuOk : Bool) (t₀ : Nat) (calls : List (Call E I)) :
    let s₀ : ControlLoop K E I := controlLoopInit cfg enc imu imuOk t₀
    CarryYields cfg T s₀ calls
      ↔ ∀ pre t inp bus post, calls = pre ++ .tick t inp bus :: post →
        let s := (loopMachine K E I T).final s₀ pre
        Expired t s → ∀ w, cfg.motorUsed w = true →
          ErrorsYield cfg (pidCalls cfg T s₀ pre w)
            ((E.getRPM s.enc inp).1 w) := by
  intro s₀
  constructor
  · intro h pre t inp bus post heq s hexp w hw
    have hyields := h s t inp bus ⟨pre, post, heq, rfl⟩ hexp w hw
    exact (yields_iff T enc imu imuOk t₀ pre w _).mp hyields
  · rintro h s t inp bus ⟨pre, post, heq, rfl⟩ hexp w hw
    have hyields := h pre t inp bus post heq hexp w hw
    exact (yields_iff T enc imu imuOk t₀ pre w _).mpr hyields

-- ========================================== a run that brakes, and one not

/-- One command of 0.2 m/s at time 0, a tick with both wheels at rest, and
one at 300 ms by which both have turned forward. -/
def restThenTurning : List (Call (encoders ℚ) (ImuDriver.absent ℚ)) :=
  [.setCmd 0 ⟨1 / 5, 0, 0⟩, .tick 20 (20000, fun _ => 0) (),
    .tick 300 (300000, ![10000, 10000, 0, 0]) ()]

/-- What the first tick stored yields: the second brakes. -/
theorem deadman_brakes_iff_f446re :
    let s₀ : ControlLoop ℚ (encoders ℚ) (ImuDriver.absent ℚ) :=
      controlLoopInit f446re (f446re (F := ℚ)).encoders () false 0
    (((loopMachine ℚ _ _ Trig.level).outputs s₀ restThenTurning).map
        fun out => out.map fun k => (decide (0 < k.rpm 0), k.step.pwm 0))
      = [none, some (false, some 47), some (true, some (-20))]
      ∧ DeadmanBrakes f446re Trig.level s₀ restThenTurning := by
  intro s₀
  refine ⟨by decide +kernel,
    (deadman_brakes_iff f446re_sane _ _ _ _ _ _).mpr ?_⟩
  -- the third call is the one tick that has expired
  rintro s t inp bus ⟨pre, post, heq, rfl⟩ hexp w hw
  rcases pre with _ | ⟨c₁, _ | ⟨c₂, _ | ⟨c₃, pre⟩⟩⟩
  · cases heq
  · cases heq
    exact absurd hexp (by unfold Expired; decide +kernel)
  · cases heq
    fin_cases w
    · unfold PID.Yields; decide +kernel
    · unfold PID.Yields; decide +kernel
    · cases hw
    · cases hw
  · exact absurd (congrArg List.length heq) (by simp [restThenTurning])

/-- Nine ticks with both wheels held still. -/
def heldTicks : List (Call (encoders ℚ) (ImuDriver.absent ℚ)) :=
  (List.range 9).map fun k =>
    .tick (20 * (k + 1)) (BitVec.ofNat 32 (20000 * (k + 1)), fun _ => 0) ()

/-- One command of 0.2 m/s at time 0, both wheels held still for nine
ticks, and a tick at 200 ms at which both have begun to turn forward. -/
def heldThenFree : List (Call (encoders ℚ) (ImuDriver.absent ℚ)) :=
  .setCmd 0 ⟨1 / 5, 0, 0⟩ :: heldTicks
    ++ [.tick 200 (BitVec.ofNat 32 200000, ![160, 160, 0, 0]) ()]

/-- On the configured board that tick, at which the deadman has expired,
drives wheel 1 on in the direction it is turning. -/
theorem deadman_pushes_on :
    ¬ DeadmanBrakes (f446re : BoardConfig ℚ) Trig.level
      (controlLoopInit f446re (f446re (F := ℚ)).encoders () false 0)
      heldThenFree := by
  intro h
  have hat := h _ 200 (BitVec.ofNat 32 200000, ![160, 160, 0, 0]) ()
    ⟨.setCmd 0 ⟨1 / 5, 0, 0⟩ :: heldTicks, [], rfl, rfl⟩
    (by unfold Expired; decide +kernel) 0 (by decide)
  exact hat 162 (by decide +kernel) (Or.inl ⟨by decide, by decide +kernel⟩)

end LinoStm32
