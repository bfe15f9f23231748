/-
What a NaN in one command does to the ticks after it.

Nothing between the network and the controllers looks at a command. A
NaN in a component the base uses makes every wheel target NaN, because
`constrain` returns what compares neither below nor above its limits;
and a NaN target makes the integral NaN, which every later sample adds
to. The output clamp passes the NaN on. The only thing that clears the
integral is a rest sample: target 0 and speed 0.

So a wheel is `Poisoned` by an earlier tick that passed such a command
on, until it has once been at rest since.

The exact half is a homomorphism: on numbers, every stage computes at
`QNaN` what it computes at the rationals (`target_num`), given a
positive speed limit and wheels with a circumference.
-/
import LinoStm32.ControlLoop

namespace LinoStm32

open QNaN

-- ===================================================== numbers stay numbers

namespace QNaN

theorem constrain_num (amt low high : ℚ) :
    constrain (num amt) (num low) (num high)
      = num (constrain amt low high) := by
  simp only [constrain, num_lt]
  split
  · rfl
  · split <;> rfl

/-- The clamp does not stop a NaN. -/
@[simp] theorem constrain_nan (low high : QNaN) :
    constrain nan low high = nan := by
  rw [constrain, if_neg (nan_lt low), if_neg (lt_nan high)]

theorem fabs_num (x : ℚ) : fabs (num x) = num (fabs x) := by
  simp only [fabs, intCast_eq, num_lt, num_neg]
  split <;> rfl

theorem PI_num : (PI : QNaN) = num PI :=
  num_div (by norm_num)

end QNaN

/-- Kinematics with numbers in every member. -/
def Kinematics.withNaN (k : Kinematics ℚ) : Kinematics QNaN where
  basePlatform := k.basePlatform
  maxRpm := num k.maxRpm
  wheelsYDistance := num k.wheelsYDistance
  wheelCircumference := num k.wheelCircumference
  totalWheels := k.totalWheels

/-- A board header of numbers. -/
def BoardConfig.withNaN (cfg : BoardConfig ℚ) : BoardConfig QNaN where
  linoBase := cfg.linoBase
  motorMaxRpm := cfg.motorMaxRpm
  maxRpmRatio := num cfg.maxRpmRatio
  motorOperatingVoltage := num cfg.motorOperatingVoltage
  motorPowerMaxVoltage := num cfg.motorPowerMaxVoltage
  wheelDiameter := num cfg.wheelDiameter
  lrWheelsDistance := num cfg.lrWheelsDistance
  countsPerRev := cfg.countsPerRev
  kP := num cfg.kP
  kI := num cfg.kI
  kD := num cfg.kD
  pwmBits := cfg.pwmBits
  motorEncoderInv := cfg.motorEncoderInv
  motorEncoderA := cfg.motorEncoderA
  motorPwm := cfg.motorPwm
  motorInA := cfg.motorInA
  motorInB := cfg.motorInB
  encIs32 := cfg.encIs32

/-- Constructed from numbers, the kinematics hold numbers. -/
theorem Kinematics.new_withNaN {robotBase : Base} {motorMaxRpm : Int}
    {ratio operating power diameter distance : ℚ} (hop : 0 < operating) :
    Kinematics.new robotBase motorMaxRpm (num ratio) (num operating)
        (num power) (num diameter) (num distance)
      = (Kinematics.new robotBase motorMaxRpm ratio operating power diameter
          distance).withNaN := by
  simp only [Kinematics.new, withNaN, intCast_eq, constrain_num,
    num_div hop.ne', num_mul, PI_num]

/-- So do those of a board. -/
theorem BoardConfig.withNaN_kinematics {cfg : BoardConfig ℚ}
    (h : cfg.Sane) : cfg.withNaN.kinematics = cfg.kinematics.withNaN :=
  Kinematics.new_withNaN h.operatingVoltage

namespace Kinematics

/-- A demand with numbers in every member. -/
def Demand.withNaN (d : Demand ℚ) : Demand QNaN :=
  ⟨num d.x, num d.y, num d.tan⟩

variable {k : Kinematics ℚ}

theorem demand_num (hcirc : k.wheelCircumference ≠ 0) (x y wz : ℚ) :
    k.withNaN.demand (num x) (num y) (num wz)
      = (k.demand x y wz).withNaN := by
  have h2 : ((2 : Int) : ℚ) ≠ 0 := by norm_num
  simp only [demand, Demand.withNaN, withNaN, intCast_eq, num_mul,
    num_div hcirc, num_div h2]

theorem scale_num (hmax : 0 < k.maxRpm) (y wz : ℚ) (d : Demand ℚ) :
    k.withNaN.scale (num y) (num wz) d.withNaN
      = (k.scale y wz d).withNaN := by
  have hdiv : ∀ sum : ℚ, k.maxRpm ≤ sum →
      num k.maxRpm / num sum = num (k.maxRpm / sum) :=
    fun sum hle => num_div (hmax.trans_le hle).ne'
  simp only [scale, Demand.withNaN, withNaN, fabs_num, num_add, num_le,
    num_feq, feq_eq, intCast_eq]
  split
  · next h => simp only [hdiv _ h.1, num_mul]
  · split
    · next h => simp only [hdiv _ h.1, num_mul]
    · rfl

theorem mix_num (d : Demand ℚ) (w : Fin 4) :
    (k.withNaN.mix d.withNaN).target w = num ((k.mix d).target w) := by
  fin_cases w <;>
    simp [mix, Rpm.target, Demand.withNaN, withNaN, constrain_num]

/-- On numbers the wheel targets are what exact arithmetic gives. -/
theorem target_num (hmax : 0 < k.maxRpm) (hcirc : k.wheelCircumference ≠ 0)
    (x y wz : ℚ) (w : Fin 4) :
    (k.withNaN.getRPM (num x) (num y) (num wz)).target w
      = num ((k.getRPM x y wz).target w) := by
  have hcalc : ∀ y : ℚ,
      (k.withNaN.calculateRPM (num x) (num y) (num wz)).target w
        = num ((k.calculateRPM x y wz).target w) := fun y => by
    rw [calculateRPM, demand_num hcirc, scale_num hmax, mix_num]
    rfl
  have hbase : k.withNaN.basePlatform = k.basePlatform := rfl
  cases hb : k.basePlatform with
  | mecanum => simpa only [getRPM, hbase, hb] using hcalc y
  | _ =>
      simp only [getRPM, hbase, hb]
      exact hcalc ((0 : Int) : ℚ)

-- ======================================================= a NaN spreads

theorem demand_nan {k : Kinematics QNaN} {x y wz : QNaN}
    (h : x = nan ∨ y = nan ∨ wz = nan) :
    (k.demand x y wz).x = nan ∨ (k.demand x y wz).y = nan
      ∨ (k.demand x y wz).tan = nan := by
  rcases h with rfl | rfl | rfl
  · exact Or.inl rfl
  · exact Or.inr (Or.inl rfl)
  · exact Or.inr (Or.inr rfl)

/-- The limiter leaves a demand alone or scales two of its members. -/
theorem scale_cases (k : Kinematics QNaN) (y wz : QNaN) (d : Demand QNaN) :
    (∃ v, k.scale y wz d = ⟨d.x * v, d.y * v, d.tan⟩)
      ∨ (∃ v, k.scale y wz d = ⟨d.x * v, d.y, d.tan * v⟩)
      ∨ k.scale y wz d = d := by
  unfold scale
  dsimp only
  split
  · exact Or.inl ⟨_, rfl⟩
  · split
    · exact Or.inr (Or.inl ⟨_, rfl⟩)
    · exact Or.inr (Or.inr rfl)

/-- Whatever the limiter scales, a NaN stays one. -/
theorem scale_nan {k : Kinematics QNaN} (y wz : QNaN) {d : Demand QNaN}
    (h : d.x = nan ∨ d.y = nan ∨ d.tan = nan) :
    (k.scale y wz d).x = nan ∨ (k.scale y wz d).y = nan
      ∨ (k.scale y wz d).tan = nan := by
  rcases k.scale_cases y wz d with ⟨v, hv⟩ | ⟨v, hv⟩ | hv
  · rw [hv]
    rcases h with h | h | h <;> simp [h]
  · rw [hv]
    rcases h with h | h | h <;> simp [h]
  · rw [hv]
    exact h

/-- Every wheel mixes all three components of the demand. -/
theorem mix_nan {k : Kinematics QNaN} {d : Demand QNaN}
    (h : d.x = nan ∨ d.y = nan ∨ d.tan = nan) (w : Fin 4) :
    (k.mix d).target w = nan := by
  rcases h with h | h | h <;>
    fin_cases w <;> simp [mix, Rpm.target, h]

theorem calculateRPM_nan {k : Kinematics QNaN} {x y wz : QNaN}
    (h : x = nan ∨ y = nan ∨ wz = nan) (w : Fin 4) :
    (k.calculateRPM x y wz).target w = nan :=
  mix_nan (scale_nan y wz (demand_nan h)) w

end Kinematics

-- ============================================================ statements

/-- The components of a command that a base of this kind uses are
numbers. -/
def Cmd.Usable (b : Base) (c : Cmd QNaN) : Prop :=
  c.x.Finite ∧ c.wz.Finite ∧ (b = .mecanum → c.y.Finite)

/-- All three components of a command are numbers. -/
def Cmd.Finite (c : Cmd QNaN) : Prop :=
  c.x.Finite ∧ c.y.Finite ∧ c.wz.Finite

/-- Any numbers as measured wheel speeds. -/
abbrev measured : RpmSource QNaN where
  State := Unit
  Input := Fin 4 → ℚ
  getRPM _ rpm := (fun w => num (rpm w), ())

section Statements

variable (cfg : BoardConfig ℚ) {I : ImuDriver QNaN}

/-- A tick at which a wheel is at rest: asked to stand still, measured
standing still. -/
def Rests (w : Fin 4) (k : TickOut QNaN) : Prop :=
  (cfg.withNaN.kinematics.getRPM k.cmd.x k.cmd.y k.cmd.wz).target w = num 0
    ∧ k.rpm w = num 0

/-- Some tick passed a command on with a NaN the base uses, and the wheel
has not been at rest at a tick since. -/
def Poisoned (w : Fin 4) (ticks : List (TickOut QNaN)) : Prop :=
  ∃ pre k post, ticks = pre ++ k :: post
    ∧ ¬ k.cmd.Usable cfg.linoBase ∧ ∀ k' ∈ post, ¬ Rests cfg w k'

/-- What the ticks of a call sequence did, in order. -/
def ticksOf (T : Trig QNaN) (s₀ : ControlLoop QNaN measured I)
    (calls : List (Call measured I)) : List (TickOut QNaN) :=
  ((loopMachine QNaN measured I T).outputs s₀ calls).filterMap id

/-- At every tick of the run whose own snapshot is finite, every
controller returns a number between the PWM limits. -/
def OutputsFinite (T : Trig QNaN) (s₀ : ControlLoop QNaN measured I)
    (calls : List (Call measured I)) : Prop :=
  ∀ pre t inp bus post, calls = pre ++ .tick t inp bus :: post →
    let s := (loopMachine QNaN measured I T).final s₀ pre
    s.cmd.Finite →
      ∀ w, ∃ q : ℚ,
        (controlLoopTick T t inp bus s).2.step.out w = some (num q)
          ∧ (cfg.pwmMin : ℚ) ≤ q ∧ q ≤ (cfg.pwmMax : ℚ)

/-- At every such tick every wheel that earlier ticks have poisoned is at
rest. -/
def PoisonedRest (T : Trig QNaN) (s₀ : ControlLoop QNaN measured I)
    (calls : List (Call measured I)) : Prop :=
  ∀ pre t inp bus post, calls = pre ++ .tick t inp bus :: post →
    let s := (loopMachine QNaN measured I T).final s₀ pre
    s.cmd.Finite →
      ∀ w, Poisoned cfg w (ticksOf T s₀ pre) →
        Rests cfg w (controlLoopTick T t inp bus s).2

end Statements

-- ============================================================ the target

theorem QNaN.eq_nan_of_not_finite {x : QNaN} (h : ¬ x.Finite) : x = nan := by
  cases x with
  | num q => exact absurd (finite_num q) h
  | nan => rfl

section Target

variable {cfg : BoardConfig ℚ} {c : Cmd QNaN}

/-- A command the base can use gives every wheel a number to reach. -/
theorem target_of_usable (hcfg : cfg.Sane) (h : c.Usable cfg.linoBase)
    (w : Fin 4) :
    ∃ q, (cfg.withNaN.kinematics.getRPM c.x c.y c.wz).target w
      = num q := by
  obtain ⟨x, y, wz⟩ := c
  obtain ⟨hx, hz, hy⟩ := h
  obtain ⟨x, rfl⟩ := finite_iff.mp hx
  obtain ⟨wz, rfl⟩ := finite_iff.mp hz
  have hnum := fun y => Kinematics.target_num hcfg.maxRpm_pos
    hcfg.wheelCircumference_pos.ne' x y wz w
  rw [BoardConfig.withNaN_kinematics hcfg]
  cases y with
  | num y => exact ⟨_, hnum y⟩
  | nan =>
      -- the base does not look at y
      refine ⟨_, Eq.trans ?_ (hnum 0)⟩
      cases hb : cfg.linoBase with
      | mecanum => exact absurd (hy hb) not_finite_nan
      | _ =>
          have hbase : cfg.kinematics.withNaN.basePlatform = cfg.linoBase := rfl
          simp only [Kinematics.getRPM, hbase, hb]

/-- Any other command gives every wheel a NaN. -/
theorem target_of_not_usable (h : ¬ c.Usable cfg.linoBase) (w : Fin 4) :
    (cfg.withNaN.kinematics.getRPM c.x c.y c.wz).target w = nan := by
  have hbase : cfg.withNaN.kinematics.basePlatform = cfg.linoBase := rfl
  by_cases hx : c.x.Finite
  · by_cases hz : c.wz.Finite
    · -- only y is left: the base is a mecanum one and y a NaN
      have hy : ¬ (cfg.linoBase = .mecanum → c.y.Finite) :=
        fun hy => h ⟨hx, hz, hy⟩
      obtain ⟨hb, hy⟩ := Classical.not_imp.mp hy
      simp only [Kinematics.getRPM, hbase, hb]
      exact Kinematics.calculateRPM_nan
        (Or.inr (Or.inl (eq_nan_of_not_finite hy))) w
    · have hz := eq_nan_of_not_finite hz
      unfold Kinematics.getRPM
      split <;>
        exact Kinematics.calculateRPM_nan (Or.inr (Or.inr hz)) w
  · have hx := eq_nan_of_not_finite hx
    unfold Kinematics.getRPM
    split <;> exact Kinematics.calculateRPM_nan (Or.inl hx) w

end Target

-- ======================================================== one controller

/-- A controller of the board's limits and gains. -/
structure PID.OfBoard (cfg : BoardConfig ℚ) (p : PID QNaN) : Prop where
  minVal : p.minVal = num cfg.pwmMin
  maxVal : p.maxVal = num cfg.pwmMax
  kp : p.kp = num cfg.kP
  ki : p.ki = num cfg.kI
  kd : p.kd = num cfg.kD

/-- A controller whose stored terms are numbers. -/
structure PID.Clean (p : PID QNaN) : Prop where
  integral : p.integral.Finite
  prevError : p.prevError.Finite

namespace PID

variable {cfg : BoardConfig ℚ} {p : PID QNaN}

theorem atRest_num (target rpm : ℚ) :
    atRest (num target) (num target - num rpm) = true
      ↔ num target = num 0 ∧ num rpm = num 0 := by
  have h : atRest (num target) (num target - num rpm)
      = atRest target (target - rpm) := by
    simp only [atRest, num_sub, intCast_eq, num_feq, feq_eq]
  rw [h, atRest_iff, num.injEq, num.injEq]

theorem atRest_num_false {target rpm : ℚ}
    (h : ¬ (num target = num 0 ∧ num rpm = num 0)) :
    atRest (num target) (num target - num rpm) = false := by
  rw [← Bool.not_eq_true, atRest_num]
  exact h

/-- A NaN target makes the integral a NaN. -/
theorem sample_nan (p : PID QNaN) (rpm : QNaN) :
    (p.sample nan rpm).integral = nan := by
  rw [p.sample_eq_of_not_rest rfl]
  simp

/-- A rest sample leaves a clean controller, whatever was stored. -/
theorem clean_of_rest (p : PID QNaN) :
    (p.sample (num 0) (num 0)).Clean
      ∧ (p.sample (num 0) (num 0)).derivative.Finite := by
  rw [p.sample_eq_of_rest ((atRest_num 0 0).mpr ⟨rfl, rfl⟩)]
  exact ⟨⟨trivial, trivial⟩, trivial⟩

/-- Any sample with a number to reach keeps a clean controller clean. -/
theorem Clean.sample (h : p.Clean) (target rpm : ℚ) :
    (p.sample (num target) (num rpm)).Clean
      ∧ (p.sample (num target) (num rpm)).derivative.Finite := by
  obtain ⟨i, hi⟩ := finite_iff.mp h.integral
  obtain ⟨e, he⟩ := finite_iff.mp h.prevError
  by_cases hrest : num target = num 0 ∧ num rpm = num 0
  · rw [hrest.1, hrest.2]
    exact clean_of_rest p
  · rw [p.sample_eq_of_not_rest (atRest_num_false hrest), hi, he, num_sub,
      num_add, num_sub]
    exact ⟨⟨trivial, trivial⟩, trivial⟩

/-- Away from rest a NaN integral stays one. -/
theorem sample_integral_nan (h : p.integral = nan) {target rpm : ℚ}
    (hrest : ¬ (num target = num 0 ∧ num rpm = num 0)) :
    (p.sample (num target) (num rpm)).integral = nan := by
  rw [p.sample_eq_of_not_rest (atRest_num_false hrest), h, nan_add]

/-- From stored numbers the output is a number between the limits. -/
theorem OfBoard.compute_finite (hb : p.OfBoard cfg)
    (hlim : cfg.pwmMin ≤ cfg.pwmMax) {target rpm : ℚ}
    (h : (p.sample (num target) (num rpm)).Clean
      ∧ (p.sample (num target) (num rpm)).derivative.Finite) :
    ∃ q : ℚ, (p.compute (num target) (num rpm)).1 = num q
      ∧ (cfg.pwmMin : ℚ) ≤ q ∧ q ≤ (cfg.pwmMax : ℚ) := by
  obtain ⟨i, hi⟩ := finite_iff.mp h.1.integral
  obtain ⟨d, hd⟩ := finite_iff.mp h.2
  have hout : (p.compute (num target) (num rpm)).1
      = num (constrain (cfg.kP * (target - rpm) + cfg.kI * i + cfg.kD * d)
          (cfg.pwmMin : ℚ) (cfg.pwmMax : ℚ)) := by
    simp only [compute, sample_kp, sample_ki, sample_kd, sample_minVal,
      sample_maxVal, hb.minVal, hb.maxVal, hb.kp, hb.ki, hb.kd, hi, hd,
      num_sub, num_mul, num_add, constrain_num]
  have hlim' : (cfg.pwmMin : ℚ) ≤ (cfg.pwmMax : ℚ) := by exact_mod_cast hlim
  exact ⟨_, hout, constrain_mem hlim' _⟩

/-- From a NaN integral, away from rest, the output is a NaN. -/
theorem compute_nan (h : p.integral = nan) (target rpm : ℚ)
    (hrest : ¬ (num target = num 0 ∧ num rpm = num 0)) :
    (p.compute (num target) (num rpm)).1 = nan := by
  have hi := sample_integral_nan h hrest
  simp only [compute, hi, mul_nan, add_nan, nan_add, sample_minVal,
    sample_maxVal, constrain_nan]

end PID

-- ============================================================== one tick

section Tick

variable {cfg : BoardConfig ℚ} {I : ImuDriver QNaN}

theorem Poisoned.concat_iff (cfg : BoardConfig ℚ) (w : Fin 4)
    (ticks : List (TickOut QNaN)) (k : TickOut QNaN) :
    Poisoned cfg w (ticks ++ [k])
      ↔ ¬ k.cmd.Usable cfg.linoBase
        ∨ (Poisoned cfg w ticks ∧ ¬ Rests cfg w k) := by
  constructor
  · intro h
    obtain ⟨pre, k', post, heq, hbad, hlater⟩ := h
    rcases Lib.Mealy.split_concat heq with ⟨-, rfl, -⟩ | ⟨post', hold, rfl⟩
    · -- the bad command is the last one
      exact Or.inl hbad
    · -- it is an earlier one, and the last tick is not at rest
      refine Or.inr ⟨⟨pre, k', post', hold, hbad, fun j hj => ?_⟩, ?_⟩
      · exact hlater j (List.mem_append_left _ hj)
      · exact hlater k (List.mem_append_right _ (List.mem_singleton_self k))
  · intro h
    rcases h with hbad | ⟨⟨pre, k', post, rfl, hbad, hlater⟩, hrest⟩
    · exact ⟨ticks, k, [], rfl, hbad, fun k' hk' => absurd hk' List.not_mem_nil⟩
    · refine ⟨pre, k', post ++ [k], by simp, hbad, fun k'' hk'' => ?_⟩
      rcases List.mem_append.mp hk'' with hold | hnew
      · exact hlater k'' hold
      · exact List.mem_singleton.mp hnew ▸ hrest

variable {T : Trig QNaN} {s : ControlLoop QNaN measured I} {t : Nat}
  {inp : Fin 4 → ℚ} {bus : I.Bus}

/-- The target a tick gives a wheel, from the command it passed on. -/
def TickOut.target (cfg : BoardConfig ℚ) (k : TickOut QNaN) (w : Fin 4) :
    QNaN :=
  (cfg.withNaN.kinematics.getRPM k.cmd.x k.cmd.y k.cmd.wz).target w

/-- What a tick does to a controller. -/
theorem tick_pid (hs : s.core.Configured cfg.withNaN) (w : Fin 4) :
    (controlLoopTick T t inp bus s).1.core.pid w
      = (s.core.pid w).sample
          ((controlLoopTick T t inp bus s).2.target cfg w)
          (num (inp w)) := by
  rw [tick_core, ControlCore.step_pid, ControlCore.drive_pid (hs.wheel w),
    ControlCore.target, hs.kin]
  rfl

/-- What a controller returns at a tick. -/
theorem tick_out (hs : s.core.Configured cfg.withNaN) (w : Fin 4) :
    (controlLoopTick T t inp bus s).2.step.out w
      = some ((s.core.pid w).compute
          ((controlLoopTick T t inp bus s).2.target cfg w)
          (num (inp w))).1 := by
  have hout : (controlLoopTick T t inp bus s).2.step.out w
      = s.core.output (controlLoopTick T t inp bus s).2.cmd
          (measured.getRPM s.enc inp).1 w := rfl
  rw [hout, ControlCore.output_eq (hs.wheel w), ControlCore.target, hs.kin]
  rfl

/-- What the invariant says of one wheel: a poisoned one has a NaN
integral, any other stores numbers. -/
def Tracks (cfg : BoardConfig ℚ) (w : Fin 4) (ticks : List (TickOut QNaN))
    (p : PID QNaN) : Prop :=
  (Poisoned cfg w ticks → p.integral = nan)
    ∧ (¬ Poisoned cfg w ticks → p.Clean)

/-- One tick keeps it: a NaN poisons, a rest sample heals, any other tick
does neither. -/
theorem Tracks.tick (hcfg : cfg.Sane) (hs : s.core.Configured cfg.withNaN)
    {w : Fin 4} {ticks : List (TickOut QNaN)}
    (h : Tracks cfg w ticks (s.core.pid w)) :
    Tracks cfg w (ticks ++ [(controlLoopTick T t inp bus s).2])
      ((controlLoopTick T t inp bus s).1.core.pid w) := by
  have hiff := Poisoned.concat_iff cfg w ticks
    (controlLoopTick T t inp bus s).2
  rw [tick_pid hs]
  by_cases husable : (controlLoopTick T t inp bus s).2.cmd.Usable
      cfg.linoBase
  · obtain ⟨q, hq⟩ := target_of_usable hcfg husable w
    have htarget : (controlLoopTick T t inp bus s).2.target cfg w = num q :=
      hq
    rw [htarget]
    by_cases hrest : num q = num 0 ∧ num (inp w) = num 0
    · -- a rest sample
      have hrests : Rests cfg w (controlLoopTick T t inp bus s).2 :=
        ⟨hq.trans hrest.1, hrest.2⟩
      refine ⟨fun hp => ?_, fun _ => ?_⟩
      · rcases hiff.mp hp with hbad | ⟨-, hno⟩
        · exact absurd husable hbad
        · exact absurd hrests hno
      · rw [hrest.1, hrest.2]
        exact (s.core.pid w).clean_of_rest.1
    · -- neither
      have hrests : ¬ Rests cfg w (controlLoopTick T t inp bus s).2 :=
        fun hr => hrest ⟨hq.symm.trans hr.1, hr.2⟩
      refine ⟨fun hp => ?_, fun hno => ?_⟩
      · rcases hiff.mp hp with hbad | ⟨hold, -⟩
        · exact absurd husable hbad
        · exact PID.sample_integral_nan (h.1 hold) hrest
      · have hold : ¬ Poisoned cfg w ticks :=
          fun hp => hno (hiff.mpr (Or.inr ⟨hp, hrests⟩))
        exact ((h.2 hold).sample q (inp w)).1
  · -- a NaN target
    have htarget : (controlLoopTick T t inp bus s).2.target cfg w = nan :=
      target_of_not_usable husable w
    rw [htarget]
    refine ⟨fun _ => PID.sample_nan _ _, fun hno => ?_⟩
    exact absurd (hiff.mpr (Or.inl husable)) hno

/-- A tick that passes a usable command on returns a number between the
limits for a wheel exactly when the wheel is not poisoned or at rest. -/
theorem Tracks.out_iff (hcfg : cfg.Sane)
    (hs : s.core.Configured cfg.withNaN) {w : Fin 4}
    {ticks : List (TickOut QNaN)} (h : Tracks cfg w ticks (s.core.pid w))
    (husable : (controlLoopTick T t inp bus s).2.cmd.Usable cfg.linoBase) :
    (∃ q : ℚ, (controlLoopTick T t inp bus s).2.step.out w = some (num q)
        ∧ (cfg.pwmMin : ℚ) ≤ q ∧ q ≤ (cfg.pwmMax : ℚ))
      ↔ (Poisoned cfg w ticks →
          Rests cfg w (controlLoopTick T t inp bus s).2) := by
  have hboard : (s.core.pid w).OfBoard cfg :=
    ⟨hs.minVal w, hs.maxVal w, hs.kp w, hs.ki w, hs.kd w⟩
  have hlim : cfg.pwmMin ≤ cfg.pwmMax := by
    have := hcfg.pwmMax_pos
    unfold BoardConfig.pwmMin
    omega
  obtain ⟨target, hq⟩ := target_of_usable hcfg husable w
  have htarget : (controlLoopTick T t inp bus s).2.target cfg w
      = num target := hq
  rw [tick_out hs, htarget]
  constructor
  · intro hfin hp
    obtain ⟨q, hout, -⟩ := hfin
    by_contra hrest
    have hnan := PID.compute_nan (h.1 hp) target (inp w)
      fun hr => hrest ⟨hq.trans hr.1, hr.2⟩
    rw [hnan] at hout
    cases hout
  · intro hrest
    have hclean : ((s.core.pid w).sample (num target) (num (inp w))).Clean
        ∧ ((s.core.pid w).sample (num target)
          (num (inp w))).derivative.Finite := by
      by_cases hp : Poisoned cfg w ticks
      · have hr := hrest hp
        rw [show num target = num 0 from hq.symm.trans hr.1,
          show num (inp w) = num 0 from hr.2]
        exact (s.core.pid w).clean_of_rest
      · exact (h.2 hp).sample target (inp w)
    obtain ⟨q, hout, hq⟩ := hboard.compute_finite hlim hclean
    exact ⟨q, congrArg some hout, hq⟩

end Tick

-- ============================================================ whole runs

section Runs

variable {cfg : BoardConfig ℚ} {I : ImuDriver QNaN} {T : Trig QNaN}

theorem ticksOf_concat_setCmd (s₀ : ControlLoop QNaN measured I)
    (calls : List (Call measured I)) (t : Nat) (c : Cmd QNaN) :
    ticksOf T s₀ (calls ++ [.setCmd t c]) = ticksOf T s₀ calls := by
  rw [ticksOf, Lib.Mealy.outputs_append, List.filterMap_append]
  exact List.append_nil _

theorem ticksOf_concat_tick (s₀ : ControlLoop QNaN measured I)
    (calls : List (Call measured I)) (t : Nat) (inp : Fin 4 → ℚ)
    (bus : I.Bus) :
    ticksOf T s₀ (calls ++ [.tick t inp bus]) = ticksOf T s₀ calls
      ++ [(controlLoopTick T t inp bus
        ((loopMachine QNaN measured I T).final s₀ calls)).2] := by
  rw [ticksOf, Lib.Mealy.outputs_append, List.filterMap_append]
  rfl

variable (imu : I.State) (imuOk : Bool) (t₀ : Nat)

/-- The invariant holds after every call sequence. -/
theorem tracks_after (hcfg : cfg.Sane) {s₀ : ControlLoop QNaN measured I}
    (hs₀ : s₀ = controlLoopInit cfg.withNaN () imu imuOk t₀)
    (calls : List (Call measured I)) (w : Fin 4) :
    Tracks cfg w (ticksOf T s₀ calls)
      (((loopMachine QNaN measured I T).final s₀ calls).core.pid w) := by
  induction calls using List.reverseRecOn with
  | nil =>
      rw [hs₀]
      refine ⟨fun hp => ?_, fun _ => ⟨trivial, trivial⟩⟩
      obtain ⟨pre, k, post, heq, -⟩ := hp
      simp [ticksOf] at heq
  | append_singleton calls call ih =>
      cases call with
      | setCmd t c =>
          rw [ticksOf_concat_setCmd, final_concat_setCmd]
          exact ih
      | tick t inp bus =>
          have hconf : ((loopMachine QNaN measured I T).final s₀
              calls).core.Configured cfg.withNaN :=
            hs₀ ▸ final_configured cfg.withNaN T () imu imuOk t₀ calls
          rw [ticksOf_concat_tick, final_concat_tick]
          exact ih.tick hcfg hconf

/-- What a tick with a finite snapshot passes on, any base can use. -/
theorem usable_of_finite {s : ControlLoop QNaN measured I}
    (h : s.cmd.Finite) (b : Base) (t : Nat) (inp : Fin 4 → ℚ)
    (bus : I.Bus) :
    (controlLoopTick T t inp bus s).2.cmd.Usable b := by
  show (deadman (linoMillis t) s.prevCmdMs s.cmd).Usable b
  unfold deadman
  split
  · exact ⟨trivial, trivial, fun _ => trivial⟩
  · exact ⟨h.1, h.2.2, fun _ => h.2.1⟩

/-- One tick of a run with a finite snapshot of its own, after any
calls. -/
theorem tick_outputs_iff (hcfg : cfg.Sane)
    {s₀ : ControlLoop QNaN measured I}
    (hs₀ : s₀ = controlLoopInit cfg.withNaN () imu imuOk t₀)
    (pre : List (Call measured I)) {s : ControlLoop QNaN measured I}
    (hs : (loopMachine QNaN measured I T).final s₀ pre = s)
    (hfin : s.cmd.Finite) (t : Nat) (inp : Fin 4 → ℚ) (bus : I.Bus)
    (w : Fin 4) :
    (∃ q : ℚ, (controlLoopTick T t inp bus s).2.step.out w = some (num q)
        ∧ (cfg.pwmMin : ℚ) ≤ q ∧ q ≤ (cfg.pwmMax : ℚ))
      ↔ (Poisoned cfg w (ticksOf T s₀ pre) →
          Rests cfg w (controlLoopTick T t inp bus s).2) := by
  have hconf : s.core.Configured cfg.withNaN := by
    rw [← hs, hs₀]
    exact final_configured cfg.withNaN T () imu imuOk t₀ pre
  have htracks := tracks_after (T := T) imu imuOk t₀ hcfg hs₀ pre w
  rw [hs] at htracks
  exact htracks.out_iff hcfg hconf
    (usable_of_finite hfin cfg.linoBase t inp bus)

/-- In a run every tick with a finite command of its own gets finite
outputs exactly when no wheel poisoned before it has still to rest. -/
theorem outputs_finite_iff (hcfg : cfg.Sane) (T : Trig QNaN)
    (imu : I.State) (imuOk : Bool) (t₀ : Nat)
    (calls : List (Call measured I)) :
    OutputsFinite cfg T (controlLoopInit cfg.withNaN () imu imuOk t₀) calls
      ↔ PoisonedRest cfg T (controlLoopInit cfg.withNaN () imu imuOk t₀)
        calls := by
  constructor
  · intro h pre t inp bus post hcalls s hfin w
    have hout := h pre t inp bus post hcalls hfin w
    exact (tick_outputs_iff imu imuOk t₀ hcfg rfl pre rfl hfin t inp bus
      w).mp hout
  · intro h pre t inp bus post hcalls s hfin w
    have hrest := h pre t inp bus post hcalls hfin w
    exact (tick_outputs_iff imu imuOk t₀ hcfg rfl pre rfl hfin t inp bus
      w).mpr hrest

end Runs

-- ===================================================== one bad command

/-- A command with a NaN in x, and a tick; the same for a command to stand
still, and for one of 0.2 m/s. No wheel turns. -/
def badThenStill : List (Call measured (ImuDriver.absent QNaN)) :=
  [.setCmd 0 ⟨nan, num 0, num 0⟩, .tick 20 (fun _ => 0) (),
    .setCmd 30 ⟨num 0, num 0, num 0⟩, .tick 40 (fun _ => 0) (),
    .setCmd 50 ⟨num (1 / 5), num 0, num 0⟩, .tick 60 (fun _ => 0) ()]

/-- The tick in between puts every wheel at rest, and from there on the
outputs are numbers. -/
theorem outputs_finite_iff_badThenStill :
    let T : Trig QNaN := ⟨fun _ => num 1, fun _ => num 0⟩
    let s₀ : ControlLoop QNaN measured (ImuDriver.absent QNaN) :=
      controlLoopInit (BoardConfig.withNaN f446re) () () false 0
    (ticksOf T s₀ badThenStill).map (fun k =>
        (decide (k.step.out 0 = some nan), k.step.pwm 0))
      = [(true, some 0), (false, some 0), (false, some 47)]
      ∧ OutputsFinite f446re T s₀ badThenStill := by
  intro T s₀
  refine ⟨by decide +kernel, (outputs_finite_iff f446re_sane _ _ _ _ _).mpr
    ?_⟩
  -- the second tick
  let s₂ := (loopMachine QNaN measured _ T).final s₀ (badThenStill.take 3)
  let k₂ := (controlLoopTick T 40 (fun _ => 0) () s₂).2
  have hfinite : s₂.cmd.Finite := ⟨trivial, trivial, trivial⟩
  have hstill : ∀ w, Rests f446re w k₂ := fun w => by
    fin_cases w <;> exact ⟨by decide +kernel, rfl⟩
  intro pre t inp bus post heq s hfin w hp
  rcases pre with
    _ | ⟨c₁, _ | ⟨c₂, _ | ⟨c₃, _ | ⟨c₄, _ | ⟨c₅, _ | ⟨c₆, pre⟩⟩⟩⟩⟩⟩
  · cases heq
  · cases heq
    exact absurd hfin.1 not_finite_nan
  · cases heq
  · cases heq
    exact hstill w
  · cases heq
  · cases heq
    have hticks : ticksOf T s₀ (badThenStill.take 5)
        = ticksOf T s₀ (badThenStill.take 3) ++ [k₂] := rfl
    rcases (Poisoned.concat_iff f446re w _ k₂).mp (hticks ▸ hp)
      with hbad | ⟨-, hno⟩
    · exact absurd (usable_of_finite hfinite _ _ _ _) hbad
    · exact absurd (hstill w) hno
  · exact absurd (congrArg List.length heq) (by simp [badThenStill])

/-- A command with a NaN in x, a tick, a command of 0.2 m/s, a tick; no
wheel turns. -/
def badThenGood : List (Call measured (ImuDriver.absent QNaN)) :=
  [.setCmd 0 ⟨nan, num 0, num 0⟩, .tick 20 (fun _ => 0) (),
    .setCmd 30 ⟨num (1 / 5), num 0, num 0⟩, .tick 40 (fun _ => 0) ()]

/-- At its second tick, whose own command is finite, the controller of
wheel 1 returns a NaN. -/
theorem nan_outlives_command :
    ¬ OutputsFinite f446re ⟨fun _ => num 1, fun _ => num 0⟩
      (controlLoopInit (BoardConfig.withNaN f446re) () () false 0)
      badThenGood := by
  intro h
  obtain ⟨q, hout, -⟩ := h
    [.setCmd 0 ⟨nan, num 0, num 0⟩, .tick 20 (fun _ => 0) (),
      .setCmd 30 ⟨num (1 / 5), num 0, num 0⟩] 40 (fun _ => 0) () [] rfl
    ⟨trivial, trivial, trivial⟩ 0
  have hnan : (controlLoopTick ⟨fun _ => num 1, fun _ => num 0⟩ 40
      (fun _ => 0) () ((loopMachine QNaN measured (ImuDriver.absent QNaN)
        ⟨fun _ => num 1, fun _ => num 0⟩).final
          (controlLoopInit (BoardConfig.withNaN f446re) () () false 0)
          [.setCmd 0 ⟨nan, num 0, num 0⟩, .tick 20 (fun _ => 0) (),
            .setCmd 30 ⟨num (1 / 5), num 0, num 0⟩])).2.step.out 0
      = some nan := by
    decide +kernel
  rw [hnan] at hout
  cases hout

end LinoStm32
