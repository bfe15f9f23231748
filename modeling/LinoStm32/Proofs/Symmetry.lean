/-
The two symmetries of the control core over whole runs: left-right
mirroring and reversal of motion.

Both are lockstep simulations. The state relation says how the second
core's controllers and pose follow from the first's; each stage of
`step` carries the relation through, and `Lib.Mealy.simulation` turns
the one-step fact into one about runs.

- Mirroring swaps wheels 1 with 2 and 3 with 4. It holds for any
  controllers, because every stage treats the two sides alike.
- Reversal negates. It needs what makes the clamps odd, limits that are
  symmetric around 0, and the pose half of it needs a base that cannot
  move sideways.

# Where the work is

The stages are short; the one that branches is the speed limiter of
`calculateRPM`. Its guards read magnitudes and compare components with
0, and both are blind to signs, so the same branch is taken in both runs
(`scale_flip`).
-/
import Mathlib.Analysis.SpecialFunctions.Trigonometric.Basic
import LinoStm32.ControlCore

namespace LinoStm32

variable {K : Type} [Field K] [LinearOrder K] [FloorRing K]

-- ================================================= the transformations

/-- Wheels 1 and 2 change places, and 3 and 4. -/
def mirrorWheel : Fin 4 → Fin 4 := ![1, 0, 3, 2]

/-- The mirrored command: sideways and turning change sign. -/
def Cmd.mirror (c : Cmd K) : Cmd K := ⟨c.x, -c.y, -c.wz⟩

/-- The reversed command. -/
def Cmd.reverse (c : Cmd K) : Cmd K := ⟨-c.x, -c.y, -c.wz⟩

/-- The mirrored pose. -/
def OdomIntegrator.mirror (o : OdomIntegrator K) : OdomIntegrator K :=
  ⟨o.x, -o.y, -o.heading⟩

/-- The pose of the reversed motion. -/
def OdomIntegrator.reverse (o : OdomIntegrator K) : OdomIntegrator K :=
  ⟨-o.x, o.y, -o.heading⟩

/-- The mirrored inputs of a step. -/
def ControlCore.StepIn.mirror (i : ControlCore.StepIn K) :
    ControlCore.StepIn K :=
  ⟨i.cmd.mirror, fun w => i.rpm (mirrorWheel w), i.dt⟩

/-- The reversed inputs of a step. -/
def ControlCore.StepIn.reverse (i : ControlCore.StepIn K) :
    ControlCore.StepIn K :=
  ⟨i.cmd.reverse, fun w => -i.rpm w, i.dt⟩

/-- A controller with every stored term negated. -/
def PID.negated (p : PID K) : PID K :=
  { p with
    integral := -p.integral
    derivative := -p.derivative
    prevError := -p.prevError }

-- ============================================================ the limiter

namespace Kinematics

variable (k : Kinematics K)

/-- A demand with the signs of its components changed: `sx` for x, `s`
for y and turning. -/
def Demand.flip (sx s : K) (d : Demand K) : Demand K :=
  ⟨sx * d.x, s * d.y, s * d.tan⟩

theorem demand_flip (sx s x y wz : K) :
    k.demand (sx * x) (s * y) (s * wz) = (k.demand x y wz).flip sx s := by
  simp only [demand, Demand.flip, Demand.mk.injEq]
  refine ⟨?_, ?_, ?_⟩ <;> ring

/-- The four clamped wheel speeds of a mirrored demand are the mirrored
wheel speeds. -/
theorem mix_mirror (d : Demand K) :
    (k.mix (d.flip 1 (-1))).target = (k.mix d).target ∘ mirrorWheel := by
  funext i
  fin_cases i <;>
    exact congrArg (fun v => constrain v (-k.maxRpm) k.maxRpm)
      (by simp only [Demand.flip]; ring)

/-- Mirrored wheel speeds measure the mirrored body velocity. -/
theorem getVelocities_mirror (r1 r2 r3 r4 : K) :
    k.getVelocities r2 r1 r4 r3
      = ⟨(k.getVelocities r1 r2 r3 r4).linearX,
          -(k.getVelocities r1 r2 r3 r4).linearY,
          -(k.getVelocities r1 r2 r3 r4).angularZ⟩ := by
  cases hb : k.basePlatform <;>
    · simp only [getVelocities, hb, Velocities.mk.injEq, Int.cast_zero]
      refine ⟨?_, ?_, ?_⟩ <;> ring

/-- Reversed wheel speeds measure the reversed body velocity. -/
theorem getVelocities_reverse (r1 r2 r3 r4 : K) :
    k.getVelocities (-r1) (-r2) (-r3) (-r4)
      = ⟨-(k.getVelocities r1 r2 r3 r4).linearX,
          -(k.getVelocities r1 r2 r3 r4).linearY,
          -(k.getVelocities r1 r2 r3 r4).angularZ⟩ := by
  cases hb : k.basePlatform <;>
    · simp only [getVelocities, hb, Velocities.mk.injEq, Int.cast_zero]
      refine ⟨?_, ?_, ?_⟩ <;> ring

/-- Off a mecanum base no lateral velocity is ever measured. -/
theorem getVelocities_linearY (hb : k.basePlatform ≠ .mecanum)
    (r1 r2 r3 r4 : K) : (k.getVelocities r1 r2 r3 r4).linearY = 0 := by
  cases hp : k.basePlatform with
  | mecanum => exact absurd hp hb
  | differentialDrive => simp [getVelocities, hp]
  | skidSteer => simp [getVelocities, hp]

variable [IsStrictOrderedRing K]

/-- The four clamped wheel speeds of a reversed demand are the reversed
wheel speeds. -/
theorem mix_reverse (hk : 0 ≤ k.maxRpm) (d : Demand K) :
    (k.mix (d.flip (-1) (-1))).target = fun w => -(k.mix d).target w := by
  funext i
  fin_cases i <;>
    exact (congrArg (fun v => constrain v (-k.maxRpm) k.maxRpm)
      (by simp only [Demand.flip]; ring)).trans (constrain_neg hk _)

private theorem fabs_sign {s : K} (hs : s = 1 ∨ s = -1) (x : K) :
    fabs (s * x) = fabs x := by
  rw [fabs_eq_abs, fabs_eq_abs]
  rcases hs with rfl | rfl
  · rw [one_mul]
  · rw [neg_one_mul, abs_neg]

private theorem feq_sign {s : K} (hs : s = 1 ∨ s = -1) (x : K) :
    CFloat.feq (s * x) ((0 : Int) : K) = CFloat.feq x ((0 : Int) : K) := by
  have hne : s ≠ 0 := by
    rcases hs with rfl | rfl
    · exact one_ne_zero
    · exact neg_ne_zero.mpr one_ne_zero
  simp only [feq_eq, Int.cast_zero, mul_eq_zero, hne, false_or]

/-- The scaling branches commute with sign changes: the guards are blind
to signs, so the same branch scales both demands by the same factor. -/
theorem scale_flip {sx s : K} (hsx : sx = 1 ∨ sx = -1)
    (hs : s = 1 ∨ s = -1) (y wz : K) (d : Demand K) :
    k.scale (s * y) (s * wz) (d.flip sx s)
      = (k.scale y wz d).flip sx s := by
  simp only [scale, Demand.flip, fabs_sign hsx, fabs_sign hs, feq_sign hs]
  split_ifs
  · simp only [mul_assoc]
  · simp only [mul_assoc]
  · rfl

-- ============================================== targets and velocities

/-- Sign changes pass through `getRPM` up to the mixing: on a base that
drops the lateral component, 0 is its own sign change. -/
theorem getRPM_flip {sx s : K} (hsx : sx = 1 ∨ sx = -1)
    (hs : s = 1 ∨ s = -1) (x y wz : K) :
    ∃ d : Demand K, k.getRPM x y wz = k.mix d
      ∧ k.getRPM (sx * x) (s * y) (s * wz) = k.mix (d.flip sx s) := by
  have hcalc : ∀ y : K,
      k.calculateRPM (sx * x) (s * y) (s * wz)
        = k.mix ((k.scale y wz (k.demand x y wz)).flip sx s) := by
    intro y
    rw [calculateRPM, demand_flip, scale_flip k hsx hs]
  have hzero : ((0 : Int) : K) = s * ((0 : Int) : K) := by
    rw [Int.cast_zero, mul_zero]
  cases hb : k.basePlatform with
  | mecanum =>
      refine ⟨_, by rw [getRPM, hb]; rfl, ?_⟩
      simp only [getRPM, hb]
      exact hcalc y
  | differentialDrive =>
      refine ⟨_, by rw [getRPM, hb]; rfl, ?_⟩
      simp only [getRPM, hb]
      rw [hzero]
      simpa using hcalc ((0 : Int) : K)
  | skidSteer =>
      refine ⟨_, by rw [getRPM, hb]; rfl, ?_⟩
      simp only [getRPM, hb]
      rw [hzero]
      simpa using hcalc ((0 : Int) : K)

/-- The targets of the mirrored command are the mirrored targets. -/
theorem target_mirror (c : Cmd K) :
    (k.getRPM c.mirror.x c.mirror.y c.mirror.wz).target
      = (k.getRPM c.x c.y c.wz).target ∘ mirrorWheel := by
  obtain ⟨d, h1, h2⟩ := k.getRPM_flip (Or.inl rfl) (Or.inr rfl) c.x c.y c.wz
  rw [one_mul, neg_one_mul, neg_one_mul] at h2
  rw [Cmd.mirror, h1, h2, mix_mirror]

/-- The targets of the reversed command are the reversed targets. -/
theorem target_reverse (hk : 0 ≤ k.maxRpm) (c : Cmd K) :
    (k.getRPM c.reverse.x c.reverse.y c.reverse.wz).target
      = fun w => -(k.getRPM c.x c.y c.wz).target w := by
  obtain ⟨d, h1, h2⟩ := k.getRPM_flip (Or.inr rfl) (Or.inr rfl) c.x c.y c.wz
  rw [neg_one_mul, neg_one_mul, neg_one_mul] at h2
  rw [Cmd.reverse, h1, h2, mix_reverse k hk]

end Kinematics

-- ========================================================== controllers

namespace PID

/-- A negated controller on a negated sample stays the negated
controller: the rest test does not see the sign. -/
theorem sample_negated (p : PID K) (setpoint measured : K) :
    p.negated.sample (-setpoint) (-measured)
      = (p.sample setpoint measured).negated := by
  have hrest : atRest (-setpoint) (-setpoint - -measured)
      = atRest setpoint (setpoint - measured) := by
    rw [Bool.eq_iff_iff, atRest_iff, atRest_iff, neg_eq_zero, neg_eq_zero]
  simp only [sample, negated, hrest, PID.mk.injEq, true_and]
  refine ⟨?_, ?_, ?_⟩
  · split_ifs
    · rw [Int.cast_zero, neg_zero]
    · ring
  · split_ifs
    · rw [Int.cast_zero, neg_zero]
    · ring
  · ring

/-- With limits symmetric around 0, a negated controller on a negated
sample returns the negated output. -/
theorem compute_negated [IsStrictOrderedRing K] (p : PID K)
    (hlim : p.minVal = -p.maxVal) (hmax : 0 ≤ p.maxVal)
    (setpoint measured : K) :
    (p.negated.compute (-setpoint) (-measured)).1
      = -(p.compute setpoint measured).1 := by
  simp only [compute, sample_negated]
  simp only [negated, sample_minVal, sample_maxVal, hlim]
  rw [← constrain_neg hmax]
  congr 1
  ring

end PID

-- ================================================================= pose

namespace OdomIntegrator

variable {T : Trig K}

/-- The mirrored velocity integrates to the mirrored pose. -/
theorem update_mirror (hcos : ∀ a, T.cos (-a) = T.cos a)
    (hsin : ∀ a, T.sin (-a) = -T.sin a) (o : OdomIntegrator K) (dt : K)
    (v : Velocities K) :
    o.mirror.update T dt ⟨v.linearX, -v.linearY, -v.angularZ⟩
      = (o.update T dt v).mirror := by
  simp only [update, addX, addY, addHeading, delta, mirror, hcos, hsin,
    OdomIntegrator.mk.injEq]
  refine ⟨?_, ?_, ?_⟩ <;> ring

/-- Without a lateral velocity, the reversed velocity integrates to the
reversed pose. -/
theorem update_reverse (hcos : ∀ a, T.cos (-a) = T.cos a)
    (hsin : ∀ a, T.sin (-a) = -T.sin a) (o : OdomIntegrator K) (dt : K)
    (v : Velocities K) (hy : v.linearY = 0) :
    o.reverse.update T dt ⟨-v.linearX, -v.linearY, -v.angularZ⟩
      = (o.update T dt v).reverse := by
  simp only [update, addX, addY, addHeading, delta, reverse, hcos, hsin, hy,
    OdomIntegrator.mk.injEq]
  refine ⟨?_, ?_, ?_⟩ <;> ring

end OdomIntegrator

-- ===================================================== the two relations

namespace ControlCore

variable {T : Trig K}

/-- `c'` is `c` seen in the mirror. -/
structure Mirrored (c c' : ControlCore K) : Prop where
  kin : c'.kin = c.kin
  wheel : ∀ w, c'.wheel w = c.wheel (mirrorWheel w)
  pid : ∀ w, c'.pid w = c.pid (mirrorWheel w)
  odom : c'.odom = c.odom.mirror

/-- `c'` is `c` run backward; the limits of the controllers are
symmetric around 0. -/
structure Reversed (c c' : ControlCore K) : Prop where
  kin : c'.kin = c.kin
  maxRpm : 0 ≤ c.kin.maxRpm
  wheel : c'.wheel = c.wheel
  pid : ∀ w, c'.pid w = (c.pid w).negated
  limit : ∀ w, (c.pid w).minVal = -(c.pid w).maxVal
  max : ∀ w, 0 ≤ (c.pid w).maxVal
  odom : c.kin.basePlatform ≠ .mecanum → c'.odom = c.odom.reverse

/-- A fresh core with a symmetric set of wheels is its own mirror
image. -/
theorem start_mirrored (kin : Kinematics K) {wheel : Fin 4 → Bool}
    (hwheel : ∀ w, wheel (mirrorWheel w) = wheel w) (max kp ki kd : K) :
    Mirrored (start kin wheel max kp ki kd)
      (start kin wheel max kp ki kd) := by
  refine ⟨rfl, fun w => (hwheel w).symm, fun _ => rfl, ?_⟩
  simp [start, OdomIntegrator.zero, OdomIntegrator.mirror]

/-- A fresh core is its own reversal. -/
theorem start_reversed {kin : Kinematics K} (hrpm : 0 ≤ kin.maxRpm)
    (wheel : Fin 4 → Bool) {max : K} (hmax : 0 ≤ max) (kp ki kd : K) :
    Reversed (start kin wheel max kp ki kd)
      (start kin wheel max kp ki kd) := by
  refine ⟨rfl, hrpm, rfl, ?_, fun _ => rfl, fun _ => hmax, ?_⟩
  · intro w
    simp [start, PID.new, PID.negated]
  · intro _
    simp [start, OdomIntegrator.zero, OdomIntegrator.reverse]

variable [IsStrictOrderedRing K]

private theorem target_mirrored {c c' : ControlCore K} (h : Mirrored c c')
    (cmd : Cmd K) (w : Fin 4) :
    c'.target cmd.mirror w = c.target cmd (mirrorWheel w) := by
  rw [target, target, h.kin]
  exact congrFun (c.kin.target_mirror cmd) w

/-- One step of the mirrored core on mirrored inputs: mirrored again,
and every wheel's PWM is its opposite's. -/
theorem step_mirrored (hcos : ∀ a, T.cos (-a) = T.cos a)
    (hsin : ∀ a, T.sin (-a) = -T.sin a) {c c' : ControlCore K}
    (h : Mirrored c c') (i : StepIn K) :
    Mirrored ((mealy T).step c i).1 ((mealy T).step c' i.mirror).1
      ∧ ((mealy T).step c' i.mirror).2.pwm
          = ((mealy T).step c i).2.pwm ∘ mirrorWheel := by
  have htgt := target_mirrored h i.cmd
  refine ⟨⟨h.kin, h.wheel, ?_, ?_⟩, ?_⟩
  · intro w
    simp only [mealy, step_pid, drive, StepIn.mirror, h.wheel, h.pid, htgt]
  · simp only [mealy, step_odom, velocities, StepIn.mirror, h.kin, h.odom]
    rw [← OdomIntegrator.update_mirror hcos hsin]
    congr 1
    exact c.kin.getVelocities_mirror (i.rpm 0) (i.rpm 1) (i.rpm 2) (i.rpm 3)
  · funext w
    simp only [mealy, step_pwm, pwm, output, StepIn.mirror, h.wheel, h.pid,
      htgt, Function.comp_apply]

/-- One step of the reversed core on reversed inputs: reversed again,
and every PWM negated. -/
theorem step_reversed (hcos : ∀ a, T.cos (-a) = T.cos a)
    (hsin : ∀ a, T.sin (-a) = -T.sin a) {c c' : ControlCore K}
    (h : Reversed c c') (i : StepIn K) :
    Reversed ((mealy T).step c i).1 ((mealy T).step c' i.reverse).1
      ∧ ((mealy T).step c' i.reverse).2.pwm
          = fun w => (((mealy T).step c i).2.pwm w).map (- ·) := by
  have htgt : ∀ w, c'.target i.cmd.reverse w = -c.target i.cmd w := by
    intro w
    rw [target, target, h.kin]
    exact congrFun (c.kin.target_reverse h.maxRpm i.cmd) w
  refine ⟨⟨h.kin, h.maxRpm, h.wheel, ?_, ?_, ?_, ?_⟩, ?_⟩
  · intro w
    simp only [mealy, step_pid, drive, StepIn.reverse, h.wheel, h.pid, htgt]
    split
    · exact (c.pid w).sample_negated _ _
    · rfl
  · intro w
    simp only [mealy, step_pid, drive]
    split
    · exact h.limit w
    · exact h.limit w
  · intro w
    simp only [mealy, step_pid, drive]
    split
    · exact h.max w
    · exact h.max w
  · intro hb
    have hy := c.kin.getVelocities_linearY hb
      (i.rpm 0) (i.rpm 1) (i.rpm 2) (i.rpm 3)
    simp only [mealy, step_odom, velocities, StepIn.reverse, h.kin, h.odom hb]
    rw [← OdomIntegrator.update_reverse hcos hsin _ _ _ hy]
    congr 1
    exact c.kin.getVelocities_reverse _ _ _ _
  · funext w
    simp only [mealy, step_pwm, pwm, output, StepIn.reverse, h.wheel, h.pid,
      htgt]
    split
    · rw [PID.compute_negated _ (h.limit w) (h.max w)]
      simp only [Option.map_some, toInt_eq, Lib.towardZero_neg]
    · rfl

-- ======================================================== whole runs

/-- Mirroring a run: on mirrored inputs the PWM sequences of the two
sides change places and the final pose is mirrored. -/
def MirrorSymmetric (T : Trig K) (c : ControlCore K)
    (ins : List (StepIn K)) : Prop :=
  ((mealy T).outputs c (ins.map StepIn.mirror)).map StepOut.pwm
      = ((mealy T).outputs c ins).map (fun o => o.pwm ∘ mirrorWheel)
    ∧ ((mealy T).final c (ins.map StepIn.mirror)).odom
      = ((mealy T).final c ins).odom.mirror

/-- Reversing a run: on negated inputs every PWM is negated, and on a
base that cannot move sideways the final pose is that of the reversed
motion. -/
def ReversalSymmetric (T : Trig K) (c : ControlCore K)
    (ins : List (StepIn K)) : Prop :=
  ((mealy T).outputs c (ins.map StepIn.reverse)).map StepOut.pwm
      = ((mealy T).outputs c ins).map
          (fun o w => (o.pwm w).map (- ·))
    ∧ (c.kin.basePlatform ≠ .mecanum →
        ((mealy T).final c (ins.map StepIn.reverse)).odom
          = ((mealy T).final c ins).odom.reverse)

private theorem map_eq_of_forall₂ {α β γ : Type*} {f : β → γ} {g : α → γ}
    {l : List α} {l' : List β}
    (h : List.Forall₂ (fun a b => f b = g a) l l') :
    l'.map f = l.map g := by
  induction h with
  | nil => rfl
  | cons hab _ ih => rw [List.map_cons, List.map_cons, hab, ih]

/-- Both symmetries of every run from a fresh core, for every base kind:
equal gains, limits `-max` and `max`, cosine even and sine odd. The two
sign conditions are the configured ones; a negative speed limit or a
negative `max` would turn the clamps inside out. -/
theorem runs_symmetric {T : Trig K} (hcos : ∀ a, T.cos (-a) = T.cos a)
    (hsin : ∀ a, T.sin (-a) = -T.sin a)
    (kin : Kinematics K) (hrpm : 0 ≤ kin.maxRpm)
    (wheel : Fin 4 → Bool) (hwheel : ∀ w, wheel (mirrorWheel w) = wheel w)
    (max kp ki kd : K) (hmax : 0 ≤ max) (ins : List (StepIn K)) :
    MirrorSymmetric T (start kin wheel max kp ki kd) ins
      ∧ ReversalSymmetric T (start kin wheel max kp ki kd) ins := by
  obtain ⟨hm, hmo⟩ := Lib.Mealy.simulation (M := mealy T) (N := mealy T)
    (R := Mirrored) (Q := fun o o' => o'.pwm = o.pwm ∘ mirrorWheel)
    (fun _ _ i h => step_mirrored hcos hsin h i)
    (start_mirrored kin hwheel max kp ki kd) ins
  obtain ⟨hr, hro⟩ := Lib.Mealy.simulation (M := mealy T) (N := mealy T)
    (R := Reversed) (Q := fun o o' => o'.pwm = fun w => (o.pwm w).map (- ·))
    (fun _ _ i h => step_reversed hcos hsin h i)
    (start_reversed hrpm wheel hmax kp ki kd) ins
  have hbase : ((mealy T).final (start kin wheel max kp ki kd) ins).kin
      = kin :=
    Lib.Mealy.final_invariant (P := fun c : ControlCore K => c.kin = kin)
      (fun _ _ h => h) rfl ins
  refine ⟨⟨map_eq_of_forall₂ hmo, hm.odom⟩, map_eq_of_forall₂ hro, ?_⟩
  intro hb
  exact hr.odom (by rw [hbase]; exact hb)

/-- A four-wheel base, no wheel faster than 100 rpm. -/
noncomputable def skidBase : Kinematics ℝ := ⟨.skidSteer, 100, 1, 1, 4⟩

/-- One second under a command, at these wheel speeds. -/
noncomputable def oneSecond (cmd : Cmd ℝ) (rpm : Fin 4 → Int) : StepIn ℝ :=
  ⟨cmd, fun w => (rpm w : ℝ), 1⟩

/-- From rest into a left turn, the wheels at unequal speeds. -/
noncomputable def intoLeftTurn : List (StepIn ℝ) :=
  [oneSecond ⟨1, 0, 0⟩ fun _ => 0, oneSecond ⟨1, 0, 1⟩ ![10, 13, 11, 12],
    oneSecond ⟨1, 1, 1⟩ ![8, 20, 9, 18]]

/-- The real cosine and sine. -/
theorem runs_symmetric_real :
    let T : Trig ℝ := ⟨Real.cos, Real.sin⟩
    let c := start skidBase (fun _ => true) 255 1 1 1
    0 < ((mealy T).final c intoLeftTurn).odom.heading
      ∧ MirrorSymmetric T c intoLeftTurn
      ∧ ReversalSymmetric T c intoLeftTurn := by
  refine ⟨?_, runs_symmetric Real.cos_neg Real.sin_neg _
    (by norm_num [skidBase]) _ (fun _ => rfl) 255 1 1 1 (by norm_num) _⟩
  show 0 < OdomIntegrator.zero.heading
    + (skidBase.getVelocities ((0 : Int) : ℝ) ((0 : Int) : ℝ)
      ((0 : Int) : ℝ) ((0 : Int) : ℝ)).angularZ * 1
    + (skidBase.getVelocities ((10 : Int) : ℝ) ((13 : Int) : ℝ)
      ((11 : Int) : ℝ) ((12 : Int) : ℝ)).angularZ * 1
    + (skidBase.getVelocities ((8 : Int) : ℝ) ((20 : Int) : ℝ)
      ((9 : Int) : ℝ) ((18 : Int) : ℝ)).angularZ * 1
  norm_num [Kinematics.getVelocities, skidBase, OdomIntegrator.zero]

end ControlCore

end LinoStm32
