/-
The HAL-free control step of `Inc/control_core.h`: command to wheel
targets, one PID per wheel, the PWM handed to each motor, and the
odometry update from the measured wheel speeds.

`step` is `drive` (targets and controllers) followed by the odometry
half. The halves share no data: what the controllers do cannot reach the
pose, and the pose cannot reach a controller.
-/
import LinoStm32.Pid
import LinoStm32.Odom
import LinoStm32.Config
import LinoStm32.Lib.Mealy

namespace LinoStm32

/-- A body velocity command: the `float x, y, wz` that travel together. -/
@[ext] structure Cmd (F : Type) where
  x : F
  y : F
  wz : F
  deriving DecidableEq

/-- The command `(0, 0, 0)`. -/
def Cmd.zero {F : Type} [CFloat F] : Cmd F :=
  ⟨((0 : Int) : F), ((0 : Int) : F), ((0 : Int) : F)⟩

/-- `class ControlCore`, with the objects its references name. `wheel i`
is the null test of the step: both the motor and the controller of wheel
`i` exist. -/
structure ControlCore (F : Type) where
  kin : Kinematics F
  odom : OdomIntegrator F
  pid : Fin 4 → PID F
  wheel : Fin 4 → Bool

/-- What one step hands out: the body velocity it returns, what
`PID::compute` returned per wheel, and the PWM passed to `spin` per
wheel; `none` for a wheel that is skipped. -/
structure StepOut (F : Type) where
  vel : Velocities F
  out : Fin 4 → Option F
  pwm : Fin 4 → Option Int

namespace ControlCore

variable {F : Type} [CFloat F]

/-- The wheel targets of a command. -/
def target (c : ControlCore F) (cmd : Cmd F) : Fin 4 → F :=
  (c.kin.getRPM cmd.x cmd.y cmd.wz).target

/-- What `PID::compute` returns for each wheel that exists. -/
def output (c : ControlCore F) (cmd : Cmd F) (measuredRpm : Fin 4 → F)
    (i : Fin 4) : Option F :=
  if c.wheel i then
    some ((c.pid i).compute (c.target cmd i) (measuredRpm i)).1
  else none

/-- The PWM passed to `spin`: `(int)` of what `compute` returned. -/
def pwm (c : ControlCore F) (cmd : Cmd F) (measuredRpm : Fin 4 → F)
    (i : Fin 4) : Option Int :=
  (c.output cmd measuredRpm i).map CFloat.toInt

/-- The controllers after the wheel loop. -/
def drive (c : ControlCore F) (cmd : Cmd F) (measuredRpm : Fin 4 → F) :
    ControlCore F :=
  { c with
    pid := fun i =>
      if c.wheel i then (c.pid i).sample (c.target cmd i) (measuredRpm i)
      else c.pid i }

/-- The body velocity of the measured wheel speeds. -/
def velocities (c : ControlCore F) (measuredRpm : Fin 4 → F) :
    Velocities F :=
  c.kin.getVelocities (measuredRpm 0) (measuredRpm 1) (measuredRpm 2)
    (measuredRpm 3)

/-- `ControlCore::step`. -/
def step (T : Trig F) (c : ControlCore F) (cmd : Cmd F)
    (measuredRpm : Fin 4 → F) (dt : F) : ControlCore F × StepOut F :=
  let c' := c.drive cmd measuredRpm
  let v := c'.velocities measuredRpm
  ({ c' with odom := c'.odom.update T dt v },
    { vel := v
      out := c.output cmd measuredRpm
      pwm := c.pwm cmd measuredRpm })

/-- The inputs of one step. -/
structure StepIn (F : Type) where
  cmd : Cmd F
  rpm : Fin 4 → F
  dt : F

/-- The control step as a machine: one `StepIn` in, one `StepOut` out. -/
def mealy (T : Trig F) :
    Lib.Mealy (ControlCore F) (StepIn F) (StepOut F) where
  step c inp := c.step T inp.cmd inp.rpm inp.dt

/-- A core before its first step: the pose at 0, every controller fresh
with the same limits `-max` and `max` and the same gains. -/
def start (kin : Kinematics F) (wheel : Fin 4 → Bool)
    (max kp ki kd : F) : ControlCore F where
  kin := kin
  odom := OdomIntegrator.zero
  pid := fun _ => PID.new (-max) max kp ki kd
  wheel := wheel

/-- The core `control_loop_init` constructs for a board: four wheels,
every controller with the board's limits and gains, the pose at 0. -/
def fresh (cfg : BoardConfig F) : ControlCore F where
  kin := cfg.kinematics
  odom := OdomIntegrator.zero
  pid := fun _ =>
    PID.new ((cfg.pwmMin : Int) : F) ((cfg.pwmMax : Int) : F)
      cfg.kP cfg.kI cfg.kD
  wheel := fun _ => true

-- ==================================================== what a step keeps

section Step

variable (T : Trig F) (c : ControlCore F) (cmd : Cmd F) (r : Fin 4 → F)
  (dt : F)

@[simp] theorem step_pid :
    (c.step T cmd r dt).1.pid = (c.drive cmd r).pid := rfl

@[simp] theorem step_odom :
    (c.step T cmd r dt).1.odom = c.odom.update T dt (c.velocities r) := rfl

@[simp] theorem step_pwm : (c.step T cmd r dt).2.pwm = c.pwm cmd r := rfl

end Step

-- ================================================ what every step keeps

/-- A core still has the kinematics, limits and gains of its board, and
all four wheels: what `control_loop_init` sets up and nothing ever
changes. -/
structure Configured (cfg : BoardConfig F) (c : ControlCore F) : Prop where
  kin : c.kin = cfg.kinematics
  wheel : ∀ w, c.wheel w = true
  minVal : ∀ w, (c.pid w).minVal = ((cfg.pwmMin : Int) : F)
  maxVal : ∀ w, (c.pid w).maxVal = ((cfg.pwmMax : Int) : F)
  kp : ∀ w, (c.pid w).kp = cfg.kP
  ki : ∀ w, (c.pid w).ki = cfg.kI
  kd : ∀ w, (c.pid w).kd = cfg.kD

theorem fresh_configured (cfg : BoardConfig F) : (fresh cfg).Configured cfg :=
  ⟨rfl, fun _ => rfl, fun _ => rfl, fun _ => rfl, fun _ => rfl,
    fun _ => rfl, fun _ => rfl⟩

/-- The controller of an existing wheel after a step. -/
theorem drive_pid {c : ControlCore F} {w : Fin 4} (hw : c.wheel w = true)
    (cmd : Cmd F) (r : Fin 4 → F) :
    (c.drive cmd r).pid w = (c.pid w).sample (c.target cmd w) (r w) :=
  if_pos hw

/-- What an existing wheel's controller returns in a step. -/
theorem output_eq {c : ControlCore F} {w : Fin 4} (hw : c.wheel w = true)
    (cmd : Cmd F) (r : Fin 4 → F) :
    c.output cmd r w
      = some ((c.pid w).compute (c.target cmd w) (r w)).1 :=
  if_pos hw

theorem Configured.step {cfg : BoardConfig F} {c : ControlCore F}
    (h : c.Configured cfg) (T : Trig F) (cmd : Cmd F) (r : Fin 4 → F)
    (dt : F) : (c.step T cmd r dt).1.Configured cfg := by
  have hpid : ∀ w, (c.step T cmd r dt).1.pid w
      = (c.pid w).sample (c.target cmd w) (r w) :=
    fun w => drive_pid (h.wheel w) cmd r
  refine ⟨h.kin, h.wheel, ?_, ?_, ?_, ?_, ?_⟩ <;> intro w <;> rw [hpid]
  · exact h.minVal w
  · exact h.maxVal w
  · exact h.kp w
  · exact h.ki w
  · exact h.kd w

end ControlCore

end LinoStm32
