/-
The two FreeRTOS tasks of `Src/main.c` over the shared state of
`Src/control_loop.cpp`, interleaved step by step.

`control_task` runs `control_loop_init` and then `control_loop_tick`
forever; `uros_task` calls `control_set_cmd`, `control_get_odom` and
`control_get_imu` whenever it likes. A critical section is one step.
Every other access to shared state is a step of its own, and so is
every clock read. Between any two steps the other task may run and the
millisecond tick may advance; nothing here schedules, so what holds in
every reachable state holds under every interleaving.

# The chain of writes at the end of `control_loop_init`

`prev_cmd_ms = prev_odom_ms = lino_millis()` stores into `prev_odom_ms`
first, and `cmd_x = cmd_y = cmd_wz = 0` clears `cmd_wz`, `cmd_y`,
`cmd_x` in that order, each with the constant 0. None of the five writes
is in a critical section, and `uros_task` may already be running.

# What is recorded

The code keeps 32-bit residues; `time` is the true millisecond. Next to
what the code stores, a state keeps what the theorems talk about and no
step reads: `cmdAt`, the true time of the clock read that `prev_cmd_ms`
came from, and the logs of what each task did, oldest first.
-/
import LinoStm32.ControlLoop
import LinoStm32.Lib.Machine

namespace LinoStm32

-- ============================================================== records

/-- One tick's command path: the true times of its clock read and of its
snapshot, the true time the command's own stamp was read, the snapshot,
and what the tick passed to `ControlCore::step`. -/
structure TickRec (F : Type) where
  readAt : Nat
  snapAt : Nat
  cmdAt : Nat
  snapshot : Cmd F
  cmd : Cmd F
  deriving DecidableEq

/-- One call of `ControlCore::step`: the core it found and the arguments
it was given. -/
structure StepRec (F : Type) where
  core : ControlCore F
  cmd : Cmd F
  rpm : Fin 4 → F
  dt : F

/-- One call of `IMU::getData`: how many steps had completed, so which
tick it belongs to, and what it returned. -/
structure ImuRec (F : Type) where
  tick : Nat
  msg : ImuMsg F

namespace StepRec

variable {F : Type} [CFloat F]

/-- What the call returned. -/
def vel (r : StepRec F) : Velocities F := r.core.velocities r.rpm

/-- The core the call leaves and what it hands out. -/
def result (T : Trig F) (r : StepRec F) : ControlCore F × StepOut F :=
  r.core.step T r.cmd r.rpm r.dt

/-- The pose and the body velocity that one completed call produced. -/
def tuple (T : Trig F) (r : StepRec F) : Odom6 F :=
  Odom6.of (r.result T).1.odom (r.result T).2.vel

/-- The increments `OdomIntegrator::update` holds in locals during the
call. -/
def delta (T : Trig F) (r : StepRec F) : OdomIntegrator.Delta F :=
  r.core.odom.delta T r.dt r.vel

end StepRec

-- ======================================================= where each task is

/-- The next step of `control_task`, with the locals it holds. -/
inductive CtrlPc (F : Type)
  /-- everything of `control_loop_init` up to its clock read -/
  | boot
  /-- `prev_odom_ms = ` -/
  | initOdom (now : Nat)
  /-- `prev_cmd_ms = ` -/
  | initCmd (now : Nat)
  /-- `cmd_wz = 0` -/
  | clearWz
  /-- `cmd_y = 0` -/
  | clearY
  /-- `cmd_x = 0` -/
  | clearX
  /-- `control_loop_tick`: its clock read -/
  | ready
  /-- the snapshot of the command, and the deadman on it -/
  | snap (now : Nat)
  /-- wheel speeds, interval, and `step` up to the integrator's writes -/
  | measure (now : Nat) (k : TickRec F)
  /-- `x += delta_x` -/
  | addX (r : StepRec F)
  /-- `y += delta_y` -/
  | addY (r : StepRec F)
  /-- `heading += delta_heading`, the last thing `step` does -/
  | addHeading (r : StepRec F)
  /-- the publish of pose and body velocity -/
  | publish (r : StepRec F)
  /-- `getData` and, with the fake IMU, the replaced z rate -/
  | imuRead
  /-- the publish of the sample -/
  | imuPublish (im : ImuMsg F)

/-- Where `uros_task` is: outside the control loop's functions, or in
`control_set_cmd` between its clock read and its critical section. -/
inductive UrosPc (F : Type)
  | idle
  | setCmd (now : Nat) (c : Cmd F)

-- ============================================================ the system

/-- Both tasks, the shared state, the millisecond tick, and the logs. -/
structure System (F : Type) (E : RpmSource F) (I : ImuDriver F) where
  time : Nat
  loop : ControlLoop F E I
  ctrl : CtrlPc F
  uros : UrosPc F
  cmdAt : Nat
  /-- every triple passed to `control_set_cmd` -/
  given : List (Cmd F)
  /-- every tick that has called `step` -/
  ticks : List (TickRec F)
  /-- every completed call of `step` -/
  steps : List (StepRec F)
  /-- every call of `getData` -/
  datas : List (ImuRec F)
  /-- every result of `control_get_odom` -/
  odomReads : List (Odom6 F)
  /-- every result of `control_get_imu` -/
  imuReads : List (ImuMsg F)

/-- A step of the system: the tick interrupt, the next step of
`control_task` with what it may read from hardware, or one of
`uros_task`'s. -/
inductive Act {F : Type} (E : RpmSource F) (I : ImuDriver F)
  | clock
  | ctrl (inp : E.Input) (bus : I.Bus)
  | setCmd (c : Cmd F)
  | setCmdWrite
  | getOdom
  | getImu

namespace System

variable {F : Type} {E : RpmSource F} {I : ImuDriver F}

/-- One of the writes to the shared command. -/
def putCmd (s : System F E I) (c : Cmd F) : System F E I :=
  { s with loop := { s.loop with cmd := c } }

/-- A write to the live pose. -/
def putOdom (s : System F E I) (o : OdomIntegrator F) : System F E I :=
  { s with loop := { s.loop with core := { s.loop.core with odom := o } } }

/-- The next step of `control_task`. -/
def ctrlStep [CFloat F] (T : Trig F) (inp : E.Input) (bus : I.Bus)
    (s : System F E I) : System F E I :=
  match s.ctrl with
  | .boot => { s with ctrl := .initOdom s.time }
  | .initOdom now =>
      { s with
        loop := { s.loop with prevOdomMs := linoMillis now }
        ctrl := .initCmd now }
  | .initCmd now =>
      { s with
        loop := { s.loop with prevCmdMs := linoMillis now }
        cmdAt := now
        ctrl := .clearWz }
  | .clearWz =>
      { s.putCmd { s.loop.cmd with wz := ((0 : Int) : F) } with
        ctrl := .clearY }
  | .clearY =>
      { s.putCmd { s.loop.cmd with y := ((0 : Int) : F) } with
        ctrl := .clearX }
  | .clearX =>
      { s.putCmd { s.loop.cmd with x := ((0 : Int) : F) } with
        ctrl := .ready }
  | .ready => { s with ctrl := .snap s.time }
  | .snap now =>
      { s with
        ctrl := .measure now
          { readAt := now
            snapAt := s.time
            cmdAt := s.cmdAt
            snapshot := s.loop.cmd
            cmd := deadman (linoMillis now) s.loop.prevCmdMs s.loop.cmd } }
  | .measure now k =>
      let m := E.getRPM s.loop.enc inp
      let r : StepRec F :=
        { core := s.loop.core
          cmd := k.cmd
          rpm := m.1
          dt := odomDt (linoMillis now) s.loop.prevOdomMs }
      { s with
        loop := { s.loop with
          enc := m.2
          prevOdomMs := linoMillis now
          core := s.loop.core.drive k.cmd m.1 }
        ticks := s.ticks ++ [k]
        ctrl := .addX r }
  | .addX r =>
      { s.putOdom (s.loop.core.odom.addX (r.delta T)) with
        ctrl := .addY r }
  | .addY r =>
      { s.putOdom (s.loop.core.odom.addY (r.delta T)) with
        ctrl := .addHeading r }
  | .addHeading r =>
      { s.putOdom (s.loop.core.odom.addHeading (r.delta T)) with
        steps := s.steps ++ [r]
        ctrl := .publish r }
  | .publish r =>
      { s with
        loop := publishOdom r.vel s.loop
        ctrl := if s.loop.imuOk then .imuRead else .ready }
  | .imuRead =>
      let g := I.getData s.loop.imu bus
      { s with
        loop := { s.loop with imu := g.2, imuReadOk := I.readOk g.2 }
        datas := s.datas ++ [⟨s.steps.length, g.1⟩]
        ctrl := .imuPublish (imuSample I s.loop.last.wz g.1) }
  | .imuPublish im =>
      { s with loop := { s.loop with imuSnap := im }, ctrl := .ready }

/-- The clock read of `control_set_cmd`. -/
def setCmdCall (c : Cmd F) (s : System F E I) : Option (System F E I) :=
  match s.uros with
  | .idle => some { s with
      uros := .setCmd s.time c
      given := s.given ++ [c] }
  | .setCmd _ _ => none

/-- The critical section of `control_set_cmd`. -/
def setCmdStore (s : System F E I) : Option (System F E I) :=
  match s.uros with
  | .idle => none
  | .setCmd now c => some { s with
      loop := { s.loop with cmd := c, prevCmdMs := linoMillis now }
      cmdAt := now
      uros := .idle }

/-- `control_get_odom`, when `uros_task` is free to call it. -/
def readOdom (s : System F E I) : Option (System F E I) :=
  match s.uros with
  | .idle => some { s with
      odomReads := s.odomReads ++ [controlGetOdom s.loop] }
  | .setCmd _ _ => none

/-- `control_get_imu`, when `uros_task` is free to call it. -/
def readImu (s : System F E I) : Option (System F E I) :=
  match s.uros with
  | .idle => some { s with
      imuReads := s.imuReads ++ [controlGetImu s.loop] }
  | .setCmd _ _ => none

variable [CFloat F]

/-- Take a step, when it is enabled. -/
def apply (T : Trig F) : Act E I → System F E I → Option (System F E I)
  | .clock, s => some { s with time := s.time + 1 }
  | .ctrl inp bus, s => some (s.ctrlStep T inp bus)
  | .setCmd c, s => s.setCmdCall c
  | .setCmdWrite, s => s.setCmdStore
  | .getOdom, s => s.readOdom
  | .getImu, s => s.readImu

/-- When the scheduler starts: the static initialisers, the objects
`control_loop_init` is about to construct, and whatever its
`imu->init()` will report. -/
def start (cfg : BoardConfig F) (enc : E.State) (imu : I.State)
    (imuOk : Bool) (t : Nat) : System F E I where
  time := t
  loop :=
    { (controlLoopInit cfg enc imu imuOk 0 : ControlLoop F E I) with
      prevCmdMs := 0
      prevOdomMs := 0 }
  ctrl := .boot
  uros := .idle
  cmdAt := 0
  given := []
  ticks := []
  steps := []
  datas := []
  odomReads := []
  imuReads := []

end System

/-- The two tasks of a board from the start of the scheduler on. -/
def tasks {F : Type} [CFloat F] (E : RpmSource F) (I : ImuDriver F)
    (T : Trig F) (cfg : BoardConfig F) :
    Lib.Machine (System F E I) (Act E I) where
  start s := ∃ enc imu imuOk t, s = System.start cfg enc imu imuOk t
  apply := System.apply T

namespace System

variable {F : Type} {E : RpmSource F} {I : ImuDriver F} [CFloat F]

-- ================================================== what a step can do

/-- `apply` as a relation: one case per kind of step, guards included. -/
inductive Moves (T : Trig F) (s : System F E I) :
    Act E I → System F E I → Prop
  | clock : Moves T s .clock { s with time := s.time + 1 }
  | ctrl (inp : E.Input) (bus : I.Bus) :
      Moves T s (.ctrl inp bus) (s.ctrlStep T inp bus)
  | setCmd (c : Cmd F) : s.uros = .idle →
      Moves T s (.setCmd c)
        { s with uros := .setCmd s.time c, given := s.given ++ [c] }
  | setCmdWrite (now : Nat) (c : Cmd F) : s.uros = .setCmd now c →
      Moves T s .setCmdWrite
        { s with
          loop := { s.loop with cmd := c, prevCmdMs := linoMillis now }
          cmdAt := now
          uros := .idle }
  | getOdom : s.uros = .idle →
      Moves T s .getOdom
        { s with odomReads := s.odomReads ++ [s.loop.last] }
  | getImu : s.uros = .idle →
      Moves T s .getImu
        { s with imuReads := s.imuReads ++ [s.loop.imuSnap] }

/-- Every step taken is one of these. -/
theorem moves_of_apply {T : Trig F} {a : Act E I} {s s' : System F E I}
    (h : apply T a s = some s') : Moves T s a s' := by
  cases a with
  | clock =>
      cases h
      exact .clock
  | ctrl inp bus =>
      cases h
      exact .ctrl inp bus
  | setCmd c =>
      simp only [apply, setCmdCall] at h
      split at h
      · next hu => cases h; exact .setCmd c hu
      · cases h
  | setCmdWrite =>
      simp only [apply, setCmdStore] at h
      split at h
      · cases h
      · next now c hu => cases h; exact .setCmdWrite now c hu
  | getOdom =>
      simp only [apply, readOdom] at h
      split at h
      · next hu => cases h; exact .getOdom hu
      · cases h
  | getImu =>
      simp only [apply, readImu] at h
      split at h
      · next hu => cases h; exact .getImu hu
      · cases h

section CtrlStep

variable (T : Trig F) (inp : E.Input) (bus : I.Bus) (s : System F E I)

@[simp] theorem ctrlStep_uros : (s.ctrlStep T inp bus).uros = s.uros := by
  unfold ctrlStep; split <;> rfl

@[simp] theorem ctrlStep_time : (s.ctrlStep T inp bus).time = s.time := by
  unfold ctrlStep; split <;> rfl

@[simp] theorem ctrlStep_odomReads :
    (s.ctrlStep T inp bus).odomReads = s.odomReads := by
  unfold ctrlStep; split <;> rfl

end CtrlStep

/-- The true time never goes back. -/
theorem time_le_of_apply {T : Trig F} {a : Act E I} {s s' : System F E I}
    (h : apply T a s = some s') : s.time ≤ s'.time := by
  cases moves_of_apply h with
  | clock => exact Nat.le_succ _
  | ctrl inp bus => exact (ctrlStep_time T inp bus s).ge
  | _ => exact le_rfl

/-- Only `control_get_odom` adds to what it returned. -/
theorem odomReads_of_apply {T : Trig F} {a : Act E I} {s s' : System F E I}
    (h : apply T a s = some s') (ha : a ≠ .getOdom) :
    s'.odomReads = s.odomReads := by
  cases moves_of_apply h with
  | ctrl inp bus => exact ctrlStep_odomReads T inp bus s
  | getOdom _ => exact absurd rfl ha
  | _ => rfl

-- ====================================== functions, run without a break

section Uninterrupted

variable (T : Trig F) (cfg : BoardConfig F) (inp : E.Input) (bus : I.Bus)

/-- From the start of the scheduler, `control_loop_init` run without a
break leaves `controlLoopInit`. -/
theorem run_init (enc : E.State) (imu : I.State) (imuOk : Bool) (t : Nat) :
    ∃ s', (tasks E I T cfg).run (List.replicate 6 (.ctrl inp bus))
        (System.start cfg enc imu imuOk t) = some s'
      ∧ s'.ctrl = .ready
      ∧ s'.loop = controlLoopInit cfg enc imu imuOk t :=
  ⟨_, rfl, rfl, rfl⟩

/-- A tick run without a break is `controlLoopTick`. -/
theorem run_tick {s : System F E I} (h : s.ctrl = .ready) :
    ∃ s', (tasks E I T cfg).run
        (List.replicate (if s.loop.imuOk then 9 else 7) (.ctrl inp bus)) s
        = some s'
      ∧ s'.ctrl = .ready
      ∧ s'.loop = (controlLoopTick T s.time inp bus s.loop).1 := by
  obtain ⟨time, ⟨cmd, cmdMs, odomMs, last, enc, core, imu, ok, readOk, snap⟩,
    ctrl, uros, cmdAt, given, ticks, steps, datas, ods, ims⟩ := s
  change ctrl = .ready at h
  subst h
  cases ok with
  | false => exact ⟨_, rfl, rfl, rfl⟩
  | true => exact ⟨_, rfl, rfl, rfl⟩

/-- A call of `control_set_cmd` run without a break is
`controlSetCmd`. -/
theorem run_setCmd (c : Cmd F) {s : System F E I} (h : s.uros = .idle) :
    ∃ s', (tasks E I T cfg).run [.setCmd c, .setCmdWrite] s = some s'
      ∧ s'.uros = .idle ∧ s'.loop = controlSetCmd s.time c s.loop := by
  obtain ⟨time, loop, ctrl, uros, cmdAt, given, ticks, steps, datas, ods,
    ims⟩ := s
  change uros = .idle at h
  subst h
  exact ⟨_, rfl, rfl, rfl⟩

end Uninterrupted

end System

-- ======================================= the configured board, at rest

/-- The configured board at the start of its scheduler. -/
def f446reStart : System ℚ (encoders ℚ) (ImuDriver.absent ℚ) :=
  System.start f446re (f446re (F := ℚ)).encoders () false 0

/-- The two tasks of the configured board. -/
def f446reTasks :
    Lib.Machine (System ℚ (encoders ℚ) (ImuDriver.absent ℚ))
      (Act (encoders ℚ) (ImuDriver.absent ℚ)) :=
  tasks _ _ Trig.level f446re

theorem f446reTasks_start : f446reTasks.start f446reStart :=
  ⟨_, _, _, _, rfl⟩

/-- The next step of its `control_task`, with no wheel turning. -/
def ctrlAct : Act (encoders ℚ) (ImuDriver.absent ℚ) :=
  .ctrl (0, fun _ => 0) ()

end LinoStm32
