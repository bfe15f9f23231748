/-
The control loop of `Src/control_loop.cpp`, call by call: the file-scope
state, `control_loop_init`, `control_set_cmd`, `control_loop_tick` and
the two readers, each as one uninterrupted function. The interleaving of
their individual steps is `Tasks.lean`.

# Time

`linoMillis t` is what the 1 ms tick shows at true millisecond `t`: its
residue modulo `2^32`. The code sees nothing else of `t`.

# The two front ends

What the tick reads from hardware comes through two interfaces, so that
every result states which one it needs:

- `RpmSource`: how `rpm[4]` is measured. `encoders` is the board's: four
  `Encoder` objects reading their counters at one microsecond stamp.
- `ImuDriver`: the `IMU` object behind `getData()` and `readOk()`, and
  whether it is the fake one.
-/
import LinoStm32.ControlCore
import LinoStm32.Encoder

namespace LinoStm32

-- ================================================================= time

/-- `lino_millis` at true millisecond `t`. -/
def linoMillis (t : Nat) : UInt32T := BitVec.ofNat 32 t

/-- `CMD_TIMEOUT_MS`. -/
def cmdTimeoutMs : UInt32T := 200

-- ======================================================= the front ends

/-- Where the four measured wheel speeds come from: an object state, and
what one reading of all four consumes. -/
structure RpmSource (F : Type) where
  State : Type
  Input : Type
  getRPM : State → Input → (Fin 4 → F) × State

/-- The board's wheel speeds: `enc[i]->getRPM(now_us)` for the four
encoders in order. A reading consumes one microsecond stamp and the four
counter registers. -/
abbrev encoders (F : Type) [CFloat F] : RpmSource F where
  State := Fin 4 → Encoder
  Input := UInt32T × (Fin 4 → UInt32T)
  getRPM enc inp :=
    (fun i => ((enc i).getRPM (inp.2 i) inp.1).1,
      fun i => ((enc i).getRPM (F := F) (inp.2 i) inp.1).2)

/-- A source that is told the four speeds. -/
def RpmSource.told (F : Type) : RpmSource F where
  State := Unit
  Input := Fin 4 → F
  getRPM _ rpm := (rpm, ())

/-- The four encoders `control_loop_init` constructs and initialises. -/
def BoardConfig.encoders {F : Type} (cfg : BoardConfig F) :
    Fin 4 → Encoder := fun i =>
  Encoder.new (cfg.motorEncoderA i) (cfg.countsPerRev i)
    (cfg.motorEncoderInv i) (cfg.encIs32 (cfg.motorEncoderA i))

/-- `geometry_msgs__msg__Vector3`. -/
@[ext] structure Vector3 (F : Type) where
  x : F
  y : F
  z : F

/-- `geometry_msgs__msg__Quaternion`. -/
@[ext] structure Quaternion (F : Type) where
  x : F
  y : F
  z : F
  w : F

/-- The numeric fields of `sensor_msgs__msg__Imu`. -/
@[ext] structure ImuMsg (F : Type) where
  orientation : Quaternion F
  orientationCovariance : Fin 9 → F
  angularVelocity : Vector3 F
  angularVelocityCovariance : Fin 9 → F
  linearAcceleration : Vector3 F
  linearAccelerationCovariance : Fin 9 → F

/-- The zero-initialised message. -/
def ImuMsg.zero {F : Type} [CFloat F] : ImuMsg F :=
  let z : F := ((0 : Int) : F)
  ⟨⟨z, z, z, z⟩, fun _ => z, ⟨z, z, z⟩, fun _ => z, ⟨z, z, z⟩, fun _ => z⟩

/-- The `IMU` object of the build: its state, what one `getData` reads
from the bus, and whether the build selected the fake one. -/
structure ImuDriver (F : Type) where
  State : Type
  Bus : Type
  getData : State → Bus → ImuMsg F × State
  readOk : State → Bool
  useFakeImu : Bool

/-- A build whose IMU never answers: the tick skips it. -/
def ImuDriver.absent (F : Type) [CFloat F] : ImuDriver F where
  State := Unit
  Bus := Unit
  getData _ _ := (ImuMsg.zero, ())
  readOk _ := false
  useFakeImu := false

/-- A build whose IMU always answers, with whatever its bus supplies. -/
def ImuDriver.answering (F : Type) (useFakeImu : Bool) : ImuDriver F where
  State := Unit
  Bus := ImuMsg F
  getData _ bus := (bus, ())
  readOk _ := true
  useFakeImu := useFakeImu

-- ============================================================ the state

/-- The 6-tuple of `control_get_odom`: pose and body velocity. -/
@[ext] structure Odom6 (F : Type) where
  x : F
  y : F
  heading : F
  vx : F
  vy : F
  wz : F

/-- `last_x` to `last_wz` before the first tick. -/
def Odom6.zero {F : Type} [CFloat F] : Odom6 F :=
  let z : F := ((0 : Int) : F)
  ⟨z, z, z, z, z, z⟩

/-- The tuple a pose and a body velocity make. -/
def Odom6.of {F : Type} (o : OdomIntegrator F) (v : Velocities F) :
    Odom6 F :=
  ⟨o.x, o.y, o.heading, v.linearX, v.linearY, v.angularZ⟩

/-- The file-scope variables of `control_loop.cpp`. -/
structure ControlLoop (F : Type) (E : RpmSource F) (I : ImuDriver F) where
  cmd : Cmd F
  prevCmdMs : UInt32T
  prevOdomMs : UInt32T
  last : Odom6 F
  enc : E.State
  core : ControlCore F
  imu : I.State
  imuOk : Bool
  imuReadOk : Bool
  imuSnap : ImuMsg F

variable {F : Type} {E : RpmSource F} {I : ImuDriver F}

-- ================================================ the two ends of a tick

/-- The first critical section of a tick's end: publish pose and body
velocity together. -/
def publishOdom (v : Velocities F) (s : ControlLoop F E I) :
    ControlLoop F E I :=
  { s with last := Odom6.of s.core.odom v }

/-- The sample a tick publishes: `getData`'s, with the z rate replaced
by `last_wz` when the IMU is the fake one. -/
def imuSample (I : ImuDriver F) (lastWz : F) (im : ImuMsg F) : ImuMsg F :=
  if I.useFakeImu then
    { im with angularVelocity := { im.angularVelocity with z := lastWz } }
  else im

/-- The gated IMU part of a tick: read, note the health flag, publish. -/
def imuTick (bus : I.Bus) (s : ControlLoop F E I) : ControlLoop F E I :=
  if s.imuOk then
    let r := I.getData s.imu bus
    { s with
      imu := r.2
      imuReadOk := I.readOk r.2
      imuSnap := imuSample I s.last.wz r.1 }
  else s

section ImuTick

variable (bus : I.Bus) (s : ControlLoop F E I)

@[simp] theorem imuTick_cmd : (imuTick bus s).cmd = s.cmd := by
  unfold imuTick; split <;> rfl

@[simp] theorem imuTick_prevCmdMs :
    (imuTick bus s).prevCmdMs = s.prevCmdMs := by
  unfold imuTick; split <;> rfl

@[simp] theorem imuTick_prevOdomMs :
    (imuTick bus s).prevOdomMs = s.prevOdomMs := by
  unfold imuTick; split <;> rfl

@[simp] theorem imuTick_core : (imuTick bus s).core = s.core := by
  unfold imuTick; split <;> rfl

@[simp] theorem imuTick_enc : (imuTick bus s).enc = s.enc := by
  unfold imuTick; split <;> rfl

end ImuTick

variable [CFloat F]

/-- The deadman: a command whose time stamp is `CMD_TIMEOUT_MS` or more
behind `now`, in 32-bit arithmetic, is replaced by `(0, 0, 0)`. -/
def deadman (now lastCmd : UInt32T) (c : Cmd F) : Cmd F :=
  if cmdTimeoutMs ≤ now - lastCmd then Cmd.zero else c

/-- `(float)(now - prev_odom_ms) / 1000.0f`. -/
def odomDt (now prevOdomMs : UInt32T) : F :=
  (((now - prevOdomMs).toNat : Int) : F) / ((1000 : Int) : F)

/-- What one tick did, for the record: the snapshot it took of the
command, the command it passed to `ControlCore::step` after the deadman,
the measured wheel speeds, the odometry interval, and what the step
handed out. -/
structure TickOut (F : Type) where
  snapshot : Cmd F
  cmd : Cmd F
  rpm : Fin 4 → F
  dt : F
  step : StepOut F

-- ======================================================== the functions

/-- The state `control_loop_init` leaves when nothing else runs: fresh
core, static initialisers, both times at the clock read `t`. -/
def controlLoopInit (cfg : BoardConfig F) (enc : E.State) (imu : I.State)
    (imuOk : Bool) (t : Nat) : ControlLoop F E I where
  cmd := Cmd.zero
  prevCmdMs := linoMillis t
  prevOdomMs := linoMillis t
  last := Odom6.zero
  enc := enc
  core := ControlCore.fresh cfg
  imu := imu
  imuOk := imuOk
  imuReadOk := false
  imuSnap := ImuMsg.zero

/-- `control_set_cmd` called at true millisecond `t`. -/
def controlSetCmd (t : Nat) (c : Cmd F) (s : ControlLoop F E I) :
    ControlLoop F E I :=
  { s with cmd := c, prevCmdMs := linoMillis t }

/-- `control_loop_tick` with its clock read at true millisecond `t`. -/
def controlLoopTick (T : Trig F) (t : Nat) (inp : E.Input) (bus : I.Bus)
    (s : ControlLoop F E I) : ControlLoop F E I × TickOut F :=
  let now := linoMillis t
  let cmd := deadman now s.prevCmdMs s.cmd
  let r := E.getRPM s.enc inp
  let dt := odomDt now s.prevOdomMs
  let st := s.core.step T cmd r.1 dt
  let s' := { s with enc := r.2, prevOdomMs := now, core := st.1 }
  (imuTick bus (publishOdom st.2.vel s'),
    { snapshot := s.cmd, cmd := cmd, rpm := r.1, dt := dt, step := st.2 })

/-- With the gate open, what a tick does to the IMU. What comes before that
part of it leaves the IMU alone. -/
theorem controlLoopTick_imu {s : ControlLoop F E I} (hok : s.imuOk = true)
    (T : Trig F) (t : Nat) (inp : E.Input) (bus : I.Bus) :
    let r := I.getData s.imu bus
    let s' := (controlLoopTick T t inp bus s).1
    s'.imuOk = true ∧ s'.imu = r.2 ∧ s'.imuReadOk = I.readOk r.2
      ∧ s'.imuSnap = imuSample I s'.last.wz r.1 := by
  intro r s'
  obtain ⟨s₁, hs', hok₁, himu₁⟩ : ∃ s₁ : ControlLoop F E I,
      s' = imuTick bus s₁ ∧ s₁.imuOk = true ∧ s₁.imu = s.imu :=
    ⟨_, rfl, hok, rfl⟩
  rw [hs']
  unfold imuTick
  rw [if_pos hok₁, himu₁]
  exact ⟨hok₁, rfl, rfl, rfl⟩

/-- `control_get_odom`. -/
def controlGetOdom (s : ControlLoop F E I) : Odom6 F := s.last

/-- `control_get_imu`. -/
def controlGetImu (s : ControlLoop F E I) : ImuMsg F := s.imuSnap

-- ================================================================= runs

/-- One call into the control loop, with the true millisecond of its
clock read. -/
inductive Call (E : RpmSource F) (I : ImuDriver F)
  | setCmd (t : Nat) (c : Cmd F)
  | tick (t : Nat) (inp : E.Input) (bus : I.Bus)

/-- Perform one call; a tick hands out its record. -/
def Call.exec (T : Trig F) (s : ControlLoop F E I) :
    Call E I → ControlLoop F E I × Option (TickOut F)
  | .setCmd t c => (controlSetCmd t c s, none)
  | .tick t inp bus =>
      let r := controlLoopTick T t inp bus s
      (r.1, some r.2)

/-- The control loop as a machine over calls. -/
def loopMachine (F : Type) [CFloat F] (E : RpmSource F) (I : ImuDriver F)
    (T : Trig F) :
    Lib.Mealy (ControlLoop F E I) (Call E I) (Option (TickOut F)) where
  step := Call.exec T

theorem final_concat_setCmd (T : Trig F) (s : ControlLoop F E I)
    (calls : List (Call E I)) (t : Nat) (c : Cmd F) :
    (loopMachine F E I T).final s (calls ++ [.setCmd t c])
      = controlSetCmd t c ((loopMachine F E I T).final s calls) := by
  rw [Lib.Mealy.final_append]
  rfl

theorem final_concat_tick (T : Trig F) (s : ControlLoop F E I)
    (calls : List (Call E I)) (t : Nat) (inp : E.Input) (bus : I.Bus) :
    (loopMachine F E I T).final s (calls ++ [.tick t inp bus])
      = (controlLoopTick T t inp bus
        ((loopMachine F E I T).final s calls)).1 := by
  rw [Lib.Mealy.final_append]
  rfl

-- =================================================== what a call changes

section Exec

variable (T : Trig F) (s : ControlLoop F E I) (t : Nat) (inp : E.Input)
  (bus : I.Bus)

/-- A tick never writes the shared command. -/
@[simp] theorem tick_cmd :
    (controlLoopTick T t inp bus s).1.cmd = s.cmd := by
  simp [controlLoopTick, publishOdom]

@[simp] theorem tick_prevCmdMs :
    (controlLoopTick T t inp bus s).1.prevCmdMs = s.prevCmdMs := by
  simp [controlLoopTick, publishOdom]

@[simp] theorem tick_prevOdomMs :
    (controlLoopTick T t inp bus s).1.prevOdomMs = linoMillis t := by
  simp [controlLoopTick, publishOdom]

@[simp] theorem tick_enc :
    (controlLoopTick T t inp bus s).1.enc = (E.getRPM s.enc inp).2 := by
  simp [controlLoopTick, publishOdom]

@[simp] theorem tick_core :
    (controlLoopTick T t inp bus s).1.core
      = (s.core.step T (deadman (linoMillis t) s.prevCmdMs s.cmd)
          (E.getRPM s.enc inp).1
          (odomDt (linoMillis t) s.prevOdomMs)).1 := by
  simp [controlLoopTick, publishOdom]

end Exec

/-- No call changes the configured part of the core. -/
theorem exec_configured {cfg : BoardConfig F} (T : Trig F)
    (s : ControlLoop F E I) (c : Call E I) (h : s.core.Configured cfg) :
    (Call.exec T s c).1.core.Configured cfg := by
  cases c with
  | setCmd t c => exact h
  | tick t inp bus =>
      show (controlLoopTick T t inp bus s).1.core.Configured cfg
      rw [tick_core]
      exact h.step T _ _ _

/-- In every state calls lead to from `control_loop_init`, the core is
the board's. -/
theorem final_configured (cfg : BoardConfig F) (T : Trig F)
    (enc : E.State) (imu : I.State) (imuOk : Bool) (t₀ : Nat)
    (calls : List (Call E I)) :
    ((loopMachine F E I T).final (controlLoopInit cfg enc imu imuOk t₀)
      calls).core.Configured cfg :=
  Lib.Mealy.final_invariant (M := loopMachine F E I T)
    (P := fun s => s.core.Configured cfg) (exec_configured T)
    (ControlCore.fresh_configured cfg) calls

end LinoStm32
