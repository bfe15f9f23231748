/-
`controlPublishCallback` of `Src/main.c`: the odometry and the IMU
message it assembles, stamps and publishes, beside everything else the
firmware does.

The callback runs inside the executor's spin. It reads the odometry
snapshot, then the IMU snapshot, then the clock, and then publishes both
messages; between any two of these the tick may advance and
`control_task` may run, but nothing else of `uros_task` does. The two
messages are static: what one call does not assign is what was there
before, so a step here takes the message apart from the tuple it fills in.

# The clock

`clock_gettime` splits the 32-bit tick into seconds and nanoseconds. The
stamp adds the offset that the time synchronisation of `createEntities`
left, and divides by C's rules, which round toward zero: `Int.tdiv` and
`Int.tmod`. Seconds are stored as `int32_t`, nanoseconds as `uint32_t`.

# What is recorded

Next to what the code stores, a state keeps the messages published so far
and, while the offset is from a synchronisation that succeeded, the
`Session` it opened: the agent's clock, the true time of the tick read,
and the stamps published since with the true time of each clock read.
-/
import LinoStm32.Uros

namespace LinoStm32

-- ============================================================= the clock

/-- `struct timespec`. -/
structure Timespec where
  sec : Nat
  nsec : Nat

/-- `clock_gettime` while the scheduler runs, at this tick. -/
def clockGettime (tick : UInt32T) : Timespec where
  sec := tick.toNat / 1000
  nsec := tick.toNat % 1000 * 1000000

/-- `builtin_interfaces__msg__Time`. -/
structure Stamp where
  sec : Int
  nanosec : Nat
  deriving DecidableEq

/-- `ns` of `controlPublishCallback`. -/
def stampNs (t : Timespec) (timeOffsetNs : Int) : Int :=
  (t.sec : Int) * 1000000000 + (t.nsec : Int) + timeOffsetNs

/-- `ns` as a stamp. -/
def Stamp.ofNs (ns : Int) : Stamp where
  sec := (BitVec.ofInt 32 (ns.tdiv 1000000000)).toInt
  nanosec := (BitVec.ofInt 32 (ns.tmod 1000000000)).toNat

/-- The nanoseconds a stamp says. -/
def Stamp.toNs (t : Stamp) : Int := t.sec * 1000000000 + (t.nanosec : Int)

-- ========================================================== the messages

/-- The stamp and the numeric fields of `nav_msgs__msg__Odometry`. -/
structure Odometry (F : Type) where
  stamp : Stamp
  position : Vector3 F
  orientation : Quaternion F
  poseCovariance : Fin 36 → F
  linear : Vector3 F
  angular : Vector3 F
  twistCovariance : Fin 36 → F

/-- `sensor_msgs__msg__Imu` with its stamp. -/
structure StampedImu (F : Type) where
  stamp : Stamp
  data : ImuMsg F

section Messages

variable {F : Type} [CFloat F]

/-- The static message. -/
def Odometry.zero : Odometry F where
  stamp := ⟨0, 0⟩
  position := ⟨((0 : Int) : F), ((0 : Int) : F), ((0 : Int) : F)⟩
  orientation := ⟨((0 : Int) : F), ((0 : Int) : F), ((0 : Int) : F),
    ((0 : Int) : F)⟩
  poseCovariance _ := ((0 : Int) : F)
  linear := ⟨((0 : Int) : F), ((0 : Int) : F), ((0 : Int) : F)⟩
  angular := ⟨((0 : Int) : F), ((0 : Int) : F), ((0 : Int) : F)⟩
  twistCovariance _ := ((0 : Int) : F)

/-- The static message. -/
def StampedImu.zero : StampedImu F := ⟨⟨0, 0⟩, ImuMsg.zero⟩

/-- The covariances `createEntities` presets in its set-once block. -/
def Odometry.preset (m : Odometry F) : Odometry F :=
  let diagonal (v : F) (old : Fin 36 → F) : Fin 36 → F := fun i =>
    if i = 0 ∨ i = 7 ∨ i = 35 then v else old i
  { m with
    poseCovariance :=
      diagonal (((1 : Int) : F) / ((10000 : Int) : F)) m.poseCovariance
    twistCovariance :=
      diagonal (((1 : Int) : F) / ((100000 : Int) : F)) m.twistCovariance }

/-- The callback's assignments from the tuple of `control_get_odom`. -/
def Odometry.fill (T : Trig F) (t : Odom6 F) (m : Odometry F) :
    Odometry F :=
  let half := t.heading * (((1 : Int) : F) / ((2 : Int) : F))
  { m with
    position := ⟨t.x, t.y, ((0 : Int) : F)⟩
    orientation :=
      ⟨((0 : Int) : F), ((0 : Int) : F), T.sin half, T.cos half⟩
    linear := { m.linear with x := t.vx, y := t.vy }
    angular := { m.angular with z := t.wz } }

/-- The callback's assignments to the IMU message: the sample of
`control_get_imu`, with the fake IMU the yaw rate, and an orientation
marked as not available. -/
def StampedImu.fill (useFakeImu : Bool) (yawRate : F) (im : ImuMsg F)
    (m : StampedImu F) : StampedImu F :=
  let zero : F := ((0 : Int) : F)
  let rate := if useFakeImu then { im.angularVelocity with z := yawRate }
    else im.angularVelocity
  { m with
    data := { im with
      angularVelocity := rate
      orientation := ⟨zero, zero, zero, ((1 : Int) : F)⟩
      orientationCovariance := fun i =>
        if i = 0 then -((1 : Int) : F) else im.orientationCovariance i } }

end Messages

-- ============================================================= the state

/-- The next step of `controlPublishCallback`. -/
inductive CallbackPc
  /-- not running -/
  | idle
  /-- `control_get_imu` -/
  | getImu
  /-- `clock_gettime` and the stamps -/
  | stamp
  /-- the two publishes, with the true time of the clock read -/
  | publish (readAt : Nat)
  deriving DecidableEq

/-- What one call of the callback published. -/
structure Publication (F : Type) where
  odom : Odometry F
  imu : StampedImu F

/-- One stamp published, and the true time of its clock read. -/
structure StampRec where
  readAt : Nat
  stamp : Stamp
  deriving DecidableEq

/-- What happened since a successful time synchronisation. -/
structure Session where
  epoch : Int
  syncAt : Nat
  /-- oldest first -/
  stamps : List StampRec
  deriving DecidableEq

/-- The firmware with the callback's own state. -/
structure Publisher (R : Rcl) (F : Type) (E : RpmSource F)
    (I : ImuDriver F) where
  uros : Uros R F E I
  callback : CallbackPc
  odomMsg : Odometry F
  imuMsg : StampedImu F
  session : Option Session
  /-- oldest first -/
  published : List (Publication F)

/-- A step: one of the firmware, or the next of the callback. -/
inductive PubAct (R : Rcl) {F : Type} (E : RpmSource F) (I : ImuDriver F)
  | firmware (a : UrosAct R E I)
  | getOdom
  | getImu
  | stamp
  | publish

-- ================================================================= steps

/-- Where a step of the firmware may be taken: the tick and `control_task`
anywhere, `uros_task`'s own outside the callback. The two reads of the
snapshots are the callback's. -/
def UrosAct.allowed {R : Rcl} {F : Type} {E : RpmSource F} {I : ImuDriver F}
    (pc : CallbackPc) : UrosAct R E I → Bool
  | .clock => true
  | .ctrl _ _ => true
  | .callback .getOdom => false
  | .callback .getImu => false
  | _ => decide (pc = .idle)

namespace Publisher

variable {R : Rcl} {F : Type} [CFloat F] {E : RpmSource F}
  {I : ImuDriver F}

/-- The session after a step of the firmware. -/
def sessionAfter (s : Publisher R F E I) : UrosAct R E I → Option Session
  | .sync (some ns) => some ⟨ns, s.uros.sys.time, []⟩
  | .sync none => none
  | _ => s.session

/-- A step of the firmware, with the presets of the set-once block when
it has run. -/
def firmwareStep (T : Trig F) (a : UrosAct R E I) (s : Publisher R F E I) :
    Option (Publisher R F E I) :=
  if a.allowed s.callback then
    (Uros.apply T a s.uros).map fun u =>
      { s with
        uros := u
        odomMsg := if u.framesSet && !s.uros.framesSet then s.odomMsg.preset
          else s.odomMsg
        session := s.sessionAfter a }
  else none

/-- The callback starts: `control_get_odom`, and the odometry message. -/
def getOdomStep (T : Trig F) (s : Publisher R F E I) :
    Option (Publisher R F E I) :=
  match s.callback with
  | .idle =>
      (Uros.apply T (.callback .getOdom) s.uros).map fun u =>
        { s with
          uros := u
          odomMsg := s.odomMsg.fill T (controlGetOdom s.uros.sys.loop)
          callback := .getImu }
  | _ => none

/-- `control_get_imu`, and the IMU message. -/
def getImuStep (T : Trig F) (s : Publisher R F E I) :
    Option (Publisher R F E I) :=
  match s.callback with
  | .getImu =>
      (Uros.apply T (.callback .getImu) s.uros).map fun u =>
        { s with
          uros := u
          imuMsg := s.imuMsg.fill I.useFakeImu s.odomMsg.angular.z
            (controlGetImu s.uros.sys.loop)
          callback := .stamp }
  | _ => none

/-- The stamp both messages get at this moment. -/
def now (s : Publisher R F E I) : Stamp :=
  .ofNs (stampNs (clockGettime (linoMillis s.uros.sys.time))
    s.uros.timeOffsetNs)

/-- The clock read, and the stamps. -/
def stampStep (s : Publisher R F E I) : Option (Publisher R F E I) :=
  match s.callback with
  | .stamp =>
      some { s with
        odomMsg := { s.odomMsg with stamp := s.now }
        imuMsg := { s.imuMsg with stamp := s.now }
        callback := .publish s.uros.sys.time }
  | _ => none

/-- The two publishes, whatever they return. -/
def publishStep (s : Publisher R F E I) : Option (Publisher R F E I) :=
  match s.callback with
  | .publish readAt =>
      some { s with
        published := s.published ++ [⟨s.odomMsg, s.imuMsg⟩]
        session := s.session.map fun e =>
          { e with stamps := e.stamps ++ [⟨readAt, s.odomMsg.stamp⟩] }
        callback := .idle }
  | _ => none

/-- Take a step, when it is enabled. -/
def apply (T : Trig F) :
    PubAct R E I → Publisher R F E I → Option (Publisher R F E I)
  | .firmware a, s => s.firmwareStep T a
  | .getOdom, s => s.getOdomStep T
  | .getImu, s => s.getImuStep T
  | .stamp, s => s.stampStep
  | .publish, s => s.publishStep

/-- When the scheduler starts. -/
def start (u : Uros R F E I) : Publisher R F E I where
  uros := u
  callback := .idle
  odomMsg := Odometry.zero
  imuMsg := StampedImu.zero
  session := none
  published := []

/-- The same, `n` milliseconds later. -/
def later (n : Nat) (s : Publisher R F E I) : Publisher R F E I :=
  { s with uros := { s.uros with
    sys := { s.uros.sys with time := s.uros.sys.time + n } } }

end Publisher

/-- The firmware with its publishing callback. -/
def publishing (R : Rcl) {F : Type} [CFloat F] (E : RpmSource F)
    (I : ImuDriver F) (T : Trig F) (cfg : BoardConfig F) :
    Lib.Machine (Publisher R F E I) (PubAct R E I) where
  start s := ∃ u, (firmware R E I T cfg).start u ∧ s = Publisher.start u
  apply := Publisher.apply T

namespace Publisher

variable {R : Rcl} {F : Type} [CFloat F] {E : RpmSource F}
  {I : ImuDriver F}

-- ================================================== what a step can do

/-- A step as a relation: one case per kind of step, guards included. -/
inductive Moves (T : Trig F) (s : Publisher R F E I) :
    Publisher R F E I → Prop
  | firmware (a : UrosAct R E I) (u : Uros R F E I) :
      a.allowed s.callback = true → Uros.apply T a s.uros = some u →
      Moves T s { s with
        uros := u
        odomMsg := if u.framesSet && !s.uros.framesSet then s.odomMsg.preset
          else s.odomMsg
        session := s.sessionAfter a }
  | getOdom (u : Uros R F E I) : s.callback = .idle →
      Uros.apply T (.callback .getOdom) s.uros = some u →
      Moves T s { s with
        uros := u
        odomMsg := s.odomMsg.fill T (controlGetOdom s.uros.sys.loop)
        callback := .getImu }
  | getImu (u : Uros R F E I) : s.callback = .getImu →
      Uros.apply T (.callback .getImu) s.uros = some u →
      Moves T s { s with
        uros := u
        imuMsg := s.imuMsg.fill I.useFakeImu s.odomMsg.angular.z
          (controlGetImu s.uros.sys.loop)
        callback := .stamp }
  | stamp : s.callback = .stamp →
      Moves T s { s with
        odomMsg := { s.odomMsg with stamp := s.now }
        imuMsg := { s.imuMsg with stamp := s.now }
        callback := .publish s.uros.sys.time }
  | publish (readAt : Nat) : s.callback = .publish readAt →
      Moves T s { s with
        published := s.published ++ [⟨s.odomMsg, s.imuMsg⟩]
        session := s.session.map fun e =>
          { e with stamps := e.stamps ++ [⟨readAt, s.odomMsg.stamp⟩] }
        callback := .idle }

/-- Every step taken is one of these. -/
theorem moves_of_apply {T : Trig F} {a : PubAct R E I}
    {s s' : Publisher R F E I} (h : apply T a s = some s') :
    Moves T s s' := by
  cases a with
  | firmware a =>
      simp only [apply, firmwareStep] at h
      split at h
      · next hallowed =>
          obtain ⟨u, hu, rfl⟩ := Option.map_eq_some_iff.mp h
          exact .firmware a u hallowed hu
      · cases h
  | getOdom =>
      simp only [apply, getOdomStep] at h
      split at h
      · next hpc =>
          obtain ⟨u, hu, rfl⟩ := Option.map_eq_some_iff.mp h
          exact .getOdom u hpc hu
      · cases h
  | getImu =>
      simp only [apply, getImuStep] at h
      split at h
      · next hpc =>
          obtain ⟨u, hu, rfl⟩ := Option.map_eq_some_iff.mp h
          exact .getImu u hpc hu
      · cases h
  | stamp =>
      simp only [apply, stampStep] at h
      split at h
      · next hpc => cases h; exact .stamp hpc
      · cases h
  | publish =>
      simp only [apply, publishStep] at h
      split at h
      · next readAt hpc => cases h; exact .publish readAt hpc
      · cases h

/-- What a step does to the firmware is a step of it, or nothing. -/
theorem Moves.uros {T : Trig F} {s s' : Publisher R F E I}
    (h : Moves T s s') :
    s'.uros = s.uros ∨ ∃ a, Uros.apply T a s.uros = some s'.uros := by
  cases h with
  | firmware a u _ hu => exact .inr ⟨a, hu⟩
  | getOdom u _ hu => exact .inr ⟨_, hu⟩
  | getImu u _ hu => exact .inr ⟨_, hu⟩
  | stamp _ => exact .inl rfl
  | publish readAt _ => exact .inl rfl

/-- The firmware in it is in a state the firmware reaches by itself. -/
theorem reachable_uros {T : Trig F} {cfg : BoardConfig F}
    {s : Publisher R F E I} (h : (publishing R E I T cfg).Reachable s) :
    (firmware R E I T cfg).Reachable s.uros := by
  apply h.refines
  · intro s hs
    obtain ⟨u, hu, rfl⟩ := hs
    exact hu
  · intro s a s' happ
    exact (moves_of_apply happ).uros

end Publisher

-- ============================================================== two scripts

section Scripts

variable {R : Rcl} {F : Type} {E : RpmSource F} {I : ImuDriver F}

/-- From its first answered ping to the spin: every call into rcl gets the
answer `ans`, and the agent's clock shows `epochNanos`. -/
def connect (ans : R.Answer) (epochNanos : Int) : List (PubAct R E I) :=
  List.map .firmware (List.flatten [
    [.task, .ping true, .task], List.replicate 9 (.rcl ans),
    [.task, .sync (some epochNanos), .task, .ping true]])

/-- One call of the callback, without a break. -/
def callback : List (PubAct R E I) := [.getOdom, .getImu, .stamp, .publish]

end Scripts

end LinoStm32
