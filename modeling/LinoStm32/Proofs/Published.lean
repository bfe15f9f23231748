/-
The published odometry carries the state: position, heading and body
velocity of one tuple, each in its own field.

`Odometry.fill` assigns every field a consumer reads, so what the static
message held before does not matter. `Carries` says what the fields mean:
the orientation is a unit quaternion, and conjugation by it turns a vector
by the heading about z (`halfYaw_conj`).

That the tuple is the right one is a matter of runs. `Reported` follows it
through the callback: the message is filled from what `control_get_odom`
returned to this call, and stays filled from it while stamps and presets go
in and other ticks complete. So the `n`-th message carries the `n`-th
tuple read. Each tuple read is a version of the published one, and every
version but the first is what one completed step of the control loop
integrated (`OdomVersion.integrated`).
-/
import LinoStm32.Lib.Rotation
import LinoStm32.Publish
import LinoStm32.Proofs.Snapshot
import LinoStm32.Proofs.Reconnect

section

open scoped Quaternion

namespace LinoStm32

-- ======================================================= the message alone

/-- The cosine and sine of real numbers. -/
noncomputable def Trig.real : Trig ℝ := ⟨Real.cos, Real.sin⟩

/-- The number an orientation stands for. -/
noncomputable def Quaternion.toReal (q : Quaternion ℝ) : ℍ[ℝ] :=
  ⟨q.w, q.x, q.y, q.z⟩

/-- A vector as a quaternion. -/
noncomputable def Vector3.toReal (v : Vector3 ℝ) : ℍ[ℝ] :=
  ⟨0, v.x, v.y, v.z⟩

/-- A vector turned about the z axis. -/
noncomputable def Vector3.yaw (θ : ℝ) (v : Vector3 ℝ) : Vector3 ℝ where
  x := Real.cos θ * v.x - Real.sin θ * v.y
  y := Real.sin θ * v.x + Real.cos θ * v.y
  z := v.z

/-- What a consumer reads off an odometry message is the tuple. -/
structure Carries (t : Odom6 ℝ) (m : Odometry ℝ) : Prop where
  position : m.position = ⟨t.x, t.y, 0⟩
  unit : m.orientation.toReal * star m.orientation.toReal = 1
  rotation : ∀ v : Vector3 ℝ,
    m.orientation.toReal * v.toReal * star m.orientation.toReal
      = (v.yaw t.heading).toReal
  linearX : m.linear.x = t.vx
  linearY : m.linear.y = t.vy
  angularZ : m.angular.z = t.wz

/-- The quaternion the callback makes of half a heading. -/
noncomputable def halfYaw (half : ℝ) : ℍ[ℝ] :=
  ⟨Real.cos half, 0, 0, Real.sin half⟩

section Components

variable (v : Vector3 ℝ)

@[simp] theorem Vector3.toReal_re : v.toReal.re = 0 := rfl
@[simp] theorem Vector3.toReal_imI : v.toReal.imI = v.x := rfl
@[simp] theorem Vector3.toReal_imJ : v.toReal.imJ = v.y := rfl
@[simp] theorem Vector3.toReal_imK : v.toReal.imK = v.z := rfl

end Components

/-- It turns about the z axis, by the whole heading. -/
theorem halfYaw_rotates (half : ℝ) :
    Lib.Rotates (halfYaw half) (Lib.Rz (2 * half)) :=
  Lib.rotates_z half

/-- It is a unit. -/
theorem halfYaw_unit (half : ℝ) : halfYaw half * star (halfYaw half) = 1 :=
  (halfYaw_rotates half).unit

/-- Conjugation by it turns by the whole heading. -/
theorem halfYaw_conj (half : ℝ) (v : Vector3 ℝ) :
    halfYaw half * v.toReal * star (halfYaw half)
      = (v.yaw (2 * half)).toReal := by
  have hconj := (halfYaw_rotates half).conj ![v.x, v.y, v.z]
  have hyaw : Lib.vec (Matrix.mulVec (Lib.Rz (2 * half)) ![v.x, v.y, v.z])
      = (v.yaw (2 * half)).toReal := by
    ext
    · simp
    · simp [Lib.Rz, Vector3.yaw]
      ring
    · simp [Lib.Rz, Vector3.yaw]
      ring
    · simp [Lib.Rz, Vector3.yaw]
  exact hconj.trans hyaw

/-- The callback's assignments, over any message. -/
theorem fill_carries (t : Odom6 ℝ) (m : Odometry ℝ) :
    Carries t (m.fill Trig.real t) := by
  have hhalf : t.heading = 2 * (t.heading * (1 / 2)) := by ring
  have horientation : (m.fill Trig.real t).orientation.toReal
      = halfYaw (t.heading * (1 / 2)) := by
    ext <;> simp [Odometry.fill, Trig.real, Quaternion.toReal, halfYaw]
  refine ⟨?_, ?_, fun v => ?_, rfl, rfl, rfl⟩
  · simp [Odometry.fill]
  · rw [horientation]
    exact halfYaw_unit _
  · rw [horientation, halfYaw_conj, ← hhalf]

-- ================================================================= the runs

namespace Publisher

variable {R : Rcl} {F : Type} [CFloat F] {E : RpmSource F}
  {I : ImuDriver F}

/-- A message the callback filled from a tuple, whatever it held before,
and stamped since. -/
def FilledFrom (T : Trig F) (t : Odom6 F) (m : Odometry F) : Prop :=
  ∃ (old : Odometry F) (st : Stamp), m = { old.fill T t with stamp := st }

/-- Each message published is filled from what the `control_get_odom` of
its own call returned. `done` is what those calls read, in order; the call
under way has read one tuple more. -/
structure Reported (T : Trig F) (s : Publisher R F E I)
    (done : List (Odom6 F)) : Prop where
  published : List.Forall₂ (fun p t => FilledFrom T t p.odom)
    s.published done
  idle : s.callback = .idle → s.uros.sys.odomReads = done
  pending : s.callback ≠ .idle → ∃ t,
    s.uros.sys.odomReads = done ++ [t] ∧ FilledFrom T t s.odomMsg

section Steps

variable {T : Trig F} {s s' : Publisher R F E I}

/-- The presets touch nothing the tuple fills. -/
theorem FilledFrom.preset {t : Odom6 F} {m : Odometry F}
    (h : FilledFrom T t m) : FilledFrom T t m.preset := by
  obtain ⟨old, st, rfl⟩ := h
  exact ⟨old.preset, st, rfl⟩

/-- Nor does the stamp. -/
theorem FilledFrom.stamp {t : Odom6 F} {m : Odometry F}
    (h : FilledFrom T t m) (st : Stamp) :
    FilledFrom T t { m with stamp := st } := by
  obtain ⟨old, -, rfl⟩ := h
  exact ⟨old, st, rfl⟩

/-- Past its first step the callback holds a filled message. -/
theorem Reported.filled {done : List (Odom6 F)} (h : Reported T s done)
    {pc : CallbackPc} (hpc : s.callback = pc) (hne : pc ≠ .idle) :
    ∃ t, s.uros.sys.odomReads = done ++ [t] ∧ FilledFrom T t s.odomMsg :=
  h.pending (hpc ▸ hne)

/-- A step of the firmware or of the callback keeps what is known of the
messages. -/
theorem reported_step {done : List (Odom6 F)} (h : Reported T s done)
    (hm : Moves T s s') : ∃ done', Reported T s' done' := by
  cases hm with
  | firmware a u hallowed hu =>
      -- the reads are the callback's alone
      have hne : a ≠ .callback .getOdom := by
        rintro rfl
        cases hallowed
      have hreads := Uros.odomReads_of_apply hu hne
      refine ⟨done, h.published, fun hpc => ?_, fun hpc => ?_⟩
      · exact hreads.trans (h.idle hpc)
      · obtain ⟨t, ht, hfilled⟩ := h.pending hpc
        refine ⟨t, hreads.trans ht, ?_⟩
        show FilledFrom T t (if _ then s.odomMsg.preset else s.odomMsg)
        split
        · exact hfilled.preset
        · exact hfilled
  | getOdom u hpc hu =>
      have hreads := Uros.odomReads_of_getOdom hu
      rw [h.idle hpc] at hreads
      exact ⟨done, h.published, nofun,
        fun _ => ⟨_, hreads, s.odomMsg, s.odomMsg.stamp, rfl⟩⟩
  | getImu u hpc hu =>
      obtain ⟨t, ht, hfilled⟩ := h.filled hpc nofun
      have hne : UrosAct.callback .getImu
          ≠ (.callback .getOdom : UrosAct R E I) := nofun
      exact ⟨done, h.published, nofun,
        fun _ => ⟨t, (Uros.odomReads_of_apply hu hne).trans ht, hfilled⟩⟩
  | stamp hpc =>
      obtain ⟨t, ht, hfilled⟩ := h.filled hpc nofun
      exact ⟨done, h.published, nofun,
        fun _ => ⟨t, ht, hfilled.stamp _⟩⟩
  | publish readAt hpc =>
      obtain ⟨t, ht, hfilled⟩ := h.filled hpc nofun
      refine ⟨done ++ [t], ?_, fun _ => ht, fun hne => absurd rfl hne⟩
      exact List.rel_append h.published (.cons hfilled .nil)

/-- In every reachable state. -/
theorem reported_of_reachable {cfg : BoardConfig F}
    (h : (publishing R E I T cfg).Reachable s) :
    ∃ done, Reported T s done := by
  refine h.invariant (I := fun s => ∃ done, Reported T s done) ?_ ?_
  · intro s hs
    obtain ⟨u, ⟨y, ⟨_, _, _, _, rfl⟩, rfl⟩, rfl⟩ := hs
    exact ⟨[], .nil, fun _ => rfl, fun hne => absurd rfl hne⟩
  · intro s a s' hs happ
    obtain ⟨done, hdone⟩ := hs
    exact reported_step hdone (moves_of_apply happ)

/-- What the calls that have published read is the beginning of all that
was read. -/
theorem Reported.prefix {done : List (Odom6 F)} (h : Reported T s done) :
    done <+: s.uros.sys.odomReads := by
  by_cases hpc : s.callback = .idle
  · exact (h.idle hpc).symm ▸ List.prefix_rfl
  · obtain ⟨t, ht, -⟩ := h.pending hpc
    exact ht.symm ▸ List.prefix_append done [t]

/-- The `n`-th message is filled from the `n`-th tuple read. -/
theorem Reported.getElem? {done : List (Odom6 F)} (h : Reported T s done)
    {n : Nat} {p : Publication F} (hp : s.published[n]? = some p) :
    ∃ t, s.uros.sys.odomReads[n]? = some t ∧ FilledFrom T t p.odom := by
  obtain ⟨hlt, rfl⟩ := List.getElem?_eq_some_iff.mp hp
  have hdone : n < done.length := h.published.length_eq ▸ hlt
  refine ⟨done[n], ?_, h.published.get hlt hdone⟩
  obtain ⟨rest, hrest⟩ := h.prefix
  rw [← hrest, List.getElem?_append_left hdone,
    List.getElem?_eq_getElem hdone]

end Steps

end Publisher

-- ============================================================== the result

/-- A tuple of the control loop: nothing integrated yet, or the pose one
completed step reached with the body velocity it integrated, which is
what its base's kinematics made of the wheel speeds measured. -/
def Integrated {F : Type} [CFloat F] (T : Trig F)
    (steps : List (StepRec F)) (t : Odom6 F) : Prop :=
  t = Odom6.zero ∨ ∃ r ∈ steps,
    let vel := r.core.kin.getVelocities (r.rpm 0) (r.rpm 1) (r.rpm 2) (r.rpm 3)
    t = Odom6.of (r.core.odom.update T r.dt vel) vel

/-- Every version of the published tuple is one. -/
theorem OdomVersion.integrated {F : Type} [CFloat F] {T : Trig F}
    {steps : List (StepRec F)} {n : Nat} {t : Odom6 F}
    (h : OdomVersion T steps n t) : Integrated T steps t := by
  cases n with
  | zero => exact Or.inl h
  | succ n =>
      obtain ⟨r, hr, rfl⟩ := h
      exact Or.inr ⟨r, List.mem_of_getElem? hr, rfl⟩

section Result

variable {R : Rcl} {E : RpmSource ℝ} {I : ImuDriver ℝ}

/-- The published odometry carries the whole state. Over any message and
any tuple the callback's assignments carry the tuple; and in every run of
every board, what the callback published at its `n`-th call carries the
tuple that `control_get_odom` returned to that call, which is one the
control loop integrated. -/
theorem odometry_carries_state {cfg : BoardConfig ℝ}
    {s : Publisher R ℝ E I}
    (h : (publishing R E I Trig.real cfg).Reachable s) :
    (∀ (t : Odom6 ℝ) (m : Odometry ℝ), Carries t (m.fill Trig.real t))
      ∧ ∀ (n : Nat) (p : Publication ℝ), s.published[n]? = some p → ∃ t,
        s.uros.sys.odomReads[n]? = some t
          ∧ Integrated Trig.real s.uros.sys.steps t ∧ Carries t p.odom := by
  refine ⟨fill_carries, fun n p hp => ?_⟩
  obtain ⟨done, hdone⟩ := Publisher.reported_of_reachable h
  obtain ⟨t, ht, old, st, hodom⟩ := hdone.getElem? hp
  have hcoherent : s.uros.sys.Coherent Trig.real :=
    System.coherent_of_reachable
      (Uros.reachable_sys (Publisher.reachable_uros h))
  obtain ⟨k, -, hversion⟩ :=
    hcoherent.odomReads.mem (List.mem_of_getElem? ht)
  have hcarries := fill_carries t old
  refine ⟨t, ht, hversion.integrated, ?_⟩
  rw [hodom]
  exact ⟨hcarries.position, hcarries.unit, hcarries.rotation,
    hcarries.linearX, hcarries.linearY, hcarries.angularZ⟩

/-- The configured board's motors and wheels on a mecanum base. -/
noncomputable def mecanumBoard : BoardConfig ℝ :=
  { f446re with linoBase := .mecanum }

/-- Half a second after reset, as its scheduler starts. -/
noncomputable def mecanumBoot :
    Publisher Uros.boolRcl ℝ (RpmSource.told ℝ) (ImuDriver.absent ℝ) :=
  Publisher.start (Uros.start Uros.boolRcl
    (System.start mecanumBoard () () false 501))

/-- The second wheel alone, at one turn a second. -/
noncomputable def secondWheel : Fin 4 → ℝ := fun w =>
  if w = 1 then ((60 : Int) : ℝ) else 0

/-- One tick 20 ms after the initialisation, then one call of the
callback. -/
noncomputable def turnAndPublish :
    List (PubAct Uros.boolRcl (RpmSource.told ℝ) (ImuDriver.absent ℝ)) :=
  let step : PubAct Uros.boolRcl (RpmSource.told ℝ) (ImuDriver.absent ℝ) :=
    .firmware (.ctrl secondWheel ())
  List.flatten [List.replicate 6 step,
    List.replicate 20 (.firmware .clock), List.replicate 7 step,
    connect true 0, callback]

/-- It moves the base forward, to the left and round, -/
theorem secondWheel_vel {r : StepRec ℝ}
    (hcore : r.core = ControlCore.fresh mecanumBoard)
    (hrpm : r.rpm = secondWheel) :
    0 < r.vel.linearX ∧ 0 < r.vel.linearY ∧ 0 < r.vel.angularZ := by
  have hwheels : Kinematics.getTotalWheels .mecanum = 4 := rfl
  simp [StepRec.vel, ControlCore.velocities, hcore, hrpm, hwheels,
    ControlCore.fresh, mecanumBoard, Kinematics.getVelocities, secondWheel,
    BoardConfig.kinematics, Kinematics.new, f446re, PI]

/-- and so does the pose of its first tick. -/
theorem secondWheel_tuple {r : StepRec ℝ}
    (hcore : r.core = ControlCore.fresh mecanumBoard)
    (hrpm : r.rpm = secondWheel) (hdt : 0 < r.dt) :
    let t := r.tuple Trig.real
    (0 < t.x ∧ 0 < t.y ∧ 0 < t.heading)
      ∧ 0 < t.vx ∧ 0 < t.vy ∧ 0 < t.wz := by
  intro t
  obtain ⟨hx, hy, hz⟩ := secondWheel_vel hcore hrpm
  refine ⟨?_, hx, hy, hz⟩
  have hzero : r.core.odom = OdomIntegrator.zero := by rw [hcore]; rfl
  have htuple : t = Odom6.of
      (OdomIntegrator.zero.update Trig.real r.dt r.vel) r.vel := by
    rw [← hzero]
    rfl
  rw [htuple]
  simp [Odom6.of, OdomIntegrator.update, OdomIntegrator.delta,
    OdomIntegrator.addX, OdomIntegrator.addY, OdomIntegrator.addHeading,
    OdomIntegrator.zero, Trig.real, hx, hy, hz, hdt]

set_option maxRecDepth 8000 in
/-- It moves forward, to the left and round, and the message says so. -/
theorem odometry_carries_state_mecanum :
    ∃ s, (publishing _ _ _ Trig.real mecanumBoard).run turnAndPublish
        mecanumBoot = some s
      ∧ (∃ t : Odom6 ℝ, s.uros.sys.odomReads = [t]
        ∧ (0 < t.x ∧ 0 < t.y ∧ 0 < t.heading)
        ∧ 0 < t.vx ∧ 0 < t.vy ∧ 0 < t.wz)
      ∧ s.published.length = 1
      ∧ (∀ (t : Odom6 ℝ) (m : Odometry ℝ), Carries t (m.fill Trig.real t))
      ∧ ∀ (n : Nat) (p : Publication ℝ), s.published[n]? = some p → ∃ t,
        s.uros.sys.odomReads[n]? = some t
          ∧ Integrated Trig.real s.uros.sys.steps t ∧ Carries t p.odom := by
  have hrun : ∃ (s : Publisher Uros.boolRcl ℝ (RpmSource.told ℝ)
        (ImuDriver.absent ℝ)) (r : StepRec ℝ),
      (publishing _ _ _ Trig.real mecanumBoard).run turnAndPublish
        mecanumBoot = some s
      ∧ s.published.length = 1 ∧ s.uros.sys.steps = [r]
      ∧ s.uros.sys.odomReads = [r.tuple Trig.real]
      ∧ r.core = ControlCore.fresh mecanumBoard ∧ r.rpm = secondWheel
      ∧ r.dt = odomDt (linoMillis 521) (linoMillis 501) :=
    ⟨_, _, rfl, rfl, rfl, rfl, rfl, rfl, rfl⟩
  obtain ⟨s, r, hs, hlength, -, hreads, hcore, hrpm, hdt⟩ := hrun
  have hdt₀ : 0 < r.dt := by
    have helapsed : (linoMillis 521 - linoMillis 501).toNat = 20 := rfl
    rw [hdt, odomDt, helapsed]
    norm_num
  have hreach := Lib.Machine.reachable_of_run
    (M := publishing _ _ _ Trig.real mecanumBoard)
    ⟨_, ⟨_, ⟨_, _, _, _, rfl⟩, rfl⟩, rfl⟩ hs
  exact ⟨s, hs, ⟨_, hreads, secondWheel_tuple hcore hrpm hdt₀⟩, hlength,
    odometry_carries_state hreach⟩

end Result

end LinoStm32

end
