/-
The odometry against the motion of the base.

The base rolls on its wheels without slipping: its body velocity is what
`getVelocities` makes of the true wheel speeds at each instant. A step is
told the average speed of each wheel over its interval, which is what
counts over time are, and the interval.

`getVelocities` is linear (`bodyVel_linear`), so of the average wheel
speeds it makes the average body velocity, and a step of the integrator
reckons from an exact reading (`exact_readings`). The rest is
`Lib/Drive.lean`: the heading is right whatever the base does between
steps, and the position is off by no more than the sum of the intervals'
shares. `Sequential.lean` and `Snapshot.lean` carry this to every tuple a
reader gets while both tasks run.
-/
import LinoStm32.Lib.Drive
import LinoStm32.Proofs.Published
import LinoStm32.Proofs.Sequential

noncomputable section

namespace LinoStm32

-- ======================================================== the body velocity

/-- The velocity in the plane of the body. -/
def Velocities.planar (v : Velocities ℝ) : ℂ := ⟨v.linearX, v.linearY⟩

/-- The body velocity of four wheel speeds. -/
def Kinematics.bodyVel (k : Kinematics ℝ) (r : Fin 4 → ℝ) :
    Velocities ℝ :=
  k.getVelocities (r 0) (r 1) (r 2) (r 3)

/-- It is a weighted sum of them. -/
theorem Kinematics.bodyVel_linear (k : Kinematics ℝ) :
    ∃ (c : Fin 4 → ℂ) (g : Fin 4 → ℝ), ∀ r : Fin 4 → ℝ,
      (k.bodyVel r).planar = ∑ w, r w • c w
        ∧ (k.bodyVel r).angularZ = ∑ w, r w • g w := by
  refine ⟨fun w => (k.bodyVel (Pi.single w 1)).planar,
    fun w => (k.bodyVel (Pi.single w 1)).angularZ, fun r => ⟨?_, ?_⟩⟩
  · cases hb : k.basePlatform <;>
      · apply Complex.ext <;>
          · simp [bodyVel, getVelocities, hb, Velocities.planar,
              Fin.sum_univ_four, Pi.single_apply]
            try ring
  · cases hb : k.basePlatform <;>
      · simp [bodyVel, getVelocities, hb, Fin.sum_univ_four,
          Pi.single_apply]
        ring

section Weighted

variable {V : Type*} [NormedAddCommGroup V] [NormedSpace ℝ V]
  [CompleteSpace V] {f : Fin 4 → ℝ → ℝ} (hf : ∀ w, Continuous (f w)) (c : Fin 4 → V)

include hf

omit [CompleteSpace V] in
/-- A weighted sum of continuous speeds is continuous, -/
theorem continuous_weighted : Continuous fun t => ∑ w, f w t • c w :=
  continuous_finsetSum _ fun w _ => (hf w).smul continuous_const

/-- and its integral is that of their integrals. -/
theorem integral_weighted (a b : ℝ) :
    ∫ t in a..b, ∑ w, f w t • c w = ∑ w, (∫ t in a..b, f w t) • c w := by
  rw [intervalIntegral.integral_finsetSum]
  · exact Finset.sum_congr rfl fun w _ =>
      intervalIntegral.integral_smul_const _ _
  · intro w _
    exact ((hf w).smul continuous_const).intervalIntegrable _ _

end Weighted

-- ================================================================ the wheels

/-- The true wheel speeds, and the pose at time 0. -/
structure Rolling where
  rpm : Fin 4 → ℝ → ℝ
  pose₀ : OdomIntegrator ℝ
  continuous_rpm : ∀ w, Continuous (rpm w)

namespace Rolling

variable (R : Rolling) (k : Kinematics ℝ)

/-- The average wheel speeds of consecutive intervals, from `a` on. -/
def Measured : ℝ → List (ControlCore.StepIn ℝ) → Prop
  | _, [] => True
  | a, i :: is =>
      0 ≤ i.dt ∧ (∀ w, i.rpm w * i.dt = ∫ s in a..a + i.dt, R.rpm w s)
        ∧ Measured (a + i.dt) is

/-- The base that rolls on them. -/
def drive : Lib.Drive where
  vel t := (k.bodyVel fun w => R.rpm w t).planar
  rate t := (k.bodyVel fun w => R.rpm w t).angularZ
  pos₀ := ⟨R.pose₀.x, R.pose₀.y⟩
  heading₀ := R.pose₀.heading
  continuous_vel := by
    obtain ⟨c, g, hlin⟩ := k.bodyVel_linear
    simp only [fun r => (hlin r).1]
    exact continuous_weighted R.continuous_rpm c
  continuous_rate := by
    obtain ⟨c, g, hlin⟩ := k.bodyVel_linear
    simp only [fun r => (hlin r).2]
    exact continuous_weighted R.continuous_rpm g

variable {R k} {a b dt : ℝ} {avg : Fin 4 → ℝ}
  (havg : ∀ w, avg w * dt = ∫ s in a..b, R.rpm w s)

include havg

/-- Average wheel speeds make the travel of the interval, -/
theorem travel_eq : (k.bodyVel avg).planar * (dt : ℂ)
    = ∫ s in a..b, (R.drive k).vel s := by
  obtain ⟨c, g, hlin⟩ := k.bodyVel_linear
  calc (k.bodyVel avg).planar * (dt : ℂ)
      = ∑ w, (avg w * dt) • c w := by
        rw [(hlin avg).1, Finset.sum_mul]
        refine Finset.sum_congr rfl fun w _ => ?_
        rw [mul_comm, ← Complex.real_smul, smul_smul, mul_comm]
    _ = ∑ w, (∫ s in a..b, R.rpm w s) • c w := by simp only [havg]
    _ = ∫ s in a..b, ∑ w, R.rpm w s • c w :=
        (integral_weighted R.continuous_rpm c a b).symm
    _ = ∫ s in a..b, (R.drive k).vel s :=
        intervalIntegral.integral_congr fun s _ => (hlin _).1.symm

/-- and its turn. -/
theorem turn_eq : (k.bodyVel avg).angularZ * dt
    = ∫ s in a..b, (R.drive k).rate s := by
  obtain ⟨c, g, hlin⟩ := k.bodyVel_linear
  calc (k.bodyVel avg).angularZ * dt
      = ∑ w, (avg w * dt) • g w := by
        rw [(hlin avg).2, Finset.sum_mul]
        refine Finset.sum_congr rfl fun w _ => ?_
        rw [smul_eq_mul, smul_eq_mul]
        ring
    _ = ∑ w, (∫ s in a..b, R.rpm w s) • g w := by simp only [havg]
    _ = ∫ s in a..b, ∑ w, R.rpm w s • g w :=
        (integral_weighted R.continuous_rpm g a b).symm
    _ = ∫ s in a..b, (R.drive k).rate s :=
        intervalIntegral.integral_congr fun s _ => (hlin _).2.symm

end Rolling

-- ================================================================= one step

namespace ControlCore

/-- What a step reckons from. -/
def StepIn.reading (k : Kinematics ℝ) (i : StepIn ℝ) : Lib.Reading where
  dt := i.dt
  travel := (k.bodyVel i.rpm).planar * (i.dt : ℂ)
  turn := (k.bodyVel i.rpm).angularZ * i.dt

/-- The pose as a reckoner holds it. -/
def pose (o : OdomIntegrator ℝ) : ℂ × ℝ := (⟨o.x, o.y⟩, o.heading)

/-- An update is one advance. -/
theorem pose_update (o : OdomIntegrator ℝ) (dt : ℝ) (v : Velocities ℝ) :
    pose (o.update Trig.real dt v)
      = Lib.Drive.advance (pose o)
          ⟨dt, v.planar * (dt : ℂ), v.angularZ * dt⟩ := by
  refine Prod.ext (Complex.ext ?_ ?_) rfl
  · show o.x + (v.linearX * Real.cos o.heading
      - v.linearY * Real.sin o.heading) * dt = _
    simp [pose, Lib.Drive.advance, Velocities.planar]
    ring
  · show o.y + (v.linearX * Real.sin o.heading
      + v.linearY * Real.cos o.heading) * dt = _
    simp [pose, Lib.Drive.advance, Velocities.planar]
    ring

/-- A run reckons. -/
theorem pose_final (c : ControlCore ℝ) (is : List (StepIn ℝ)) :
    pose ((mealy Trig.real).final c is).odom
      = Lib.Drive.reckon (pose c.odom) (is.map (StepIn.reading c.kin)) := by
  induction is generalizing c with
  | nil => rfl
  | cons i is ih =>
      have hstep : pose (c.step Trig.real i.cmd i.rpm i.dt).1.odom
          = Lib.Drive.advance (pose c.odom) (i.reading c.kin) :=
        pose_update c.odom i.dt (c.kin.bodyVel i.rpm)
      rw [List.map_cons, Lib.Drive.reckon, List.foldl_cons, ← hstep]
      exact ih (c.step Trig.real i.cmd i.rpm i.dt).1

/-- Average wheel speeds are exact readings of the body. -/
theorem exact_readings (R : Rolling) (k : Kinematics ℝ) {a : ℝ}
    {is : List (StepIn ℝ)} (h : R.Measured a is) :
    (R.drive k).Exact a (is.map (StepIn.reading k)) := by
  induction is generalizing a with
  | nil => trivial
  | cons i is ih =>
      obtain ⟨hdt, havg, hrest⟩ := h
      refine ⟨hdt, ?_, ih hrest⟩
      show Lib.Reading.mk _ _ _ = _
      rw [Rolling.travel_eq havg, Rolling.turn_eq havg, Lib.Drive.reading,
        add_sub_cancel_left]
      rfl

/-- Over a run the heading stays that of the base, and the position drifts
from that of the base by no more than half its greatest speed times its
greatest turn rate times the squared intervals. -/
theorem odometry_drift_le {c : ControlCore ℝ} {R : Rolling}
    (hstart : c.odom = R.pose₀) {is : List (StepIn ℝ)}
    (his : R.Measured 0 is) {U W : ℝ}
    (hU : ∀ t, ‖(R.drive c.kin).vel t‖ ≤ U)
    (hW : ∀ t, |(R.drive c.kin).rate t| ≤ W) :
    let o := ((mealy Trig.real).final c is).odom
    let t := (is.map StepIn.dt).sum
    o.heading = (R.drive c.kin).heading t
      ∧ ‖(⟨o.x, o.y⟩ : ℂ) - (R.drive c.kin).pos t‖
        ≤ U * W / 2 * (is.map fun i => i.dt ^ 2).sum := by
  intro o t
  have hz : pose c.odom
      = ((R.drive c.kin).pos 0, (R.drive c.kin).heading 0) := by
    simp [hstart, pose, Lib.Drive.pos, Lib.Drive.heading, Rolling.drive]
  obtain ⟨hhead, hpos⟩ := Lib.Drive.reckon_error_le hU hW
    (exact_readings R c.kin his) (pose c.odom) (congrArg Prod.snd hz)
  have ht : Lib.Drive.finish 0 (is.map (StepIn.reading c.kin)) = t := by
    rw [Lib.Drive.finish, zero_add, List.map_map]
    rfl
  rw [← pose_final, ht] at hhead hpos
  rw [congrArg Prod.fst hz, sub_self, norm_zero, zero_add,
    List.map_map] at hpos
  exact ⟨hhead, hpos⟩

end ControlCore

-- =============================================================== the readers

theorem Rolling.Measured.left {R : Rolling} {a : ℝ}
    {is js : List (ControlCore.StepIn ℝ)} (h : R.Measured a (is ++ js)) :
    R.Measured a is := by
  induction is generalizing a with
  | nil => trivial
  | cons i is ih => exact ⟨h.1, h.2.1, ih h.2.2⟩

variable {E : RpmSource ℝ} {I : ImuDriver ℝ} {cfg : BoardConfig ℝ}

/-- A tuple is near the pose of the base at a time. -/
def Near (D : Lib.Drive) (t ε : ℝ) (v : Odom6 ℝ) : Prop :=
  v.heading = D.heading t ∧ ‖(⟨v.x, v.y⟩ : ℂ) - D.pos t‖ ≤ ε

/-- The tuple of every tick is near the pose of the base at the end of the
tick's interval. -/
theorem OdomVersion.near {R : Rolling} {steps : List (StepRec ℝ)}
    (hrun : IsRun Trig.real cfg steps)
    (hstart : R.pose₀ = OdomIntegrator.zero)
    (hmeas : R.Measured 0 (steps.map StepRec.input)) {U W : ℝ}
    (hU : ∀ t, ‖(R.drive cfg.kinematics).vel t‖ ≤ U)
    (hW : ∀ t, |(R.drive cfg.kinematics).rate t| ≤ W) {n : Nat}
    {v : Odom6 ℝ} (hv : OdomVersion Trig.real steps n v) :
    let dts := (steps.take n).map StepRec.dt
    Near (R.drive cfg.kinematics) dts.sum
      (U * W / 2 * (dts.map fun dt => dt ^ 2).sum) v := by
  intro dts
  have hpose : v.x = (coreAfter Trig.real cfg (steps.take n)).odom.x
      ∧ v.y = (coreAfter Trig.real cfg (steps.take n)).odom.y
      ∧ v.heading = (coreAfter Trig.real cfg (steps.take n)).odom.heading := by
    cases n with
    | zero =>
        rw [show v = Odom6.zero from hv]
        exact ⟨rfl, rfl, rfl⟩
    | succ n =>
        obtain ⟨r, hr, rfl⟩ := hv
        obtain ⟨hlt, hget⟩ := List.getElem?_eq_some_iff.mp hr
        have htake : steps.take (n + 1) = steps.take n ++ [r] := by
          rw [List.take_add_one, hr]
          rfl
        have hcore : r.core = coreAfter Trig.real cfg (steps.take n) := by
          refine hrun _ r (steps.drop (n + 1)) ?_
          rw [← hget, ← List.drop_eq_getElem_cons hlt, List.take_append_drop]
        rw [htake, coreAfter_concat hcore]
        exact ⟨rfl, rfl, rfl⟩
  have hsplit : R.Measured 0 ((steps.take n).map StepRec.input
      ++ (steps.drop n).map StepRec.input) := by
    rwa [← List.map_append, List.take_append_drop]
  have hdrift := ControlCore.odometry_drift_le
    (c := ControlCore.fresh cfg) hstart.symm hsplit.left hU hW
  rw [List.map_map, List.map_map] at hdrift
  obtain ⟨hx, hy, hhead⟩ := hpose
  rw [Near, hx, hy, hhead, List.map_map]
  exact hdrift

/-- The tuple of a tick, near the pose of the base at the end of that tick's
interval: within `c` times the sum of the squared intervals. -/
def NearVersion (D : Lib.Drive) (c : ℝ) (steps : List (StepRec ℝ))
    (n : Nat) (v : Odom6 ℝ) : Prop :=
  let dts := (steps.take n).map StepRec.dt
  OdomVersion Trig.real steps n v
    ∧ Near D dts.sum (c * (dts.map fun dt => dt ^ 2).sum) v

/-- While both tasks run, what a reader would get now is the tuple of the
last tick published, and what readers got are tuples of ticks up to it,
each near the pose the base had at the end of its own tick's interval. -/
theorem odometry_reads_near {s : System ℝ E I}
    (h : (tasks E I Trig.real cfg).Reachable s) {R : Rolling}
    (hstart : R.pose₀ = OdomIntegrator.zero)
    (hmeas : R.Measured 0 (s.steps.map StepRec.input)) {U W : ℝ}
    (hU : ∀ t, ‖(R.drive cfg.kinematics).vel t‖ ≤ U)
    (hW : ∀ t, |(R.drive cfg.kinematics).rate t| ≤ W) :
    let D := R.drive cfg.kinematics
    NearVersion D (U * W / 2) s.steps s.published (controlGetOdom s.loop)
      ∧ ∀ v ∈ s.odomReads, ∃ n ≤ s.published,
        NearVersion D (U * W / 2) s.steps n v := by
  have hcoherent : s.Coherent Trig.real := System.coherent_of_reachable h
  have hrun := (System.sequential_of_reachable h).run
  refine ⟨⟨hcoherent.last, ?_⟩, fun v hv => ?_⟩
  · exact OdomVersion.near hrun hstart hmeas hU hW hcoherent.last
  · obtain ⟨n, hn, hversion⟩ := hcoherent.odomReads.mem hv
    exact ⟨n, hn, hversion,
      OdomVersion.near hrun hstart hmeas hU hW hversion⟩

/-- The second wheel of the mecanum base turns, for ever. -/
def circling : Rolling where
  rpm w _ := secondWheel w
  pose₀ := OdomIntegrator.zero
  continuous_rpm _ := continuous_const

/-- The first tick, 20 ms after the initialisation, and a read. -/
noncomputable def firstTick :
    List (Act (RpmSource.told ℝ) (ImuDriver.absent ℝ)) :=
  let step : Act (RpmSource.told ℝ) (ImuDriver.absent ℝ) :=
    .ctrl secondWheel ()
  List.flatten [List.replicate 6 step, List.replicate 20 .clock,
    List.replicate 7 step, [.getOdom]]

/-- The base moves and turns, and the tuple read says so. -/
theorem odometry_reads_near_firstTick :
    ∃ s, (tasks _ _ Trig.real mecanumBoard).run firstTick
        (System.start mecanumBoard () () false 0) = some s
      ∧ (∃ v : Odom6 ℝ, s.odomReads = [v] ∧ 0 < v.x ∧ 0 < v.heading)
      ∧ let D := circling.drive mecanumBoard.kinematics
        0 < ‖D.vel 0‖ * |D.rate 0|
        ∧ NearVersion D (‖D.vel 0‖ * |D.rate 0| / 2) s.steps s.published
          (controlGetOdom s.loop)
        ∧ ∀ v ∈ s.odomReads, ∃ n ≤ s.published,
          NearVersion D (‖D.vel 0‖ * |D.rate 0| / 2) s.steps n v := by
  have hrun : ∃ (s : System ℝ (RpmSource.told ℝ) (ImuDriver.absent ℝ))
        (r : StepRec ℝ),
      (tasks _ _ Trig.real mecanumBoard).run firstTick
        (System.start mecanumBoard () () false 0) = some s
      ∧ s.steps = [r] ∧ s.odomReads = [r.tuple Trig.real]
      ∧ r.core = ControlCore.fresh mecanumBoard ∧ r.rpm = secondWheel
      ∧ r.dt = odomDt (linoMillis 20) (linoMillis 0) :=
    ⟨_, _, rfl, rfl, rfl, rfl, rfl, rfl⟩
  obtain ⟨s, r, hs, hsteps, hreads, hcore, hrpm, hdt⟩ := hrun
  have hdt₀ : 0 < r.dt := by
    have helapsed : (linoMillis 20 - linoMillis 0).toNat = 20 := rfl
    rw [hdt, odomDt, helapsed]
    norm_num
  obtain ⟨⟨hx, -, hheading⟩, -⟩ := secondWheel_tuple hcore hrpm hdt₀
  have hbound : 0 < ‖(circling.drive mecanumBoard.kinematics).vel 0‖
      * |(circling.drive mecanumBoard.kinematics).rate 0| := by
    obtain ⟨hvx, -, hwz⟩ := secondWheel_vel hcore hrpm
    have hvel : mecanumBoard.kinematics.bodyVel secondWheel = r.vel := by
      rw [StepRec.vel, hcore, hrpm]
      rfl
    show 0 < ‖(mecanumBoard.kinematics.bodyVel secondWheel).planar‖
      * |(mecanumBoard.kinematics.bodyVel secondWheel).angularZ|
    rw [hvel]
    have hmoves : r.vel.planar ≠ 0 := fun hzero =>
      hvx.ne' (congrArg Complex.re hzero)
    exact mul_pos (norm_pos_iff.mpr hmoves) (abs_pos.mpr hwz.ne')
  refine ⟨s, hs, ⟨_, hreads, hx, hheading⟩, hbound, odometry_reads_near
    (Lib.Machine.reachable_of_run ⟨_, _, _, _, rfl⟩ hs) rfl ?_
    (fun t => le_rfl) (fun t => le_rfl)⟩
  rw [hsteps]
  refine ⟨hdt₀.le, fun w => ?_, trivial⟩
  show r.rpm w * r.dt = ∫ _ in (0 : ℝ)..0 + r.dt, secondWheel w
  rw [hrpm, intervalIntegral.integral_const, smul_eq_mul]
  ring

end LinoStm32

end
