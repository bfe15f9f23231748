/-
The geometry of the odometry: frames of the plane and of space.

An update of the integrator is a rigid motion made in the frame of the
pose before it: the body velocity over the interval (`update_motion`). So
a run is one motion, the product of its updates, made from the starting
pose, and a run from another pose is the same motion seen from there.

`euler_to_quat` multiplies out three elementary rotations
(`eulerToQuat_eq`): yaw after pitch after roll.
-/
import LinoStm32.Lib.Planar
import LinoStm32.Lib.Rotation
import LinoStm32.Proofs.Published

section

open Quaternion Matrix

namespace LinoStm32

-- ========================================================== dead reckoning

namespace OdomIntegrator

/-- The motion from the odometry frame to the pose. -/
def motion (o : OdomIntegrator ℝ) : Lib.Motion := ⟨o.x, o.y, o.heading⟩

/-- The motion an update makes in the frame of the pose. -/
noncomputable def increment (m : ℝ × Velocities ℝ) : Lib.Motion :=
  ⟨m.2.linearX * m.1, m.2.linearY * m.1, m.2.angularZ * m.1⟩

/-- A sequence of updates, each with its interval and body velocity. -/
noncomputable def updates (moves : List (ℝ × Velocities ℝ))
    (o : OdomIntegrator ℝ) : OdomIntegrator ℝ :=
  moves.foldl (fun o m => o.update Trig.real m.1 m.2) o

/-- One update. The position is integrated with the heading before it. -/
theorem update_motion (o : OdomIntegrator ℝ) (m : ℝ × Velocities ℝ) :
    (o.update Trig.real m.1 m.2).motion = o.motion * increment m := by
  ext
  · show o.x + (m.2.linearX * Real.cos o.heading
      - m.2.linearY * Real.sin o.heading) * m.1 = _
    simp only [Lib.Motion.mul_x, motion, increment]
    ring
  · show o.y + (m.2.linearX * Real.sin o.heading
      + m.2.linearY * Real.cos o.heading) * m.1 = _
    simp only [Lib.Motion.mul_y, motion, increment]
    ring
  · rfl

/-- A run makes the product of its updates. -/
theorem updates_motion (moves : List (ℝ × Velocities ℝ))
    (o : OdomIntegrator ℝ) :
    (updates moves o).motion = o.motion * (moves.map increment).prod := by
  rw [← Lib.Motion.foldl_mul, List.foldl_map]
  exact (List.foldl_hom motion fun o m => (update_motion o m).symm).symm

/-- Dead reckoning from any pose is dead reckoning from the origin, moved
there: the position is turned by the starting heading and shifted, the
headings add up. -/
theorem updates_from (moves : List (ℝ × Velocities ℝ))
    (o : OdomIntegrator ℝ) :
    let r := updates moves zero
    updates moves o =
      { x := o.x + Real.cos o.heading * r.x - Real.sin o.heading * r.y
        y := o.y + Real.sin o.heading * r.x + Real.cos o.heading * r.y
        heading := o.heading + r.heading } := by
  intro r
  have hzero : (zero : OdomIntegrator ℝ).motion = 1 := by
    ext <;> exact Int.cast_zero
  have hr : r.motion = (moves.map increment).prod := by
    rw [updates_motion, hzero, one_mul]
  have ho : (updates moves o).motion = o.motion * r.motion := by
    rw [updates_motion, hr]
  have hx := congrArg Lib.Motion.x ho
  have hy := congrArg Lib.Motion.y ho
  ext
  · rw [Lib.Motion.mul_x] at hx
    exact hx.trans (add_sub_assoc _ _ _).symm
  · rw [Lib.Motion.mul_y] at hy
    exact hy.trans (add_assoc _ _ _).symm
  · exact congrArg Lib.Motion.turn ho

end OdomIntegrator

-- ============================================================ Euler angles

/-- The number the four entries of a `q` stand for. -/
noncomputable def quatOf (q : Fin 4 → ℝ) : ℍ[ℝ] := ⟨q 0, q 1, q 2, q 3⟩

section Components

variable (q : Fin 4 → ℝ)

@[simp] theorem quatOf_re : (quatOf q).re = q 0 := rfl
@[simp] theorem quatOf_imI : (quatOf q).imI = q 1 := rfl
@[simp] theorem quatOf_imJ : (quatOf q).imJ = q 2 := rfl
@[simp] theorem quatOf_imK : (quatOf q).imK = q 3 := rfl

end Components

/-- The four entries multiply out roll, then pitch, then yaw. -/
theorem eulerToQuat_eq (roll pitch yaw : ℝ) :
    quatOf (OdomIntegrator.eulerToQuat Trig.real roll pitch yaw)
      = Lib.halfZ (yaw / 2) * Lib.halfY (pitch / 2)
        * Lib.halfX (roll / 2) := by
  ext
  · simp [OdomIntegrator.eulerToQuat, Trig.real, ← div_eq_mul_inv]
  · simp [OdomIntegrator.eulerToQuat, Trig.real, ← div_eq_mul_inv]
    ring
  · simp [OdomIntegrator.eulerToQuat, Trig.real, ← div_eq_mul_inv]
    ring
  · simp [OdomIntegrator.eulerToQuat, Trig.real, ← div_eq_mul_inv]
    ring

/-- Without roll and pitch only the yaw is left. -/
theorem eulerToQuat_yaw (yaw : ℝ) :
    OdomIntegrator.eulerToQuat Trig.real 0 0 yaw
      = ![Real.cos (yaw / 2), 0, 0, Real.sin (yaw / 2)] := by
  simp [OdomIntegrator.eulerToQuat, Trig.real, ← div_eq_mul_inv]

/-- The conversion is right for all angles: the quaternion has norm one
and turns vectors by the roll about x, then the pitch about y, then the
yaw about z; and for a level body it is the orientation the publisher
makes of the heading. -/
theorem eulerToQuat_correct (roll pitch yaw : ℝ) :
    let q := quatOf (OdomIntegrator.eulerToQuat Trig.real roll pitch yaw)
    ‖q‖ = 1
      ∧ (∀ v, q * Lib.vec v * star q
        = Lib.vec ((Lib.Rz yaw * Lib.Ry pitch * Lib.Rx roll) *ᵥ v))
      ∧ OdomIntegrator.eulerToQuat Trig.real 0 0 yaw
        = ![Real.cos (yaw / 2), 0, 0, Real.sin (yaw / 2)]
      ∧ ∀ (t : Odom6 ℝ) (m : Odometry ℝ),
        let p := (m.fill Trig.real t).orientation
        OdomIntegrator.eulerToQuat Trig.real 0 0 t.heading
          = ![p.w, p.x, p.y, p.z] := by
  have hrot := ((Lib.rotates_z (yaw / 2)).mul
    (Lib.rotates_y (pitch / 2))).mul (Lib.rotates_x (roll / 2))
  have hwhole : ∀ θ : ℝ, 2 * (θ / 2) = θ :=
    fun θ => mul_div_cancel₀ θ two_ne_zero
  rw [← eulerToQuat_eq, hwhole, hwhole, hwhole] at hrot
  refine ⟨hrot.norm, hrot.conj, eulerToQuat_yaw yaw, ?_⟩
  intro t m p
  have hp : p = ⟨0, 0, Real.sin (t.heading / 2), Real.cos (t.heading / 2)⟩ := by
    show (m.fill Trig.real t).orientation = _
    simp [Odometry.fill, Trig.real, ← div_eq_mul_inv]
  rw [eulerToQuat_yaw, hp]

end LinoStm32

end
