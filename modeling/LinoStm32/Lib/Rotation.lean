/-
Rotations of space by quaternions.

A quaternion of norm one turns a vector by conjugation. `Rotates q M` says
that this is what the matrix `M` does; products of quaternions rotate by
products of matrices (`Rotates.mul`). The three elementary ones, half an
angle in the quaternion and the whole in the matrix, generate the rest.
-/
import Mathlib.Analysis.Quaternion
import Mathlib.Analysis.SpecialFunctions.Trigonometric.Basic
import Mathlib.LinearAlgebra.Matrix.Notation

noncomputable section

open Quaternion Matrix

namespace LinoStm32.Lib

/-- A vector as a quaternion. -/
def vec (v : Fin 3 → ℝ) : ℍ[ℝ] := ⟨0, v 0, v 1, v 2⟩

/-- A unit quaternion that turns vectors as the matrix does. -/
structure Rotates (q : ℍ[ℝ]) (M : Matrix (Fin 3) (Fin 3) ℝ) : Prop where
  norm : ‖q‖ = 1
  conj : ∀ v, q * vec v * star q = vec (M *ᵥ v)

/-- Its conjugate undoes it. -/
theorem Rotates.unit {q : ℍ[ℝ]} {M : Matrix (Fin 3) (Fin 3) ℝ}
    (h : Rotates q M) : q * star q = 1 := by
  rw [self_mul_star, normSq_eq_norm_mul_self, h.norm]
  simp

/-- One rotation after another. -/
theorem Rotates.mul {p q : ℍ[ℝ]} {M N : Matrix (Fin 3) (Fin 3) ℝ}
    (hp : Rotates p M) (hq : Rotates q N) : Rotates (p * q) (M * N) where
  norm := by rw [norm_mul, hp.norm, hq.norm, one_mul]
  conj v := by
    calc p * q * vec v * star (p * q)
        = p * (q * vec v * star q) * star p := by
          rw [star_mul]
          simp only [mul_assoc]
      _ = p * vec (N *ᵥ v) * star p := by rw [hq.conj]
      _ = vec (M *ᵥ (N *ᵥ v)) := hp.conj _
      _ = vec ((M * N) *ᵥ v) := by rw [mulVec_mulVec]

-- ======================================================= about one axis

section Axes

variable (θ : ℝ)

/-- About the x axis. -/
def Rx : Matrix (Fin 3) (Fin 3) ℝ :=
  !![1, 0, 0;
     0, Real.cos θ, -Real.sin θ;
     0, Real.sin θ, Real.cos θ]

/-- About the y axis. -/
def Ry : Matrix (Fin 3) (Fin 3) ℝ :=
  !![Real.cos θ, 0, Real.sin θ;
     0, 1, 0;
     -Real.sin θ, 0, Real.cos θ]

/-- About the z axis. -/
def Rz : Matrix (Fin 3) (Fin 3) ℝ :=
  !![Real.cos θ, -Real.sin θ, 0;
     Real.sin θ, Real.cos θ, 0;
     0, 0, 1]

/-- The quaternion about the x axis, `θ` being half the angle. -/
def halfX : ℍ[ℝ] := ⟨Real.cos θ, Real.sin θ, 0, 0⟩

/-- About the y axis. -/
def halfY : ℍ[ℝ] := ⟨Real.cos θ, 0, Real.sin θ, 0⟩

/-- About the z axis. -/
def halfZ : ℍ[ℝ] := ⟨Real.cos θ, 0, 0, Real.sin θ⟩

end Axes

section Components

variable (θ : ℝ) (v : Fin 3 → ℝ)

@[simp] theorem vec_re : (vec v).re = 0 := rfl
@[simp] theorem vec_imI : (vec v).imI = v 0 := rfl
@[simp] theorem vec_imJ : (vec v).imJ = v 1 := rfl
@[simp] theorem vec_imK : (vec v).imK = v 2 := rfl

@[simp] theorem halfX_re : (halfX θ).re = Real.cos θ := rfl
@[simp] theorem halfX_imI : (halfX θ).imI = Real.sin θ := rfl
@[simp] theorem halfX_imJ : (halfX θ).imJ = 0 := rfl
@[simp] theorem halfX_imK : (halfX θ).imK = 0 := rfl

@[simp] theorem halfY_re : (halfY θ).re = Real.cos θ := rfl
@[simp] theorem halfY_imI : (halfY θ).imI = 0 := rfl
@[simp] theorem halfY_imJ : (halfY θ).imJ = Real.sin θ := rfl
@[simp] theorem halfY_imK : (halfY θ).imK = 0 := rfl

@[simp] theorem halfZ_re : (halfZ θ).re = Real.cos θ := rfl
@[simp] theorem halfZ_imI : (halfZ θ).imI = 0 := rfl
@[simp] theorem halfZ_imJ : (halfZ θ).imJ = 0 := rfl
@[simp] theorem halfZ_imK : (halfZ θ).imK = Real.sin θ := rfl

end Components

section Axes

variable (θ : ℝ)

/-- A quaternion has norm one when its squares add up to one. -/
theorem norm_eq_one {q : ℍ[ℝ]}
    (h : q.re ^ 2 + q.imI ^ 2 + q.imJ ^ 2 + q.imK ^ 2 = 1) : ‖q‖ = 1 := by
  have hsq : ‖q‖ * ‖q‖ = 1 := by
    rw [← normSq_eq_norm_mul_self, normSq_def', h]
  nlinarith [norm_nonneg q]

theorem rotates_x : Rotates (halfX θ) (Rx (2 * θ)) where
  norm := norm_eq_one (by simp)
  conj v := by
    have hunit := Real.cos_sq_add_sin_sq θ
    have hcos := Real.cos_two_mul' θ
    have hsin := Real.sin_two_mul θ
    ext
    · simp
      ring
    · simp [Rx, vecHead, vecTail]
      linear_combination v 0 * hunit
    · simp [Rx, vecHead, vecTail, hcos, hsin]
      ring
    · simp [Rx, vecHead, vecTail, hcos, hsin]
      ring

theorem rotates_y : Rotates (halfY θ) (Ry (2 * θ)) where
  norm := norm_eq_one (by simp)
  conj v := by
    have hunit := Real.cos_sq_add_sin_sq θ
    have hcos := Real.cos_two_mul' θ
    have hsin := Real.sin_two_mul θ
    ext
    · simp
      ring
    · simp [Ry, vecHead, vecTail, hcos, hsin]
      ring
    · simp [Ry, vecHead, vecTail]
      linear_combination v 1 * hunit
    · simp [Ry, vecHead, vecTail, hcos, hsin]
      ring

theorem rotates_z : Rotates (halfZ θ) (Rz (2 * θ)) where
  norm := norm_eq_one (by simp)
  conj v := by
    have hunit := Real.cos_sq_add_sin_sq θ
    have hcos := Real.cos_two_mul' θ
    have hsin := Real.sin_two_mul θ
    ext
    · simp
      ring
    · simp [Rz, vecHead, vecTail, hcos, hsin]
      ring
    · simp [Rz, vecHead, vecTail, hcos, hsin]
      ring
    · simp [Rz, vecHead, vecTail]
      linear_combination v 2 * hunit

end Axes

end LinoStm32.Lib

end
