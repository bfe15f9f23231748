/-
Rigid motions of the plane, with the turn as a real number: a motion is
where it takes the origin and by how much it turns, whole turns counted.

Motions compose: `m * n` is `n` seen from the frame `m` leads to. They
are a monoid, so a sequence of steps, each taken from the frame the one
before it led to, is one motion (`foldl_mul`).
-/
import Mathlib.Analysis.SpecialFunctions.Trigonometric.Basic

namespace LinoStm32.Lib

/-- A displacement and a turn. -/
@[ext] structure Motion where
  x : ℝ
  y : ℝ
  turn : ℝ

namespace Motion

noncomputable section

/-- One motion after another: the second is made in the frame the first
leads to. -/
instance : Mul Motion where
  mul m n :=
    { x := m.x + (Real.cos m.turn * n.x - Real.sin m.turn * n.y)
      y := m.y + (Real.sin m.turn * n.x + Real.cos m.turn * n.y)
      turn := m.turn + n.turn }

instance : One Motion := ⟨⟨0, 0, 0⟩⟩

section Components

variable (m n : Motion)

@[simp] theorem mul_x : (m * n).x
    = m.x + (Real.cos m.turn * n.x - Real.sin m.turn * n.y) := rfl

@[simp] theorem mul_y : (m * n).y
    = m.y + (Real.sin m.turn * n.x + Real.cos m.turn * n.y) := rfl

@[simp] theorem mul_turn : (m * n).turn = m.turn + n.turn := rfl

@[simp] theorem one_x : (1 : Motion).x = 0 := rfl
@[simp] theorem one_y : (1 : Motion).y = 0 := rfl
@[simp] theorem one_turn : (1 : Motion).turn = 0 := rfl

end Components

/-- Turns add up, so frames of frames are frames. -/
theorem assoc (m n p : Motion) : m * n * p = m * (n * p) := by
  have hcos := Real.cos_add m.turn n.turn
  have hsin := Real.sin_add m.turn n.turn
  ext
  · simp only [mul_x, mul_y, mul_turn, hcos, hsin]
    ring
  · simp only [mul_x, mul_y, mul_turn, hcos, hsin]
    ring
  · simp only [mul_turn]
    ring

instance : Monoid Motion where
  mul_assoc := assoc
  one_mul m := by ext <;> simp
  mul_one m := by ext <;> simp

end

/-- Steps taken one after the other from `m` are their product, made from
`m`. -/
theorem foldl_mul {M : Type*} [Monoid M] (m : M) (steps : List M) :
    steps.foldl (· * ·) m = m * steps.prod := by
  induction steps generalizing m with
  | nil => exact (mul_one m).symm
  | cons s steps ih => rw [List.foldl_cons, ih, List.prod_cons, mul_assoc]

end Motion

end LinoStm32.Lib
