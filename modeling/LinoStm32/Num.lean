/-
The arithmetic the firmware computes with, as one interface.

Every `float` and `double` of the source is a value of a type `F` with
`CFloat F`: the four operations, the comparisons, the conversion of an
`int`, and the conversion back. The functions of the model are written
against the interface once and read at two types:

- any ordered field with a floor (`CFloat.exact`): exact arithmetic, no
  rounding and no special values;
- `QNaN`: rationals with one absorbing not-a-number. Arithmetic with
  `nan` is `nan`, every comparison with it is false, and a division by
  zero, which has no rational value, is `nan`.

A comparison is always written the way round the source writes it,
because at `QNaN` the negation of `a < b` is not `b ≤ a`.
-/
import Mathlib.Data.Rat.Floor
import Mathlib.Tactic
import LinoStm32.Lib.Round

namespace LinoStm32

-- ========================================================== the indices

/-- The wheels are numbered by `Fin 4`, -/
instance neZeroWheels : NeZero (4 : Nat) := ⟨by decide⟩

/-- and the entries of a covariance of three components by `Fin 9`. -/
instance neZeroCovariance : NeZero (9 : Nat) := ⟨by decide⟩

-- ======================================================== the interface

/-- What the source asks of its floating types. `feq` is `==`, and
`toInt` is the conversion `(int)x`. -/
class CFloat (F : Type) extends
    Add F, Sub F, Mul F, Div F, Neg F, LT F, LE F, IntCast F where
  decLt : DecidableLT F
  decLe : DecidableLE F
  feq : F → F → Bool
  toInt : F → Int

attribute [reducible, instance] CFloat.decLt CFloat.decLe

/-- Exact arithmetic: an ordered field, with `(int)x` rounding toward
zero. -/
instance CFloat.exact {K : Type} [Field K] [LinearOrder K] [FloorRing K] :
    CFloat K where
  decLt := inferInstance
  decLe := inferInstance
  feq a b := decide (a = b)
  toInt := Lib.towardZero

-- ================================================= rationals with a NaN

/-- A rational or the absorbing not-a-number. -/
inductive QNaN
  | num (q : ℚ)
  | nan
  deriving DecidableEq, Repr

namespace QNaN

/-- Lift a binary operation, `nan` absorbing. -/
def lift₂ (f : ℚ → ℚ → ℚ) : QNaN → QNaN → QNaN
  | num a, num b => num (f a b)
  | _, _ => nan

/-- Division: there is no rational quotient by zero. -/
def div : QNaN → QNaN → QNaN
  | num a, num b => if b = 0 then nan else num (a / b)
  | _, _ => nan

/-- Negation, `nan` absorbing. -/
def neg : QNaN → QNaN
  | num a => num (-a)
  | nan => nan

/-- Lift a comparison: false as soon as one side is `nan`. -/
def test (r : ℚ → ℚ → Bool) : QNaN → QNaN → Bool
  | num a, num b => r a b
  | _, _ => false

/-- `(int)x`. The conversion of a NaN is undefined in the language; the
soft-float conversion of the target returns 0. -/
def toInt : QNaN → Int
  | num a => CFloat.toInt a
  | nan => 0

instance : CFloat QNaN where
  add := lift₂ (· + ·)
  sub := lift₂ (· - ·)
  mul := lift₂ (· * ·)
  div := div
  neg := neg
  lt a b := test (fun x y => decide (x < y)) a b = true
  le a b := test (fun x y => decide (x ≤ y)) a b = true
  intCast n := num n
  decLt _ _ := inferInstanceAs (Decidable (_ = true))
  decLe _ _ := inferInstanceAs (Decidable (_ = true))
  feq := test fun x y => decide (x = y)
  toInt := toInt

/-- Neither the not-a-number nor anything made from it. -/
def Finite : QNaN → Prop
  | num _ => True
  | nan => False

instance : DecidablePred Finite
  | num _ => inferInstanceAs (Decidable True)
  | nan => inferInstanceAs (Decidable False)

@[simp] theorem finite_num (q : ℚ) : Finite (num q) := trivial

@[simp] theorem not_finite_nan : ¬ Finite nan := id

theorem finite_iff {x : QNaN} : Finite x ↔ ∃ q, x = num q := by
  cases x with
  | num q => simp
  | nan => simp

@[simp] theorem num_add (a b : ℚ) : num a + num b = num (a + b) := rfl
@[simp] theorem num_sub (a b : ℚ) : num a - num b = num (a - b) := rfl
@[simp] theorem num_mul (a b : ℚ) : num a * num b = num (a * b) := rfl
@[simp] theorem num_neg (a : ℚ) : -num a = num (-a) := rfl
@[simp] theorem intCast_eq (n : Int) : ((n : Int) : QNaN) = num n := rfl

theorem num_div {a b : ℚ} (hb : b ≠ 0) : num a / num b = num (a / b) :=
  if_neg hb

@[simp] theorem nan_add (x : QNaN) : nan + x = nan := rfl
@[simp] theorem nan_sub (x : QNaN) : nan - x = nan := rfl
@[simp] theorem nan_mul (x : QNaN) : nan * x = nan := rfl

@[simp] theorem add_nan (x : QNaN) : x + nan = nan := by cases x <;> rfl
@[simp] theorem sub_nan (x : QNaN) : x - nan = nan := by cases x <;> rfl
@[simp] theorem mul_nan (x : QNaN) : x * nan = nan := by cases x <;> rfl

@[simp] theorem num_lt (a b : ℚ) : num a < num b ↔ a < b :=
  decide_eq_true_iff

@[simp] theorem num_le (a b : ℚ) : num a ≤ num b ↔ a ≤ b :=
  decide_eq_true_iff

@[simp] theorem nan_lt (x : QNaN) : ¬ nan < x := Bool.false_ne_true

@[simp] theorem lt_nan (x : QNaN) : ¬ x < nan := by
  cases x <;> exact Bool.false_ne_true

@[simp] theorem num_feq (a b : ℚ) :
    CFloat.feq (num a) (num b) = decide (a = b) := rfl

end QNaN

-- ======================================== Arduino.h and math.h macros

section Macros

variable {F : Type} [CFloat F]

/-- `constrain(amt, low, high)` of `Arduino.h`. -/
def constrain (amt low high : F) : F :=
  if amt < low then low else if high < amt then high else amt

/-- `fabs` of `math.h`. -/
def fabs (x : F) : F := if x < ((0 : Int) : F) then -x else x

/-- `PI` of `Arduino.h`, the decimal the macro spells. -/
def PI : F :=
  ((31415926535897932384626433832795 : Int) : F)
    / ((10000000000000000000000000000000 : Int) : F)

end Macros

-- ============================================= the macros, read exactly

section Exact

variable {K : Type} [Field K] [LinearOrder K] [FloorRing K]

@[simp] theorem feq_eq (a b : K) : CFloat.feq a b = decide (a = b) := rfl

@[simp] theorem toInt_eq (q : K) :
    CFloat.toInt q = Lib.towardZero q := rfl

theorem fabs_eq_abs [IsStrictOrderedRing K] (x : K) : fabs x = |x| := by
  unfold fabs
  rw [Int.cast_zero]
  split
  · next h => exact (abs_of_neg h).symm
  · next h => exact (abs_of_nonneg (not_lt.mp h)).symm

/-- Between ordered limits the macro is the lattice clamp. -/
theorem constrain_eq {low high : K} (h : low ≤ high) (amt : K) :
    constrain amt low high = max low (min amt high) := by
  unfold constrain
  split
  · next h1 => rw [max_eq_left ((min_le_left _ _).trans h1.le)]
  · next h1 =>
    split
    · next h2 => rw [min_eq_right h2.le, max_eq_right h]
    · next h2 =>
      rw [min_eq_left (not_lt.mp h2), max_eq_right (not_lt.mp h1)]

/-- The macro returns a value between its ordered limits. -/
theorem constrain_mem {low high : K} (h : low ≤ high) (amt : K) :
    low ≤ constrain amt low high ∧ constrain amt low high ≤ high := by
  rw [constrain_eq h]
  exact ⟨le_max_left _ _, max_le h (min_le_right _ _)⟩

/-- Inside the limits the macro changes nothing. -/
theorem constrain_of_mem {amt low high : K} (h1 : low ≤ amt)
    (h2 : amt ≤ high) : constrain amt low high = amt := by
  rw [constrain, if_neg (not_lt.mpr h1), if_neg (not_lt.mpr h2)]

/-- A bound inside the limits is reached after the clamp exactly when it
is reached before. -/
theorem le_constrain_iff {low high b : K} (h : low ≤ high) (hlow : low < b)
    (hhigh : b ≤ high) (amt : K) :
    b ≤ constrain amt low high ↔ b ≤ amt := by
  rw [constrain_eq h, le_max_iff, le_min_iff]
  constructor
  · intro h
    rcases h with hb | hb
    · exact absurd hb (not_le.mpr hlow)
    · exact hb.1
  · intro hb
    exact Or.inr ⟨hb, hhigh⟩

/-- The same from above. -/
theorem constrain_le_iff {low high b : K} (h : low ≤ high) (hlow : low ≤ b)
    (hhigh : b < high) (amt : K) :
    constrain amt low high ≤ b ↔ amt ≤ b := by
  rw [constrain_eq h, max_le_iff, min_le_iff]
  constructor
  · intro h
    rcases h.2 with hb | hb
    · exact hb
    · exact absurd hb (not_le.mpr hhigh)
  · intro hb
    exact ⟨hlow, Or.inl hb⟩

/-- Symmetric limits make the macro odd. -/
theorem constrain_neg [IsStrictOrderedRing K] {m : K} (hm : 0 ≤ m)
    (amt : K) : constrain (-amt) (-m) m = -constrain amt (-m) m := by
  unfold constrain
  split_ifs <;> linarith

end Exact

end LinoStm32
