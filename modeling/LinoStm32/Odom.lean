/-
The dead-reckoning integrator of `firmware/lib/odom_integrator`, and its
conversion of Euler angles.

`update` computes all three increments from the heading at the START of
the interval, then writes the pose back one member at a time: x, then y,
then heading. The three writes are separate definitions because a reader
of another task may run between any two of them.
-/
import LinoStm32.Kinematics

namespace LinoStm32

/-- `std::cos` and `std::sin` of the standard library. -/
structure Trig (F : Type) where
  cos : F → F
  sin : F → F

/-- Cosine and sine as they are at heading 0, for runs that stay there. -/
def Trig.level : Trig ℚ := ⟨fun _ => 1, fun _ => 0⟩

/-- `class OdomIntegrator`: the pose. -/
@[ext] structure OdomIntegrator (F : Type) where
  x : F
  y : F
  heading : F
  deriving DecidableEq

namespace OdomIntegrator

/-- The increments `update` holds in locals. -/
structure Delta (F : Type) where
  x : F
  y : F
  heading : F

variable {F : Type} [CFloat F]

/-- The member initialisers. -/
def zero : OdomIntegrator F :=
  ⟨((0 : Int) : F), ((0 : Int) : F), ((0 : Int) : F)⟩

/-- The first half of `update`: forward Euler from the current heading. -/
def delta (T : Trig F) (o : OdomIntegrator F) (velDt : F)
    (vel : Velocities F) : Delta F :=
  let cosH := T.cos o.heading
  let sinH := T.sin o.heading
  { x := (vel.linearX * cosH - vel.linearY * sinH) * velDt
    y := (vel.linearX * sinH + vel.linearY * cosH) * velDt
    heading := vel.angularZ * velDt }

/-- `x += delta_x`. -/
def addX (o : OdomIntegrator F) (d : Delta F) : OdomIntegrator F :=
  { o with x := o.x + d.x }

/-- `y += delta_y`. -/
def addY (o : OdomIntegrator F) (d : Delta F) : OdomIntegrator F :=
  { o with y := o.y + d.y }

/-- `heading += delta_heading`. -/
def addHeading (o : OdomIntegrator F) (d : Delta F) : OdomIntegrator F :=
  { o with heading := o.heading + d.heading }

/-- `OdomIntegrator::update`. -/
def update (T : Trig F) (o : OdomIntegrator F) (velDt : F)
    (vel : Velocities F) : OdomIntegrator F :=
  let d := o.delta T velDt vel
  ((o.addX d).addY d).addHeading d

/-- `OdomIntegrator::euler_to_quat`: what it writes to `q[0]` (w) to
`q[3]` (z). -/
def eulerToQuat (T : Trig F) (roll pitch yaw : F) : Fin 4 → F :=
  let half : F := ((1 : Int) : F) / ((2 : Int) : F)
  let cy := T.cos (yaw * half)
  let sy := T.sin (yaw * half)
  let cp := T.cos (pitch * half)
  let sp := T.sin (pitch * half)
  let cr := T.cos (roll * half)
  let sr := T.sin (roll * half)
  ![cy * cp * cr + sy * sp * sr,
    cy * cp * sr - sy * sp * cr,
    sy * cp * sr + cy * sp * cr,
    sy * cp * cr - cy * sp * sr]

/-- The heading moves by the turn rate times the interval, whatever the
linear velocity. -/
@[simp] theorem update_heading (T : Trig F) (o : OdomIntegrator F)
    (velDt : F) (vel : Velocities F) :
    (o.update T velDt vel).heading
      = o.heading + vel.angularZ * velDt := rfl

end OdomIntegrator

end LinoStm32
