/-
The wheel speed controller of `firmware/lib/pid`: one `PID` object and
its `compute`.

`compute` accumulates the error BEFORE it looks at the output limits:
the clamp bounds what is returned, never what is stored. The only thing
that forgets is the rest sample (setpoint 0 and error 0), which clears
the integral and the derivative of that call.
-/
import LinoStm32.Num
import LinoStm32.Lib.Mealy

namespace LinoStm32

-- ============================================================ the object

/-- `class PID`: limits, gains, and the three stored terms. -/
structure PID (F : Type) where
  minVal : F
  maxVal : F
  kp : F
  ki : F
  kd : F
  integral : F
  derivative : F
  prevError : F

namespace PID

variable {F : Type} [CFloat F]

/-- The constructor: limits and gains as given, stored terms 0. -/
def new (minVal maxVal kp ki kd : F) : PID F where
  minVal := minVal
  maxVal := maxVal
  kp := kp
  ki := ki
  kd := kd
  integral := ((0 : Int) : F)
  derivative := ((0 : Int) : F)
  prevError := ((0 : Int) : F)

/-- The rest test of `compute`: setpoint 0 and error 0. -/
def atRest (setpoint error : F) : Bool :=
  CFloat.feq setpoint ((0 : Int) : F) && CFloat.feq error ((0 : Int) : F)

/-- The stored terms after one sample. -/
def sample (p : PID F) (setpoint measured : F) : PID F :=
  let error := setpoint - measured
  let rest := atRest setpoint error
  { p with
    integral := if rest then ((0 : Int) : F) else p.integral + error
    derivative := if rest then ((0 : Int) : F) else error - p.prevError
    prevError := error }

/-- `PID::compute`: the clamped output, and the controller afterwards. -/
def compute (p : PID F) (setpoint measured : F) : F × PID F :=
  let error := setpoint - measured
  let p' := p.sample setpoint measured
  let pid := p'.kp * error + p'.ki * p'.integral + p'.kd * p'.derivative
  (constrain pid p'.minVal p'.maxVal, p')

/-- `PID::updateConstants`: new gains, everything else kept. -/
def updateConstants (p : PID F) (kp ki kd : F) : PID F :=
  { p with kp := kp, ki := ki, kd := kd }

@[simp] theorem sample_minVal (p : PID F) (setpoint measured : F) :
    (p.sample setpoint measured).minVal = p.minVal := rfl

@[simp] theorem sample_maxVal (p : PID F) (setpoint measured : F) :
    (p.sample setpoint measured).maxVal = p.maxVal := rfl

@[simp] theorem sample_kp (p : PID F) (setpoint measured : F) :
    (p.sample setpoint measured).kp = p.kp := rfl

@[simp] theorem sample_ki (p : PID F) (setpoint measured : F) :
    (p.sample setpoint measured).ki = p.ki := rfl

@[simp] theorem sample_kd (p : PID F) (setpoint measured : F) :
    (p.sample setpoint measured).kd = p.kd := rfl

theorem sample_eq_of_rest (p : PID F) {setpoint measured : F}
    (h : atRest setpoint (setpoint - measured) = true) :
    p.sample setpoint measured = { p with
      integral := ((0 : Int) : F)
      derivative := ((0 : Int) : F)
      prevError := setpoint - measured } := by
  simp only [sample, h, if_true]

theorem sample_eq_of_not_rest (p : PID F) {setpoint measured : F}
    (h : atRest setpoint (setpoint - measured) = false) :
    p.sample setpoint measured = { p with
      integral := p.integral + (setpoint - measured)
      derivative := (setpoint - measured) - p.prevError
      prevError := setpoint - measured } := by
  simp only [sample, h, Bool.false_eq_true, if_false]

/-- A call on a controller. -/
inductive Call (F : Type)
  | compute (setpoint measured : F)
  | updateConstants (kp ki kd : F)

/-- Make a call; `compute` hands out what it returns. -/
def Call.exec (p : PID F) : Call F → PID F × Option F
  | .compute setpoint measured =>
      let r := p.compute setpoint measured
      (r.2, some r.1)
  | .updateConstants kp ki kd => (p.updateConstants kp ki kd, none)

/-- A controller as a machine over calls. -/
def machine (F : Type) [CFloat F] :
    Lib.Mealy (PID F) (Call F) (Option F) where
  step := Call.exec

end PID

-- ============================================= the controller, exactly

namespace PID

variable {K : Type} [Field K] [LinearOrder K] [FloorRing K]

/-- At rest means both 0: in exact arithmetic, the wheel stands still
and is asked to. -/
theorem atRest_iff (setpoint measured : K) :
    atRest setpoint (setpoint - measured) = true
      ↔ setpoint = 0 ∧ measured = 0 := by
  simp only [atRest, feq_eq, Int.cast_zero, Bool.and_eq_true,
    decide_eq_true_eq]
  constructor
  · intro h
    obtain ⟨hs, he⟩ := h
    refine ⟨hs, ?_⟩
    rw [hs, zero_sub, neg_eq_zero] at he
    exact he
  · intro h
    obtain ⟨hs, hm⟩ := h
    exact ⟨hs, by rw [hs, hm, sub_zero]⟩

/-- A rest sample leaves a fresh controller of the same limits and
gains. -/
theorem sample_rest_eq_new (p : PID K) :
    p.sample 0 0 = PID.new p.minVal p.maxVal p.kp p.ki p.kd := by
  rw [p.sample_eq_of_rest ((atRest_iff 0 0).mpr ⟨rfl, rfl⟩)]
  simp [PID.new]

/-- What one call returns away from rest: the three terms on the
updated sum and the error step, clamped. -/
theorem compute_of_not_rest (p : PID K) {setpoint measured : K}
    (h : ¬ (setpoint = 0 ∧ measured = 0)) :
    (p.compute setpoint measured).1
      = constrain
          (p.kp * (setpoint - measured)
            + p.ki * (p.integral + (setpoint - measured))
            + p.kd * ((setpoint - measured) - p.prevError))
          p.minVal p.maxVal := by
  have hrest : atRest setpoint (setpoint - measured) = false := by
    rw [← Bool.not_eq_true, atRest_iff]
    exact h
  simp only [compute, sample, hrest, Bool.false_eq_true, if_false]

end PID

end LinoStm32
