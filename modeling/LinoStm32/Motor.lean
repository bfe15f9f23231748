/-
The motor driver of `Src/stm32_motor.cpp`: PWM timing, the table of
claimed time bases, and the `Generic2` object with its `init`, `forward`,
`reverse`, `brake` and the inherited `spin`.

Every motor owns its own timer handle; the table of claimed time bases is
shared by all of them. The first motor on a timer initialises the base
through ITS handle. A motor that finds its timer claimed goes on to
configure and start its channel through a handle no initialisation has
touched, and ignores what the start returns.

# The HAL

`TimHal` is the part of the STM32 HAL the driver calls, which is not in
the repository: a handle type and the functions on it. `Documented` is
what it promises about channel states. What a call writes to the timer's
registers is in `Hw`; a start that is refused writes nothing. The
alternate-function set-up of the PWM pin and the clock gates are left
out: no later step reads them.
-/
import LinoStm32.ControlCore

namespace LinoStm32

-- ============================================================ pwm timing

/-- `struct PwmTiming`. -/
structure PwmTiming where
  psc : Nat
  arr : Nat
  deriving DecidableEq

/-- `lround` on the range `pwm_timing` calls it on, from 1 up. -/
def lround {F : Type} [CFloat F] (x : F) : Int :=
  CFloat.toInt (x + ((1 : Int) : F) / ((2 : Int) : F))

/-- `pwm_timing`. -/
def pwmTiming {F : Type} [CFloat F] (clkHz : Nat) (freq : F) (bits : Int) :
    PwmTiming :=
  let bits := if bits < 1 then 1 else bits
  let bits := if 32 < bits then 32 else bits
  let arr := 2 ^ bits.toNat - 1
  if freq ≤ ((0 : Int) : F) then { psc := 0, arr := arr }
  else
    let ticks := ((clkHz : Int) : F)
      / (freq * (((arr : Int) : F) + ((1 : Int) : F)))
    let ticks := if ticks < ((1 : Int) : F) then ((1 : Int) : F) else ticks
    let ticks := if ((65536 : Int) : F) < ticks then ((65536 : Int) : F)
      else ticks
    { psc := (lround ticks - 1).toNat, arr := arr }

/-- `pwm_clamp`. -/
def pwmClamp (duty : Int) (arr : Nat) : Nat :=
  let duty := if duty < 0 then 0 else duty
  if arr < duty.toNat then arr else duty.toNat

/-- A timer always has at least one step below its top. -/
theorem pwmTiming_arr_pos {F : Type} [CFloat F] (clkHz : Nat) (freq : F)
    (bits : Int) : 0 < (pwmTiming clkHz freq bits).arr := by
  have hpos : ∀ b : Int, 1 ≤ b → 0 < 2 ^ b.toNat - 1 := by
    intro b hb
    have hlt : 1 < 2 ^ b.toNat := Nat.one_lt_two_pow (by omega)
    omega
  have hbits : 1 ≤ (if 32 < (if bits < 1 then 1 else bits) then 32
      else if bits < 1 then 1 else bits) := by
    split <;> split <;> omega
  unfold pwmTiming
  dsimp only
  split
  · exact hpos _ hbits
  · exact hpos _ hbits

/-- A positive duty stays positive, whatever the timer's top. -/
theorem pwmClamp_pos {duty : Int} (hduty : 0 < duty) {arr : Nat}
    (harr : 0 < arr) : 0 < pwmClamp duty arr := by
  have hneg : ¬ duty < 0 := by omega
  unfold pwmClamp
  simp only [if_neg hneg]
  split <;> omega

-- =============================================================== the HAL

/-- The HAL on one timer handle, over a type of timers: the field writes
before it, `HAL_TIM_PWM_Init`, `HAL_TIM_PWM_ConfigChannel`,
`HAL_TIM_PWM_Start` (whether it returns `HAL_OK`), and whether a channel
is in state READY. -/
structure TimHal (Tim : Type) where
  Handle : Type
  zeroed : Handle
  setBase : Tim → PwmTiming → Handle → Handle
  pwmInit : Handle → Handle
  configChannel : Nat → Handle → Handle
  pwmStart : Nat → Handle → Bool × Handle
  ready : Nat → Handle → Bool

/-- What the HAL documents about channel states: a zeroed handle has no
READY channel, filling in its fields and configuring a channel make none,
`HAL_TIM_PWM_Init` makes them all READY, and `HAL_TIM_PWM_Start` succeeds
on a READY channel only. -/
structure TimHal.Documented {Tim : Type} (H : TimHal Tim) : Prop where
  zeroed : ∀ ch, H.ready ch H.zeroed = false
  setBase : ∀ ch t b h, H.ready ch (H.setBase t b h) = H.ready ch h
  pwmInit : ∀ ch h, H.ready ch (H.pwmInit h) = true
  configChannel : ∀ ch ch' h,
    H.ready ch (H.configChannel ch' h) = H.ready ch h
  pwmStart : ∀ ch h, (H.pwmStart ch h).1 = H.ready ch h

-- ============================================================= registers

/-- A GPIO pin. -/
structure Pin where
  port : Nat
  pin : Nat
  deriving DecidableEq

/-- The registers the driver drives: the time base of a timer, the enable
bit and compare value of a channel, the main output enable, and the level
of a pin. -/
structure Hw (Tim : Type) where
  base : Tim → Option PwmTiming
  enabled : Tim → Nat → Bool
  compare : Tim → Nat → Nat
  moe : Tim → Bool
  level : Pin → Bool

namespace Hw

variable {Tim : Type}

/-- After reset: nothing initialised, nothing enabled. -/
def reset : Hw Tim where
  base _ := none
  enabled _ _ := false
  compare _ _ := 0
  moe _ := false
  level _ := false

def writePin (hw : Hw Tim) (p : Pin) (v : Bool) : Hw Tim :=
  { hw with level := fun p' => if p' = p then v else hw.level p' }

section

variable (hw : Hw Tim) (p : Pin) (v : Bool)

@[simp] theorem writePin_enabled :
    (hw.writePin p v).enabled = hw.enabled := rfl

@[simp] theorem writePin_moe : (hw.writePin p v).moe = hw.moe := rfl

end

variable [DecidableEq Tim]

def setBase (hw : Hw Tim) (t : Tim) (b : PwmTiming) : Hw Tim :=
  { hw with base := fun t' => if t' = t then some b else hw.base t' }

def enable (hw : Hw Tim) (t : Tim) (ch : Nat) : Hw Tim :=
  { hw with
    enabled := fun t' ch' =>
      if t' = t ∧ ch' = ch then true else hw.enabled t' ch' }

def setCompare (hw : Hw Tim) (t : Tim) (ch v : Nat) : Hw Tim :=
  { hw with
    compare := fun t' ch' =>
      if t' = t ∧ ch' = ch then v else hw.compare t' ch' }

def mainOutput (hw : Hw Tim) (t : Tim) : Hw Tim :=
  { hw with moe := fun t' => if t' = t then true else hw.moe t' }

section

variable (hw : Hw Tim) (t : Tim) (ch v : Nat)

@[simp] theorem setCompare_enabled :
    (hw.setCompare t ch v).enabled = hw.enabled := rfl

@[simp] theorem mainOutput_enabled :
    (hw.mainOutput t).enabled = hw.enabled := rfl

end

/-- The channel puts out pulses: enabled, with its timer's main output,
and a duty that is not 0. -/
def Output (hw : Hw Tim) (t : Tim) (ch : Nat) : Prop :=
  hw.enabled t ch = true ∧ hw.moe t = true ∧ 0 < hw.compare t ch

end Hw

-- ======================================================= the board tables

/-- `struct PwmDesc`, without the pin that only its set-up reads. -/
structure PwmDesc (Tim : Type) where
  tim : Tim
  channel : Nat

/-- `PWM_DESCRIPTORS`, `DIR_DESCRIPTORS` and the timers' kernel clocks. -/
structure MotorTables (Tim : Type) where
  pwmDescriptors : Int → PwmDesc Tim
  dirDescriptors : Int → Pin
  timClkHz : Tim → Nat

/-- `pwm_base_claim` on the table of claimed timers: the first slot that
holds the timer or is free decides. -/
def pwmBaseClaim {Tim : Type} [DecidableEq Tim] (t : Tim) :
    List (Option Tim) → Bool × List (Option Tim)
  | [] => (false, [])
  | none :: rest => (true, some t :: rest)
  | some s :: rest =>
      if s = t then (false, some s :: rest)
      else ((pwmBaseClaim t rest).1, some s :: (pwmBaseClaim t rest).2)

/-- What all motors share: the claim table and the registers. -/
structure Pwm (Tim : Type) where
  claims : List (Option Tim)
  hw : Hw Tim

/-- Before the first `init`: `s_pwm_base_inited[8] = {0}`. -/
def Pwm.boot {Tim : Type} [DecidableEq Tim] : Pwm Tim :=
  ⟨List.replicate 8 none, Hw.reset⟩

-- ============================================================== Generic2

/-- What `Generic2` is constructed from. -/
structure MotorArgs (F : Type) where
  pwmFrequency : F
  pwmBits : Int
  invert : Bool
  pwmId : Int
  inAId : Int
  inBId : Int

/-- `used_`. -/
def MotorArgs.used {F : Type} (a : MotorArgs F) : Bool :=
  decide (0 ≤ a.pwmId) && decide (0 ≤ a.inAId) && decide (0 ≤ a.inBId)

/-- `class Generic2`. `tim` is `htim_.Instance`. -/
structure Generic2 (F : Type) {Tim : Type} (H : TimHal Tim) where
  args : MotorArgs F
  used : Bool
  arr : Nat
  channel : Nat
  dirA : Option Pin
  dirB : Option Pin
  tim : Option Tim
  htim : H.Handle

namespace Generic2

variable {F : Type} [CFloat F] {Tim : Type} [DecidableEq Tim]
  {H : TimHal Tim}

/-- The constructor. -/
def new (H : TimHal Tim) (a : MotorArgs F) : Generic2 F H where
  args := a
  used := a.used
  arr := 2 ^ a.pwmBits.toNat - 1
  channel := 0
  dirA := none
  dirB := none
  tim := none
  htim := H.zeroed

/-- The handle after `init`, and whether `HAL_TIM_PWM_Start` returned
`HAL_OK`; `claimed` is what `pwm_base_claim` returned. -/
def startChannel (H : TimHal Tim) (claimed : Bool) (p : PwmDesc Tim)
    (t : PwmTiming) (h : H.Handle) : Bool × H.Handle :=
  let h := H.setBase p.tim t h
  let h := if claimed then H.pwmInit h else h
  H.pwmStart p.channel (H.configChannel p.channel h)

/-- `Generic2::init`. -/
def init (B : MotorTables Tim) (m : Generic2 F H) (s : Pwm Tim) :
    Generic2 F H × Pwm Tim :=
  if m.used then
    let p := B.pwmDescriptors m.args.pwmId
    let a := B.dirDescriptors m.args.inAId
    let b := B.dirDescriptors m.args.inBId
    let t := pwmTiming (B.timClkHz p.tim) m.args.pwmFrequency m.args.pwmBits
    let claim := pwmBaseClaim p.tim s.claims
    let start := startChannel H claim.1 p t m.htim
    let hw := if claim.1 then s.hw.setBase p.tim t else s.hw
    let hw := hw.setCompare p.tim p.channel 0
    -- the return code is dropped: a refused start only leaves the bit off
    let hw := if start.1 then hw.enable p.tim p.channel else hw
    let hw := hw.mainOutput p.tim
    let hw := (hw.writePin a false).writePin b false
    ({ m with
        arr := t.arr
        channel := p.channel
        dirA := some a
        dirB := some b
        tim := some p.tim
        htim := start.2 },
      { claims := claim.2, hw := hw })
  else (m, s)

/-- A write to one of the direction pins, once `init` has set them. -/
def writeDir (p : Option Pin) (v : Bool) (hw : Hw Tim) : Hw Tim :=
  match p with
  | some p => hw.writePin p v
  | none => hw

/-- `__HAL_TIM_SET_COMPARE` on the motor's own timer and channel. -/
def setDuty (m : Generic2 F H) (v : Nat) (hw : Hw Tim) : Hw Tim :=
  match m.tim with
  | some t => hw.setCompare t m.channel v
  | none => hw

/-- `Generic2::forward`. -/
def forward (m : Generic2 F H) (pwm : Int) (hw : Hw Tim) : Hw Tim :=
  if m.used then
    m.setDuty (pwmClamp pwm m.arr)
      (writeDir m.dirB false (writeDir m.dirA true hw))
  else hw

/-- `Generic2::reverse`. -/
def reverse (m : Generic2 F H) (pwm : Int) (hw : Hw Tim) : Hw Tim :=
  if m.used then
    m.setDuty (pwmClamp |pwm| m.arr)
      (writeDir m.dirB true (writeDir m.dirA false hw))
  else hw

/-- `Generic2::brake`. -/
def brake (m : Generic2 F H) (hw : Hw Tim) : Hw Tim :=
  if m.used then m.setDuty 0 hw else hw

/-- `MotorInterface::spin`. -/
def spin (m : Generic2 F H) (pwm : Int) (hw : Hw Tim) : Hw Tim :=
  let pwm := if m.args.invert then pwm * -1 else pwm
  if 0 < pwm then m.forward pwm hw
  else if pwm < 0 then m.reverse pwm hw
  else m.brake hw

omit [CFloat F] in
/-- Spinning at 0 is braking, inverted or not. -/
theorem spin_zero (m : Generic2 F H) (hw : Hw Tim) :
    m.spin 0 hw = m.brake hw := by
  unfold spin
  cases m.args.invert <;> rfl

/-- A call on a motor after its `init`. -/
inductive DriveCall
  | forward (pwm : Int)
  | reverse (pwm : Int)
  | brake
  | spin (pwm : Int)

/-- Make the call. -/
def perform (m : Generic2 F H) (hw : Hw Tim) : DriveCall → Hw Tim
  | .forward pwm => m.forward pwm hw
  | .reverse pwm => m.reverse pwm hw
  | .brake => m.brake hw
  | .spin pwm => m.spin pwm hw

/-- A sequence of calls on any motors, in order. -/
def driveAll : List (Generic2 F H × DriveCall) → Hw Tim → Hw Tim
  | [], hw => hw
  | (m, c) :: rest, hw => driveAll rest (m.perform hw c)

/-- A sequence of `init` calls, in order. -/
def initAll (B : MotorTables Tim) :
    List (Generic2 F H) → Pwm Tim → List (Generic2 F H) × Pwm Tim
  | [], s => ([], s)
  | m :: ms, s =>
      ((m.init B s).1 :: (initAll B ms (m.init B s).2).1,
        (initAll B ms (m.init B s).2).2)

/-- The `mot[i]->init()` calls of `control_loop_init`: the four motors,
and what they share, afterwards. -/
def initFour (H : TimHal Tim) (B : MotorTables Tim)
    (args : Fin 4 → MotorArgs F) (s : Pwm Tim) :
    (Fin 4 → Generic2 F H) × Pwm Tim :=
  let m0 := (new H (args 0)).init B s
  let m1 := (new H (args 1)).init B m0.2
  let m2 := (new H (args 2)).init B m1.2
  let m3 := (new H (args 3)).init B m2.2
  (![m0.1, m1.1, m2.1, m3.1], m3.2)

end Generic2

-- ============================================ the step and its motors

namespace ControlCore

variable {F : Type} [CFloat F] {Tim : Type} [DecidableEq Tim]
  {H : TimHal Tim}

/-- `mot_[i]->spin(...)` in the wheel loop, where the wheel exists. -/
def spinMotor (motors : Fin 4 → Generic2 F H) (pwm : Fin 4 → Option Int)
    (hw : Hw Tim) (i : Fin 4) : Hw Tim :=
  match pwm i with
  | some p => (motors i).spin p hw
  | none => hw

/-- The registers after the wheel loop. No motor feeds anything back, so
the outputs can be computed first. -/
def spinMotors (motors : Fin 4 → Generic2 F H) (pwm : Fin 4 → Option Int)
    (hw : Hw Tim) : Hw Tim :=
  (List.finRange 4).foldl (spinMotor motors pwm) hw

/-- The control step with the motors it spins, as a machine. -/
def withMotors (T : Trig F) (motors : Fin 4 → Generic2 F H) :
    Lib.Mealy (ControlCore F × Hw Tim) (StepIn F) (StepOut F) where
  step s inp :=
    let r := s.1.step T inp.cmd inp.rpm inp.dt
    ((r.1, spinMotors motors r.2.pwm s.2), r.2)

end ControlCore

-- ================================================ the configured board

/-- `HAL_TIM_ChannelStateTypeDef`. -/
inductive ChannelState
  | reset
  | ready
  | busy
  deriving DecidableEq

/-- The HAL, as far as the states of a handle's channels go. -/
def stmHal (Tim : Type) : TimHal Tim where
  Handle := Nat → ChannelState
  zeroed _ := .reset
  setBase _ _ h := h
  pwmInit _ := fun _ => .ready
  configChannel _ h := h
  pwmStart ch h :=
    (decide (h ch = .ready),
      fun ch' => if ch' = ch ∧ h ch = .ready then .busy else h ch')
  ready ch h := decide (h ch = .ready)

theorem stmHal_documented (Tim : Type) : (stmHal Tim).Documented where
  zeroed _ := rfl
  setBase _ _ _ _ := rfl
  pwmInit _ _ := rfl
  configChannel _ _ _ := rfl
  pwmStart _ _ := rfl

/-- The two advanced timers. -/
inductive Timer
  | tim1
  | tim8
  deriving DecidableEq

/-- `PWM_DESCRIPTORS` and `DIR_DESCRIPTORS` of `config/f446re_config.h`,
with every timer on the 16 MHz the firmware stays at. -/
def f446reTables : MotorTables Timer where
  pwmDescriptors
    | 1 => ⟨.tim8, 0x4⟩
    | 2 => ⟨.tim8, 0x8⟩
    | 3 => ⟨.tim8, 0xC⟩
    | _ => ⟨.tim8, 0x0⟩
  dirDescriptors id := ⟨2, id.toNat⟩
  timClkHz _ := 16000000

/-- What `control_loop_init` constructs its four motors from. -/
def f446reMotors : List (MotorArgs ℚ) :=
  (List.finRange 4).map fun w =>
    { pwmFrequency := 20000
      pwmBits := (f446re (F := ℚ)).pwmBits
      invert := false
      pwmId := (f446re (F := ℚ)).motorPwm w
      inAId := (f446re (F := ℚ)).motorInA w
      inBId := (f446re (F := ℚ)).motorInB w }

end LinoStm32
