/-
What `control_loop_init` does to the chip: the bus clocks it enables, the
timers and pins it sets up, in the order of the source.

`lino_time_init` comes first, then `enc[i]->init()` and `mot[i]->init()`
wheel by wheel, then `I2cBus::init`. Each driver enables the clocks of the
peripherals its descriptors name, through the dispatch functions of
`Src/lino_hal.cpp`, and then programs them; a dispatch function does nothing
about a peripheral it does not list. `Driver` is that shape.

On the chip a write to a peripheral whose clock is off is lost. `Chip.exec`
carries it out all the same; which boards make no such write is a matter of
its own (`bring_up_clocked_iff` of `Proofs/BringUp.lean`).

# What is left out

Speed, pull and filter settings, which nothing here depends on. Compare
registers, enable bits and return codes, which `Motor.lean` has. The
constructors, which touch no register. `huart2`, which `main` sets up before
the scheduler starts.
-/
import LinoStm32.Motor

namespace LinoStm32

-- ================================================================== the chip

/-- A peripheral behind a bus clock: `TIMn`, `GPIOA` on from 0, `I2Cn`. -/
inductive Periph
  | tim (n : Nat)
  | gpio (port : Nat)
  | i2c (n : Nat)
  deriving DecidableEq

/-- What a timer is set up as. -/
inductive TimerMode
  | reset
  /-- counting up over 32 bits, every `psc + 1` clocks -/
  | freeRunning (psc : Nat)
  /-- counting the edges on its two pins -/
  | quadrature (is32 : Bool)
  /-- the time base of its channels -/
  | pwm (t : PwmTiming)
  deriving DecidableEq

/-- What a pin is set up as. -/
inductive PinMode
  | reset
  | alternate (af : Nat)
  | openDrain (af : Nat)
  | output
  deriving DecidableEq

/-- An access to the chip. -/
inductive HalOp
  /-- `__HAL_RCC_*_CLK_ENABLE` -/
  | clockEnable (p : Periph)
  /-- the registers that make a timer what it is -/
  | timerInit (t : Nat) (m : TimerMode)
  /-- its channels -/
  | timerChannel (t : Nat)
  | pinInit (p : Pin) (m : PinMode)
  | pinReset (p : Pin)
  | i2cInit (n : Nat) (clockSpeed : Nat)
  deriving DecidableEq

namespace HalOp

/-- The peripheral whose registers it accesses, which must be clocked. -/
def access : HalOp → Option Periph
  | .clockEnable _ => none
  | .timerInit t _ => some (.tim t)
  | .timerChannel t => some (.tim t)
  | .pinInit p _ => some (.gpio p.port)
  | .pinReset p => some (.gpio p.port)
  | .i2cInit n _ => some (.i2c n)

/-- The timer it sets up, and as what. -/
def timer : HalOp → Option (Nat × TimerMode)
  | .timerInit t m => some (t, m)
  | _ => none

/-- The pin it sets up, and as what. -/
def pin : HalOp → Option (Pin × PinMode)
  | .pinInit p m => some (p, m)
  | _ => none

end HalOp

/-- How the timers and pins are set up. -/
structure Chip where
  timer : Nat → TimerMode
  pin : Pin → PinMode

namespace Chip

def reset : Chip := ⟨fun _ => .reset, fun _ => .reset⟩

/-- An access, with its peripheral clocked or not. -/
def exec (c : Chip) : HalOp → Chip
  | .timerInit t m => { c with timer := Function.update c.timer t m }
  | .pinInit p m => { c with pin := Function.update c.pin p m }
  | _ => c

def run (c : Chip) (ops : List HalOp) : Chip := ops.foldl exec c

end Chip

-- ================================================= the dispatchers and clocks

/-- The instances `lino_tim_clk_enable`, `lino_gpio_clk_enable` and
`lino_i2c_clk_enable` list. -/
def Periph.Dispatched : Periph → Prop
  | .tim n => n ∈ [1, 2, 3, 4, 5, 8]
  | .gpio port => port ∈ [0, 1, 2, 3]
  | .i2c n => n ∈ [1, 2, 3]

instance : DecidablePred Periph.Dispatched
  | .tim n => inferInstanceAs (Decidable (n ∈ _))
  | .gpio port => inferInstanceAs (Decidable (port ∈ _))
  | .i2c n => inferInstanceAs (Decidable (n ∈ _))

/-- The dispatch on one instance. -/
def clkEnable (p : Periph) : List HalOp :=
  if p.Dispatched then [.clockEnable p] else []

/-- What `lino_tim_clk_hz` asks the RCC for: the clocks of the two buses and
what they are divided by. -/
structure RccClocks where
  pclk1 : Nat
  pclk2 : Nat
  apb1ClkDivider : Nat
  apb2ClkDivider : Nat

/-- `lino_tim_clk_hz`. -/
def linoTimClkHz (clk : RccClocks) (tim : Nat) : Nat :=
  let apb1 := tim ∈ [2, 3, 4, 5, 6, 7, 12, 13, 14]
  let pclk := if apb1 then clk.pclk1 else clk.pclk2
  let div := if apb1 then clk.apb1ClkDivider else clk.apb2ClkDivider
  if div = 1 then pclk else pclk * 2 % 2 ^ 32

-- ================================================================ the drivers

/-- A driver's `init`: it enables the clocks of what it uses and then
programs that and nothing else. -/
structure Driver where
  uses : List Periph
  ops : List HalOp
  access_mem : ∀ op ∈ ops, ∃ p ∈ uses, op.access = some p
  used : ∀ p ∈ uses, ∃ op ∈ ops, op.access = some p

namespace Driver

/-- The whole of `init`. -/
def init (d : Driver) : List HalOp := d.uses.flatMap clkEnable ++ d.ops

/-- The `init` of a driver that is not used. -/
def unused : Driver where
  uses := []
  ops := []
  access_mem _ h := absurd h List.not_mem_nil
  used _ h := absurd h List.not_mem_nil

end Driver

/-- `struct EncoderDesc`. -/
structure EncoderDesc where
  tim : Nat
  af : Nat
  pinA : Pin
  pinB : Pin
  is32 : Bool

/-- `struct PwmDesc`. -/
structure PwmPinDesc extends PwmDesc Nat where
  af : Nat
  pin : Pin

/-- `struct I2cDesc`. -/
structure I2cDesc where
  i2c : Nat
  af : Nat
  scl : Pin
  sda : Pin
  clockSpeed : Nat

/-- The descriptor tables of a board header, and `lino_tim_clk_hz`. Without
an I2C bus the build is that of the fake IMU. -/
structure BoardTables where
  encDescriptors : Int → EncoderDesc
  pwmDescriptors : Int → PwmPinDesc
  dirDescriptors : Int → Pin
  imuI2c : Option I2cDesc
  timClkHz : Nat → Nat

/-- What one encoder and one motor are constructed from. -/
structure WheelArgs (F : Type) where
  encoderA : Int
  countsPerRev : Int
  motor : MotorArgs F

/-- `used_` of the encoder. -/
def WheelArgs.encoderUsed {F : Type} (w : WheelArgs F) : Bool :=
  decide (0 ≤ w.encoderA) && decide (0 < w.countsPerRev)

/-- `lino_time_init`. Its one `__HAL_RCC_TIM5_CLK_ENABLE` is what the
dispatcher does about TIM5. -/
def linoTimeInit (clkHz : Nat) : Driver where
  uses := [.tim 5]
  ops :=
    let presc := clkHz / 1000000
    [.timerInit 5 (.freeRunning (if 0 < presc then presc - 1 else 0))]
  access_mem := by simp [HalOp.access]
  used := by simp [HalOp.access]

/-- `Encoder::init`. -/
def EncoderDesc.driver (d : EncoderDesc) : Driver where
  uses := [.tim d.tim, .gpio d.pinA.port, .gpio d.pinB.port]
  ops :=
    [.pinInit d.pinA (.alternate d.af), .pinInit d.pinB (.alternate d.af),
      .timerInit d.tim (.quadrature d.is32), .timerChannel d.tim]
  access_mem := by simp [HalOp.access]
  used := by simp [HalOp.access]

/-- `Generic2::init`, on the descriptors of its three ids; `claimed` is
what `pwm_base_claim` returned. -/
def PwmPinDesc.driver (p : PwmPinDesc) (a b : Pin) (t : PwmTiming)
    (claimed : Bool) : Driver where
  uses := [.tim p.tim, .gpio p.pin.port, .gpio a.port, .gpio b.port]
  ops :=
    (if claimed then [.timerInit p.tim (.pwm t)] else [])
      ++ [.pinInit p.pin (.alternate p.af),
        .timerChannel p.tim, .timerChannel p.tim, .timerChannel p.tim,
        .pinInit a .output, .pinInit b .output, .pinReset a, .pinReset b]
  access_mem := by cases claimed <;> simp [HalOp.access]
  used := by cases claimed <;> simp [HalOp.access]

/-- `I2cBus::init`. -/
def I2cDesc.driver (d : I2cDesc) : Driver where
  uses := [.i2c d.i2c, .gpio d.scl.port, .gpio d.sda.port]
  ops :=
    [.pinInit d.scl (.openDrain d.af), .pinInit d.sda (.openDrain d.af),
      .i2cInit d.i2c d.clockSpeed]
  access_mem := by simp [HalOp.access]
  used := by simp [HalOp.access]

namespace BoardTables

variable {F : Type} [CFloat F] (B : BoardTables)

/-- `enc[i]->init()`. -/
def encoderInit (w : WheelArgs F) : Driver :=
  if w.encoderUsed then (B.encDescriptors w.encoderA).driver
  else .unused

/-- `mot[i]->init()`, and the claim table after it. -/
def motorInit (a : MotorArgs F) (claims : List (Option Nat)) :
    Driver × List (Option Nat) :=
  if a.used then
    let p := B.pwmDescriptors a.pwmId
    let t := pwmTiming (B.timClkHz p.tim) a.pwmFrequency a.pwmBits
    let claim := pwmBaseClaim p.tim claims
    (p.driver (B.dirDescriptors a.inAId) (B.dirDescriptors a.inBId) t
      claim.1, claim.2)
  else (.unused, claims)

/-- The loop over the wheels. -/
def wheelInits : List (WheelArgs F) → List (Option Nat) → List Driver
  | [], _ => []
  | w :: rest, claims =>
      let m := B.motorInit w.motor claims
      B.encoderInit w :: m.1 :: wheelInits rest m.2

/-- `control_loop_init`, driver by driver. -/
def drivers (wheels : Fin 4 → WheelArgs F) : List Driver :=
  linoTimeInit (B.timClkHz 5)
    :: B.wheelInits (List.ofFn wheels) (List.replicate 8 none)
    ++ B.imuI2c.toList.map I2cDesc.driver

/-- All it does. -/
def bringUp (wheels : Fin 4 → WheelArgs F) : List HalOp :=
  (B.drivers wheels).flatMap Driver.init

end BoardTables

-- ==================================================== the configured board

/-- The clocks the firmware stays at: 16 MHz, undivided. -/
def hsi16 : RccClocks := ⟨16000000, 16000000, 1, 1⟩

/-- The tables of `config/f446re_config.h`. -/
def f446reBoard : BoardTables where
  encDescriptors
    | 1 => ⟨3, 2, ⟨0, 6⟩, ⟨0, 7⟩, false⟩
    | 2 => ⟨4, 2, ⟨1, 6⟩, ⟨1, 7⟩, false⟩
    | 3 => ⟨1, 1, ⟨0, 8⟩, ⟨0, 9⟩, false⟩
    | _ => ⟨2, 1, ⟨0, 0⟩, ⟨0, 1⟩, true⟩
  pwmDescriptors
    | 1 => ⟨⟨8, 0x4⟩, 3, ⟨2, 7⟩⟩
    | 2 => ⟨⟨8, 0x8⟩, 3, ⟨2, 8⟩⟩
    | 3 => ⟨⟨8, 0xC⟩, 3, ⟨2, 9⟩⟩
    | _ => ⟨⟨8, 0x0⟩, 3, ⟨2, 6⟩⟩
  dirDescriptors id := ⟨2, id.toNat⟩
  imuI2c := some ⟨1, 4, ⟨1, 8⟩, ⟨1, 9⟩, 100000⟩
  timClkHz := linoTimClkHz hsi16

/-- What `control_loop_init` constructs encoders and motors from. -/
def f446reWheels (w : Fin 4) : WheelArgs ℚ where
  encoderA := (f446re (F := ℚ)).motorEncoderA w
  countsPerRev := (f446re (F := ℚ)).countsPerRev w
  motor := f446reMotors.get ⟨w, by simp [f446reMotors]⟩

end LinoStm32
