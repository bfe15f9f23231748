/-
Quadrature encoders: the count-to-speed arithmetic of
`Inc/encoder_math.h` and the wheel encoder of `Src/stm32_encoder.cpp`
around it.

The first `update` after construction or `set_position` only seeds the
stored counter and time and returns 0. Every later one takes the signed
modular count difference at the counter's own width and the unsigned
modular microsecond difference, and stores both readings again even when
the interval is 0.
-/
import LinoStm32.Num
import LinoStm32.Lib.Clock

namespace LinoStm32

/-- `uint32_t`. -/
abbrev UInt32T := BitVec 32

-- ========================================================== EncoderMath

/-- `class EncoderMath`. -/
structure EncoderMath where
  cpr : Int
  is32 : Bool
  invert : Bool
  first : Bool
  prevCnt : UInt32T
  prevUs : UInt32T
  accum : BitVec 64

namespace EncoderMath

/-- The constructor with the member initialisers. -/
def new (countsPerRev : Int) (is32 invert : Bool) : EncoderMath where
  cpr := countsPerRev
  is32 := is32
  invert := invert
  first := true
  prevCnt := 0
  prevUs := 0
  accum := 0

/-- The signed count change: the full 32-bit difference, or the
difference of the low halves narrowed to `int16_t`; negated when the
encoder is inverted. -/
def delta (m : EncoderMath) (cnt : UInt32T) : Int :=
  let raw := if m.is32 then (cnt - m.prevCnt).toInt
    else (cnt.setWidth 16 - m.prevCnt.setWidth 16).toInt
  if m.invert then -raw else raw

/-- `EncoderMath::update`: revolutions a minute since the last call. -/
def update {F : Type} [CFloat F] (m : EncoderMath) (cnt nowUs : UInt32T) :
    F × EncoderMath :=
  if m.cpr ≤ 0 then (((0 : Int) : F), m)
  else if m.first then
    (((0 : Int) : F),
      { m with first := false, prevCnt := cnt, prevUs := nowUs })
  else
    let delta := m.delta cnt
    let dt := nowUs - m.prevUs
    let m' := { m with
      accum := m.accum + BitVec.ofInt 64 delta
      prevCnt := cnt
      prevUs := nowUs }
    if dt = 0 then (((0 : Int) : F), m')
    else
      let dtMin := ((dt.toNat : Int) : F) / ((60000000 : Int) : F)
      (((delta : Int) : F) / ((m.cpr : Int) : F) / dtMin, m')

section Update

variable {F : Type} [CFloat F] {m : EncoderMath} (cnt nowUs : UInt32T)

/-- An unused encoder does nothing. -/
theorem update_unused (hcpr : m.cpr ≤ 0) :
    m.update (F := F) cnt nowUs = (((0 : Int) : F), m) := if_pos hcpr

/-- The first sample only seeds. -/
theorem update_first (hcpr : 0 < m.cpr) (hfirst : m.first = true) :
    m.update (F := F) cnt nowUs
      = (((0 : Int) : F),
        { m with first := false, prevCnt := cnt, prevUs := nowUs }) := by
  rw [update, if_neg (by omega), if_pos hfirst]

/-- A later sample over an interval that is not 0: counts to revolutions,
over microseconds to minutes. -/
theorem update_sample (hcpr : 0 < m.cpr) (hfirst : m.first = false)
    (hdt : nowUs - m.prevUs ≠ 0) :
    m.update (F := F) cnt nowUs
      = (((m.delta cnt : Int) : F) / ((m.cpr : Int) : F)
          / ((((nowUs - m.prevUs).toNat : Int) : F)
            / ((60000000 : Int) : F)),
        { m with
          accum := m.accum + BitVec.ofInt 64 (m.delta cnt)
          prevCnt := cnt
          prevUs := nowUs }) := by
  have hcpr' : ¬ m.cpr ≤ 0 := by omega
  have hnot : ¬ m.first = true := by rw [hfirst]; decide
  rw [update, if_neg hcpr', if_neg hnot]
  exact if_neg hdt

/-- A later sample over no interval: the counts are kept, the speed is
0. -/
theorem update_still (hcpr : 0 < m.cpr) (hfirst : m.first = false)
    (hdt : nowUs - m.prevUs = 0) :
    m.update (F := F) cnt nowUs
      = (((0 : Int) : F),
        { m with
          accum := m.accum + BitVec.ofInt 64 (m.delta cnt)
          prevCnt := cnt
          prevUs := nowUs }) := by
  have hcpr' : ¬ m.cpr ≤ 0 := by omega
  have hnot : ¬ m.first = true := by rw [hfirst]; decide
  rw [update, if_neg hcpr', if_neg hnot]
  exact if_pos hdt

/-- No update changes the counter's width. -/
theorem update_is32 (m : EncoderMath) (cnt nowUs : UInt32T) :
    (m.update (F := F) cnt nowUs).2.is32 = m.is32 := by
  rcases le_or_gt m.cpr 0 with hunused | hpos
  · rw [update_unused cnt nowUs hunused]
  cases hf : m.first with
  | true => rw [update_first cnt nowUs hpos hf]
  | false =>
      by_cases hdt : nowUs - m.prevUs = 0
      · rw [update_still cnt nowUs hpos hf hdt]
      · rw [update_sample cnt nowUs hpos hf hdt]

end Update

/-- How many bits of its counter an encoder counts with. -/
def counterBits (is32 : Bool) : Nat := if is32 then 32 else 16

/-- What the counter register of an encoder of either width shows after a
signed number of counts. -/
def counterReg (is32 : Bool) (count : Int) : UInt32T :=
  if is32 then BitVec.ofInt 32 count else (BitVec.ofInt 16 count).setWidth 32

/-- While the change fits the counter's width, the difference of two
readings is the true signed change. -/
theorem delta_counterReg {m : EncoderMath} (hinv : m.invert = false)
    {a b : Int} (hprev : m.prevCnt = counterReg m.is32 a)
    (hlo : -2 ^ counterBits m.is32 ≤ 2 * (b - a))
    (hhi : 2 * (b - a) < 2 ^ counterBits m.is32) :
    m.delta (counterReg m.is32 b) = b - a := by
  unfold delta
  rw [hinv, hprev]
  cases hw : m.is32 with
  | true =>
      rw [hw] at hlo hhi
      exact Lib.signed_delta 32 hlo hhi
  | false =>
      rw [hw] at hlo hhi
      have hlow : ∀ c : Int, (counterReg false c).setWidth 16
          = BitVec.ofInt 16 c := fun c => by
        show ((BitVec.ofInt 16 c).setWidth 32).setWidth 16 = _
        rw [BitVec.setWidth_setWidth_of_le _ (by decide), BitVec.setWidth_eq]
      show ((counterReg false b).setWidth 16
        - (counterReg false a).setWidth 16).toInt = b - a
      rw [hlow, hlow]
      exact Lib.signed_delta 16 hlo hhi

/-- A change as an encoder of either inversion counts it. -/
def signed (invert : Bool) (change : Int) : Int :=
  if invert then -change else change

theorem signed_zero (invert : Bool) : signed invert 0 = 0 := by
  cases invert <;> rfl

theorem signed_add (invert : Bool) (a b : Int) :
    signed invert (a + b) = signed invert a + signed invert b := by
  cases invert with
  | false => rfl
  | true => exact neg_add a b

/-- The signed 32-bit values `update` computes on the way to the count
change. At 16 bits the operands are promoted to `int` before they are
subtracted. -/
def ints (m : EncoderMath) (cnt : UInt32T) : List Int :=
  if m.cpr ≤ 0 ∨ m.first then []
  else
    let promoted :=
      ((cnt.setWidth 16).toNat : Int) - ((m.prevCnt.setWidth 16).toNat : Int)
    let raw := if m.is32 then (cnt - m.prevCnt).toInt
      else (cnt.setWidth 16 - m.prevCnt.setWidth 16).toInt
    (if m.is32 then [] else [promoted]) ++ [raw]
      ++ if m.invert then [-raw] else []

section Change

variable {m : EncoderMath} {a b : Int}

/-- The difference of two readings before the inversion. -/
theorem raw_counterReg (hprev : m.prevCnt = counterReg m.is32 a)
    (hchange : |b - a| < 2 ^ (counterBits m.is32 - 1)) :
    (if m.is32 then (counterReg m.is32 b - m.prevCnt).toInt
      else ((counterReg m.is32 b).setWidth 16
        - m.prevCnt.setWidth 16).toInt) = b - a := by
  obtain ⟨hlo, hhi⟩ := abs_lt.mp hchange
  have hpow : (2 : Int) ^ counterBits m.is32
      = 2 * 2 ^ (counterBits m.is32 - 1) := by
    cases m.is32 <;> rfl
  have hlo' : -2 ^ counterBits m.is32 ≤ 2 * (b - a) := by
    rw [hpow]
    omega
  have hhi' : 2 * (b - a) < 2 ^ counterBits m.is32 := by
    rw [hpow]
    omega
  exact delta_counterReg (m := { m with invert := false }) rfl hprev
    hlo' hhi'

/-- An encoder of either inversion counts the true change, signed. -/
theorem delta_eq_signed (hprev : m.prevCnt = counterReg m.is32 a)
    (hchange : |b - a| < 2 ^ (counterBits m.is32 - 1)) :
    m.delta (counterReg m.is32 b) = signed m.invert (b - a) := by
  unfold delta signed
  rw [raw_counterReg hprev hchange]

/-- No value on the way leaves the 32 bits. -/
theorem ints_mem (hprev : m.prevCnt = counterReg m.is32 a)
    (hchange : |b - a| < 2 ^ (counterBits m.is32 - 1)) {v : Int}
    (hv : v ∈ m.ints (counterReg m.is32 b)) : -2 ^ 31 ≤ v ∧ v < 2 ^ 31 := by
  have hraw := raw_counterReg hprev hchange
  obtain ⟨hlo, hhi⟩ := abs_lt.mp hchange
  have hbits : (2 : Int) ^ (counterBits m.is32 - 1) ≤ 2 ^ 31 := by
    cases m.is32 <;> decide
  have h16 : ∀ c : UInt32T, (c.setWidth 16).toNat < 65536 :=
    fun c => (c.setWidth 16).isLt
  have hnew := h16 (counterReg m.is32 b)
  have hold := h16 m.prevCnt
  unfold ints at hv
  split at hv
  · exact absurd hv (by simp)
  · simp only [hraw, List.mem_append] at hv
    rcases hv with (hv | hv) | hv
    · split at hv
      · exact absurd hv (by simp)
      · obtain rfl := List.mem_singleton.mp hv
        omega
    · obtain rfl := List.mem_singleton.mp hv
      omega
    · split at hv
      · obtain rfl := List.mem_singleton.mp hv
        omega
      · exact absurd hv (by simp)

end Change

/-- `EncoderMath::position`: the low 32 bits of the accumulator. -/
def position (m : EncoderMath) : Int := (m.accum.setWidth 32).toInt

/-- `EncoderMath::set_position`: the next `update` seeds again. -/
def setPosition (m : EncoderMath) (p : BitVec 32) : EncoderMath :=
  { m with accum := p.signExtend 64, first := true }

end EncoderMath

-- ============================================================== Encoder

/-- `class Encoder`, without the timer handle: whether the wheel is
used, and the arithmetic. -/
structure Encoder where
  used : Bool
  math : EncoderMath

namespace Encoder

/-- The constructor followed by `Encoder::init`, which only fixes the
counter width of a used encoder. `is32` is the width its descriptor
gives. -/
def new (pin1 countsPerRev : Int) (invert is32 : Bool) : Encoder :=
  let used := decide (0 ≤ pin1) && decide (0 < countsPerRev)
  { used := used
    math := if used then EncoderMath.new countsPerRev is32 invert
      else EncoderMath.new (-1) false invert }

/-- `Encoder::getRPM(now_us)`, with the timer's counter register as an
argument. -/
def getRPM {F : Type} [CFloat F] (e : Encoder) (counter nowUs : UInt32T) :
    F × Encoder :=
  if e.used then
    let r := e.math.update counter nowUs
    (r.1, { e with math := r.2 })
  else (((0 : Int) : F), e)

theorem getRPM_used {F : Type} [CFloat F] {e : Encoder}
    (h : e.used = true) (counter nowUs : UInt32T) :
    e.getRPM (F := F) counter nowUs
      = ((e.math.update counter nowUs).1,
        { e with math := (e.math.update (F := F) counter nowUs).2 }) :=
  if_pos h

theorem getRPM_unused {F : Type} [CFloat F] {e : Encoder}
    (h : e.used = false) (counter nowUs : UInt32T) :
    e.getRPM (F := F) counter nowUs = (((0 : Int) : F), e) :=
  if_neg (by rw [h]; exact Bool.false_ne_true)

/-- `Encoder::read`. -/
def read (e : Encoder) : Int := if e.used then e.math.position else 0

end Encoder

end LinoStm32
