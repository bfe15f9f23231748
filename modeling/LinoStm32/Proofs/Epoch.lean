/-
No run depends on when it starts: not on the millisecond tick, not on the
microsecond timer, not on what the encoder counters show at power-on.

The loop subtracts each clock from an earlier reading of the same clock,
and each counter from an earlier reading of the same counter, in the
arithmetic of the register it reads. A constant added to all readings of a
register falls out of every difference, also where one of the two runs
passes the register's end and the other does not. So two runs that differ
by such constants go in lockstep (`Lib.Mealy.simulation`): what they keep
of the registers differs by the constants, and nothing else differs.

The first sample of an encoder subtracts nothing, which is why what it
holds before that is left out of the relation.
-/
import LinoStm32.ControlLoop
import Mathlib.Data.BitVec

namespace LinoStm32

-- ============================================================== registers

/-- What the counter register of either width shows when it started `c`
further on. -/
def shiftReg (is32 : Bool) (c r : UInt32T) : UInt32T :=
  if is32 then r + c else (r.setWidth 16 + c.setWidth 16).setWidth 32

/-- Two readings of a register that started further on have the same
difference. -/
theorem sub_shift {n : Nat} (a b c : BitVec n) : a + c - (b + c) = a - b :=
  add_sub_add_right_eq_sub a b c

theorem linoMillis_add (t k : Nat) :
    linoMillis (t + k) = linoMillis t + linoMillis k :=
  BitVec.ofNat_add t k

-- =============================================================== encoders

namespace EncoderMath

/-- The same encoder, its registers started `c` and `j` further on. -/
structure Shifted (c j : UInt32T) (m m' : EncoderMath) : Prop where
  eq : m' = { m with prevCnt := m'.prevCnt, prevUs := m'.prevUs }
  prevCnt : m.first = false →
    (if m.is32 then m'.prevCnt = m.prevCnt + c
      else m'.prevCnt.setWidth 16 = m.prevCnt.setWidth 16 + c.setWidth 16)
  prevUs : m.first = false → m'.prevUs = m.prevUs + j

variable {c j : UInt32T} {m m' : EncoderMath}

/-- The count change is the same. -/
theorem Shifted.delta (h : Shifted c j m m') (hfirst : m.first = false)
    (cnt : UInt32T) :
    m'.delta (shiftReg m.is32 c cnt) = m.delta cnt := by
  have hcnt := h.prevCnt hfirst
  have his32 : m'.is32 = m.is32 := by rw [h.eq]
  have hinv : m'.invert = m.invert := by rw [h.eq]
  unfold EncoderMath.delta shiftReg
  rw [his32, hinv]
  cases hw : m.is32 with
  | true =>
      rw [hw, if_pos rfl] at hcnt
      simp only [if_true, hcnt, sub_shift]
  | false =>
      rw [hw, if_neg Bool.false_ne_true] at hcnt
      simp only [Bool.false_eq_true, if_false, hcnt,
        BitVec.setWidth_setWidth_of_le _ (show 16 ≤ 32 by decide),
        BitVec.setWidth_eq, sub_shift]

/-- What an encoder has read, in both runs, is one reading further on. -/
theorem Shifted.read (h : Shifted c j m m') (cnt us : UInt32T)
    {f f' : Bool} (hf : f' = f) {a a' : BitVec 64} (ha : a' = a) :
    Shifted c j
      { m with first := f, accum := a, prevCnt := cnt, prevUs := us }
      { m' with
        first := f'
        accum := a'
        prevCnt := shiftReg m.is32 c cnt
        prevUs := us + j } := by
  refine ⟨by rw [h.eq, hf, ha], fun _ => ?_, fun _ => rfl⟩
  show if m.is32 then shiftReg m.is32 c cnt = cnt + c
    else (shiftReg m.is32 c cnt).setWidth 16
      = cnt.setWidth 16 + c.setWidth 16
  cases m.is32 with
  | true => rfl
  | false =>
      show ((cnt.setWidth 16 + c.setWidth 16).setWidth 32).setWidth 16 = _
      rw [BitVec.setWidth_setWidth_of_le _ (by decide), BitVec.setWidth_eq]

variable {F : Type} [CFloat F]

/-- An update returns the same speed. -/
theorem Shifted.update (h : Shifted c j m m') (cnt us : UInt32T) :
    (m'.update (F := F) (shiftReg m.is32 c cnt) (us + j)).1
        = (m.update (F := F) cnt us).1
      ∧ Shifted c j (m.update (F := F) cnt us).2
          (m'.update (F := F) (shiftReg m.is32 c cnt) (us + j)).2 := by
  have hcpr : m'.cpr = m.cpr := by rw [h.eq]
  have hfirst : m'.first = m.first := by rw [h.eq]
  have haccum : m'.accum = m.accum := by rw [h.eq]
  rcases le_or_gt m.cpr 0 with hunused | hpos
  · rw [update_unused cnt us hunused, update_unused _ _ (hcpr ▸ hunused)]
    exact ⟨rfl, h⟩
  cases hf : m.first with
  | true =>
      rw [update_first cnt us hpos hf,
        update_first _ _ (hcpr ▸ hpos) (hfirst ▸ hf)]
      exact ⟨rfl, h.read cnt us rfl haccum⟩
  | false =>
      have hdelta := h.delta hf cnt
      have hdt : us + j - m'.prevUs = us - m.prevUs := by
        rw [h.prevUs hf, sub_shift]
      have hread := h.read cnt us hfirst
        (congrArg₂ (fun a d => a + BitVec.ofInt 64 d) haccum hdelta)
      by_cases hstill : us - m.prevUs = 0
      · rw [update_still cnt us hpos hf hstill,
          update_still _ _ (hcpr ▸ hpos) (hfirst ▸ hf) (hdt ▸ hstill)]
        exact ⟨rfl, hread⟩
      · rw [update_sample cnt us hpos hf hstill,
          update_sample _ _ (hcpr ▸ hpos) (hfirst ▸ hf) (hdt ▸ hstill),
          hdelta, hdt, hcpr]
        rw [hdelta, hcpr] at hread
        exact ⟨rfl, hread⟩

end EncoderMath

-- =============================================================== the loop

variable {F : Type} [CFloat F] {I : ImuDriver F}

/-- A wheel's encoder in both runs. An unused one is the same; `is32` is
the width of the counter of a used one. -/
structure Encoder.Shifted (is32 : Bool) (c j : UInt32T) (e e' : Encoder) :
    Prop where
  used : e'.used = e.used
  is32 : e.used = true → e.math.is32 = is32
  math : e.used = true → e.math.Shifted c j e'.math

theorem Encoder.Shifted.getRPM {is32 : Bool} {c j : UInt32T}
    {e e' : Encoder} (h : e.Shifted is32 c j e') (cnt us : UInt32T) :
    (e'.getRPM (F := F) (shiftReg is32 c cnt) (us + j)).1
        = (e.getRPM (F := F) cnt us).1
      ∧ (e.getRPM (F := F) cnt us).2.Shifted is32 c j
          (e'.getRPM (F := F) (shiftReg is32 c cnt) (us + j)).2 := by
  cases hu : e.used with
  | false =>
      rw [Encoder.getRPM_unused hu, Encoder.getRPM_unused (h.used.trans hu)]
      exact ⟨rfl, h⟩
  | true =>
      have hmath := (h.math hu).update (F := F) cnt us
      have his32 := EncoderMath.update_is32 (F := F) e.math cnt us
      rw [h.is32 hu] at hmath his32
      rw [Encoder.getRPM_used hu, Encoder.getRPM_used (h.used.trans hu)]
      exact ⟨hmath.1, h.used, fun _ => his32, fun _ => hmath.2⟩

/-- The loop in both runs: the clock readings it keeps are `k` apart, its
encoders are as above, and the rest is the same. -/
structure ControlLoop.Shifted (is32 : Fin 4 → Bool) (k j : UInt32T)
    (c : Fin 4 → UInt32T) (s s' : ControlLoop F (encoders F) I) : Prop where
  eq : s' = { s with
    prevCmdMs := s.prevCmdMs + k
    prevOdomMs := s.prevOdomMs + k
    enc := s'.enc }
  enc : ∀ w, (s.enc w).Shifted (is32 w) (c w) j (s'.enc w)

/-- The same call, `k` milliseconds later, the microsecond timer `j` and
the counters `c` further on. -/
def Call.shift (is32 : Fin 4 → Bool) (k : Nat) (j : UInt32T)
    (c : Fin 4 → UInt32T) : Call (encoders F) I → Call (encoders F) I
  | .setCmd t cmd => .setCmd (t + k) cmd
  | .tick t inp bus =>
      .tick (t + k) (inp.1 + j, fun w => shiftReg (is32 w) (c w) (inp.2 w))
        bus

variable {is32 : Fin 4 → Bool} {k : Nat} {j : UInt32T}
  {c : Fin 4 → UInt32T} {s s' : ControlLoop F (encoders F) I}

/-- The IMU part of a tick reads no clock and no encoder. -/
theorem imuTick_registers (bus : I.Bus) (a b : UInt32T)
    (e : (encoders F).State) (s : ControlLoop F (encoders F) I) :
    imuTick bus { s with prevCmdMs := a, prevOdomMs := b, enc := e }
      = { imuTick bus s with prevCmdMs := a, prevOdomMs := b, enc := e } := by
  unfold imuTick
  split
  · rfl
  · rfl

theorem deadman_shift (now last k : UInt32T) (cmd : Cmd F) :
    deadman (now + k) (last + k) cmd = deadman now last cmd := by
  rw [deadman, sub_shift, deadman]

theorem odomDt_shift (now last k : UInt32T) :
    odomDt (F := F) (now + k) (last + k) = odomDt now last := by
  rw [odomDt, sub_shift, odomDt]

/-- One call hands out the same. -/
theorem ControlLoop.Shifted.exec (T : Trig F)
    (h : s.Shifted is32 (linoMillis k) j c s')
    (call : Call (encoders F) I) :
    (Call.exec T s call).1.Shifted is32 (linoMillis k) j c
        (Call.exec T s' (call.shift is32 k j c)).1
      ∧ (Call.exec T s call).2
          = (Call.exec T s' (call.shift is32 k j c)).2 := by
  cases call with
  | setCmd t cmd =>
      refine ⟨⟨?_, h.enc⟩, rfl⟩
      show controlSetCmd (t + k) cmd s' = _
      rw [h.eq, controlSetCmd, linoMillis_add]
      rfl
  | tick t inp bus =>
      obtain ⟨enc, rfl⟩ : ∃ enc, s' = { s with
          prevCmdMs := s.prevCmdMs + linoMillis k
          prevOdomMs := s.prevOdomMs + linoMillis k
          enc := enc } := ⟨_, h.eq⟩
      have hrpm : (fun w => ((enc w).getRPM (F := F)
          (shiftReg (is32 w) (c w) (inp.2 w)) (inp.1 + j)).1)
          = fun w => ((s.enc w).getRPM (inp.2 w) inp.1).1 :=
        funext fun w => ((h.enc w).getRPM (inp.2 w) inp.1).1
      have hnext := fun w => ((h.enc w).getRPM (F := F) (inp.2 w) inp.1).2
      show (controlLoopTick T t inp bus s).1.Shifted _ _ _ _
          (controlLoopTick T (t + k) _ bus _).1
        ∧ some (controlLoopTick T t inp bus s).2
          = some (controlLoopTick T (t + k) _ bus _).2
      unfold controlLoopTick
      dsimp only
      rw [linoMillis_add, deadman_shift, odomDt_shift, hrpm]
      refine ⟨⟨?_, ?_⟩, rfl⟩
      · rw [imuTick_enc, imuTick_prevCmdMs, imuTick_prevOdomMs]
        exact imuTick_registers bus _ _ _
          (publishOdom _ { s with
            prevOdomMs := linoMillis t
            enc := fun w => ((s.enc w).getRPM (F := F) (inp.2 w) inp.1).2
            core := _ })
      · intro w
        rw [imuTick_enc, imuTick_enc]
        exact hnext w

/-- The counter widths a board gives its wheels. -/
def BoardConfig.wheelIs32 (cfg : BoardConfig F) (w : Fin 4) : Bool :=
  cfg.encIs32 (cfg.motorEncoderA w)

omit [CFloat F] in
theorem BoardConfig.encoders_first (cfg : BoardConfig F) (w : Fin 4) :
    (cfg.encoders w).math.first = true := by
  show (Encoder.new _ _ _ _).math.first = true
  unfold Encoder.new
  dsimp only
  split
  · rfl
  · rfl

omit [CFloat F] in
/-- Before the first sample the registers are not looked at. -/
theorem BoardConfig.encoders_shifted (cfg : BoardConfig F) (j : UInt32T)
    (c : Fin 4 → UInt32T) (w : Fin 4) :
    (cfg.encoders w).Shifted (cfg.wheelIs32 w) (c w) j (cfg.encoders w) := by
  refine ⟨rfl, fun hused => ?_, fun hused => ⟨rfl, ?_, ?_⟩⟩
  · show (Encoder.new _ _ _ _).math.is32 = _
    have hused' : (decide (0 ≤ cfg.motorEncoderA w)
        && decide (0 < cfg.countsPerRev w)) = true := hused
    simp only [Encoder.new, hused', if_true]
    rfl
  · intro hfirst
    rw [cfg.encoders_first w] at hfirst
    cases hfirst
  · intro hfirst
    rw [cfg.encoders_first w] at hfirst
    cases hfirst

/-- Two runs of the same commands and the same motion, from power-on states
whose clocks and counters show anything: every tick steps on the same
command, speeds and interval, spins the motors the same, and publishes the
same odometry and IMU sample. -/
theorem epoch_irrelevant (cfg : BoardConfig F) (T : Trig F) (imu : I.State)
    (imuOk : Bool) (t₀ k : Nat) (j : UInt32T) (c : Fin 4 → UInt32T)
    (calls : List (Call (encoders F) I)) :
    let M := loopMachine F (encoders F) I T
    let s : ControlLoop F (encoders F) I :=
      controlLoopInit cfg cfg.encoders imu imuOk t₀
    let s' : ControlLoop F (encoders F) I :=
      controlLoopInit cfg cfg.encoders imu imuOk (t₀ + k)
    let calls' := calls.map (Call.shift cfg.wheelIs32 k j c)
    M.outputs s' calls' = M.outputs s calls
      ∧ controlGetOdom (M.final s' calls') = controlGetOdom (M.final s calls)
      ∧ controlGetImu (M.final s' calls')
          = controlGetImu (M.final s calls) := by
  intro M s s' calls'
  have hstart : s.Shifted cfg.wheelIs32 (linoMillis k) j c s' := by
    refine ⟨?_, cfg.encoders_shifted j c⟩
    show { s with
        prevCmdMs := linoMillis (t₀ + k)
        prevOdomMs := linoMillis (t₀ + k) } = _
    rw [linoMillis_add]
    rfl
  obtain ⟨hfinal, houts⟩ := Lib.Mealy.simulation (M := M) (N := M)
    (Q := Eq) (fun _ _ i h => h.exec T i) hstart calls
  refine ⟨(List.forall₂_eq_eq_eq ▸ houts).symm, ?_, ?_⟩
  · show (M.final s' calls').last = _
    rw [hfinal.eq]
    rfl
  · show (M.final s' calls').imuSnap = _
    rw [hfinal.eq]
    rfl

end LinoStm32
