/-
From the controllers to the H-bridges: what the direction pins and the
compare value of every motor say after each control step.

A motor's three lines (two direction pins, one timer channel) are read
as a `Bridge`, and `forward`, `reverse`, `brake` and `spin` have their
meaning on it. The driver refines that (`bridge_spin`): spinning a motor
is the bridge's own `spin` on the motor's lines, and nothing on lines
apart from them. The rest is about integers: a duty inside the timer's
range reaches the compare value unclamped, with its sign on the pins.

Braking leaves the pins where they were. What carries over from step to
step is therefore only that they are not both high.

# The timer's range

A motor's `arr_` is what `init` computed for it. The auto-reload register
belongs to the timer and is written by whichever motor claimed it
(`Based`): the same value, because all motors have the board's one PWM
resolution.
-/
import LinoStm32.Proofs.PwmStart

namespace LinoStm32

-- ============================================================ the bridge

/-- What one H-bridge is fed: the compare value and the two direction
levels. -/
@[ext] structure Bridge where
  ccr : Nat
  a : Bool
  b : Bool

namespace Bridge

/-- The signed drive, where the pins and the compare value determine
one. -/
def drive (g : Bridge) : Option Int :=
  if g.ccr = 0 then some 0
  else
    match g.a, g.b with
    | true, false => some g.ccr
    | false, true => some (-(g.ccr : Int))
    | _, _ => none

def BothHigh (g : Bridge) : Prop := g.a = true ∧ g.b = true

/-- The sign flip of `spin`. -/
def signed (invert : Bool) (pwm : Int) : Int :=
  if invert then pwm * -1 else pwm

/-- The dispatch of `spin`: forward, reverse, or brake. -/
def steer (arr : Nat) (d : Int) (g : Bridge) : Bridge :=
  if 0 < d then ⟨pwmClamp d arr, true, false⟩
  else if d < 0 then ⟨pwmClamp |d| arr, false, true⟩
  else { g with ccr := 0 }

/-- `MotorInterface::spin` on the bridge of a motor. -/
def spin (invert : Bool) (arr : Nat) (pwm : Int) (g : Bridge) : Bridge :=
  g.steer arr (signed invert pwm)

/-- What a wheel's turn in the loop does to its bridge: nothing where
the wheel is skipped. -/
def take (invert : Bool) (arr : Nat) : Option Int → Bridge → Bridge
  | some pwm, g => g.spin invert arr pwm
  | none, g => g

theorem signed_abs (invert : Bool) (pwm : Int) :
    |signed invert pwm| = |pwm| := by
  cases invert with
  | true =>
      show |pwm * -1| = |pwm|
      rw [mul_neg_one, abs_neg]
  | false => rfl

/-- Inside its range the clamp changes nothing. -/
theorem pwmClamp_of_le {duty : Int} {arr : Nat} (h0 : 0 ≤ duty)
    (h : duty ≤ arr) : pwmClamp duty arr = duty.toNat := by
  have hneg : ¬ duty < 0 := by omega
  have hle : ¬ arr < duty.toNat := by omega
  unfold pwmClamp
  simp only [if_neg hneg, if_neg hle]

variable {arr : Nat} {d : Int} {g : Bridge}

/-- A duty in range reaches the compare value at its own magnitude. -/
theorem steer_ccr (h : |d| ≤ arr) : ((g.steer arr d).ccr : Int) = |d| := by
  unfold steer
  rcases lt_trichotomy 0 d with hpos | hzero | hneg
  · rw [abs_of_pos hpos] at h ⊢
    rw [if_pos hpos, pwmClamp_of_le hpos.le h]
    exact Int.toNat_of_nonneg hpos.le
  · subst hzero
    rfl
  · have hnot : ¬ 0 < d := by omega
    rw [if_neg hnot, if_pos hneg, pwmClamp_of_le (abs_nonneg d) h]
    exact Int.toNat_of_nonneg (abs_nonneg d)

/-- And with its sign on the pins. -/
theorem steer_drive (h : |d| ≤ arr) : (g.steer arr d).drive = some d := by
  have hccr := steer_ccr (g := g) h
  unfold drive
  rcases lt_trichotomy 0 d with hpos | hzero | hneg
  · have hne : (g.steer arr d).ccr ≠ 0 := by
      rw [abs_of_pos hpos] at hccr
      omega
    have hpins : (g.steer arr d).a = true ∧ (g.steer arr d).b = false := by
      rw [steer, if_pos hpos]
      exact ⟨rfl, rfl⟩
    rw [if_neg hne, hpins.1, hpins.2]
    exact congrArg some (hccr.trans (abs_of_pos hpos))
  · subst hzero
    rfl
  · have hnot : ¬ 0 < d := by omega
    have hne : (g.steer arr d).ccr ≠ 0 := by
      rw [abs_of_neg hneg] at hccr
      omega
    have hpins : (g.steer arr d).a = false ∧ (g.steer arr d).b = true := by
      rw [steer, if_neg hnot, if_pos hneg]
      exact ⟨rfl, rfl⟩
    rw [if_neg hne, hpins.1, hpins.2]
    show some (-((g.steer arr d).ccr : Int)) = some d
    rw [hccr, abs_of_neg hneg, neg_neg]

/-- Pins that are not both high never become so. -/
theorem steer_not_bothHigh (h : ¬ g.BothHigh) :
    ¬ (g.steer arr d).BothHigh := by
  unfold steer
  split
  · exact fun hb => Bool.false_ne_true hb.2
  · split
    · exact fun hb => Bool.false_ne_true hb.1
    · exact h

end Bridge

-- ============================================================= the lines

variable {F : Type} {Tim : Type} [DecidableEq Tim] {H : TimHal Tim}

/-- The lines of one motor: its timer channel and its direction pins. -/
structure Lines (Tim : Type) where
  tim : Tim
  channel : Nat
  pinA : Pin
  pinB : Pin

namespace Lines

/-- The lines the board's tables give a motor. -/
def of (B : MotorTables Tim) (a : MotorArgs F) : Lines Tim where
  tim := (B.pwmDescriptors a.pwmId).tim
  channel := (B.pwmDescriptors a.pwmId).channel
  pinA := B.dirDescriptors a.inAId
  pinB := B.dirDescriptors a.inBId

/-- What the registers feed the bridge on these lines. -/
def bridge (l : Lines Tim) (hw : Hw Tim) : Bridge where
  ccr := hw.compare l.tim l.channel
  a := hw.level l.pinA
  b := hw.level l.pinB

/-- Two motors share no line. -/
structure Apart (l l' : Lines Tim) : Prop where
  key : (l.tim, l.channel) ≠ (l'.tim, l'.channel)
  aa : l.pinA ≠ l'.pinA
  ab : l.pinA ≠ l'.pinB
  ba : l.pinB ≠ l'.pinA
  bb : l.pinB ≠ l'.pinB

end Lines

/-- A board whose used motors each have their own lines, and two
different direction pins. -/
structure OwnLines (B : MotorTables Tim) (args : Fin 4 → MotorArgs F) :
    Prop where
  pins : ∀ w, (args w).used = true →
    (Lines.of B (args w)).pinA ≠ (Lines.of B (args w)).pinB
  apart : ∀ w w', (args w).used = true → (args w').used = true → w ≠ w' →
    (Lines.of B (args w)).Apart (Lines.of B (args w'))

omit [DecidableEq Tim] in
theorem Hw.writePin_self (hw : Hw Tim) (p : Pin) :
    hw.writePin p (hw.level p) = hw := by
  have hlevel : (fun p' => if p' = p then hw.level p else hw.level p')
      = hw.level := by
    funext p'
    split
    · next hp => rw [hp]
    · rfl
  exact congrArg (fun level => { hw with level := level }) hlevel

namespace Generic2

/-- The motor drives these lines, with this range. -/
structure On (l : Lines Tim) (arr : Nat) (m : Generic2 F H) : Prop where
  used : m.used = true
  tim : m.tim = some l.tim
  channel : m.channel = l.channel
  dirA : m.dirA = some l.pinA
  dirB : m.dirB = some l.pinB
  arr : m.arr = arr

variable {l l' : Lines Tim} {arr : Nat} {m : Generic2 F H}

/-- `spin` after the sign flip. -/
theorem spin_eq (m : Generic2 F H) (pwm : Int) (hw : Hw Tim) :
    m.spin pwm hw =
      if 0 < Bridge.signed m.args.invert pwm then
        m.forward (Bridge.signed m.args.invert pwm) hw
      else if Bridge.signed m.args.invert pwm < 0 then
        m.reverse (Bridge.signed m.args.invert pwm) hw
      else m.brake hw := rfl

theorem spin_unused (h : m.used = false) (pwm : Int) (hw : Hw Tim) :
    m.spin pwm hw = hw := by
  rw [spin_eq]
  simp [forward, reverse, brake, h]

/-- Writes to the pins, then to the compare value, of a motor's lines. -/
def write (l : Lines Tim) (ccr : Nat) (a b : Bool) (hw : Hw Tim) :
    Hw Tim :=
  ((hw.writePin l.pinA a).writePin l.pinB b).setCompare l.tim l.channel ccr

/-- On its own lines the writes are all that the bridge sees. -/
theorem bridge_write (hpins : l.pinA ≠ l.pinB) (ccr : Nat) (a b : Bool)
    (hw : Hw Tim) : l.bridge (write l ccr a b hw) = ⟨ccr, a, b⟩ := by
  simp [Lines.bridge, write, Hw.setCompare, Hw.writePin, hpins]

/-- Lines apart see nothing of them. -/
theorem bridge_write_of_apart (h : l.Apart l') (ccr : Nat) (a b : Bool)
    (hw : Hw Tim) : l'.bridge (write l ccr a b hw) = l'.bridge hw := by
  have hkey : ¬ (l'.tim = l.tim ∧ l'.channel = l.channel) := by
    intro hc
    exact h.key (by rw [hc.1, hc.2])
  simp [Lines.bridge, write, Hw.setCompare, Hw.writePin, hkey, h.aa.symm,
    h.ab.symm, h.ba.symm, h.bb.symm]

/-- Spinning a motor writes to its lines what its bridge's spin says. -/
theorem spin_write (hm : m.On l arr) (pwm : Int) (hw : Hw Tim) :
    m.spin pwm hw
      = write l ((l.bridge hw).spin m.args.invert arr pwm).ccr
          ((l.bridge hw).spin m.args.invert arr pwm).a
          ((l.bridge hw).spin m.args.invert arr pwm).b hw := by
  have hduty : ∀ v hw', m.setDuty v hw'
      = hw'.setCompare l.tim l.channel v := by
    intro v hw'
    rw [setDuty, hm.tim, hm.channel]
  rw [spin_eq, Bridge.spin, Bridge.steer]
  rcases lt_trichotomy 0 (Bridge.signed m.args.invert pwm)
    with hpos | hzero | hneg
  · rw [if_pos hpos, if_pos hpos, forward, if_pos hm.used, hduty, hm.dirA,
      hm.dirB, hm.arr]
    rfl
  · rw [← hzero, if_neg (lt_irrefl 0), if_neg (lt_irrefl 0),
      if_neg (lt_irrefl 0), if_neg (lt_irrefl 0), brake, if_pos hm.used,
      hduty]
    -- the levels written are the ones that are there
    show hw.setCompare l.tim l.channel 0
      = ((hw.writePin l.pinA (hw.level l.pinA)).writePin l.pinB
          (hw.level l.pinB)).setCompare l.tim l.channel 0
    rw [Hw.writePin_self, Hw.writePin_self]
  · have hnot : ¬ 0 < Bridge.signed m.args.invert pwm := by omega
    rw [if_neg hnot, if_pos hneg, if_neg hnot, if_pos hneg, reverse,
      if_pos hm.used, hduty, hm.dirA, hm.dirB, hm.arr]
    rfl

/-- The driver refines the bridge: on the motor's own lines, `spin` is
the bridge's. -/
theorem bridge_spin (hm : m.On l arr) (hpins : l.pinA ≠ l.pinB)
    (pwm : Int) (hw : Hw Tim) :
    l.bridge (m.spin pwm hw)
      = (l.bridge hw).spin m.args.invert arr pwm := by
  rw [spin_write hm]
  exact bridge_write hpins _ _ _ hw

/-- On lines apart it is nothing. -/
theorem bridge_spin_of_apart (hm : m.On l arr) (h : l.Apart l')
    (pwm : Int) (hw : Hw Tim) :
    l'.bridge (m.spin pwm hw) = l'.bridge hw := by
  rw [spin_write hm]
  exact bridge_write_of_apart h _ _ _ hw

end Generic2

-- ======================================================= after the inits

namespace Generic2

variable [CFloat F] {B : MotorTables Tim} {a : MotorArgs F} {s : Pwm Tim}
  {n : Nat}

/-- Up to 32 bits the timer's top is the resolution's largest value. -/
theorem pwmTiming_arr {bits : Nat} (h1 : 1 ≤ bits) (h2 : bits ≤ 32)
    (clkHz : Nat) (freq : F) :
    (pwmTiming clkHz freq bits).arr = 2 ^ bits - 1 := by
  have hlo : ¬ (bits : Int) < 1 := by omega
  have hhi : ¬ (32 : Int) < bits := by omega
  unfold pwmTiming
  simp only [if_neg hlo, if_neg hhi, Int.toNat_natCast]
  split <;> rfl

/-- `init` of a used motor points it at its lines, with the range of its
timing. -/
theorem init_on_timing (h : a.used = true) :
    ((new H a).init B s).1.On (Lines.of B a)
      (pwmTiming (B.timClkHz (a.key B).1) a.pwmFrequency a.pwmBits).arr := by
  rw [init, if_pos (show (new H a).used = true from h)]
  exact ⟨h, rfl, rfl, rfl, rfl, rfl⟩

/-- Up to 32 bits that is the resolution's. -/
theorem init_on (h : a.used = true) {bits : Nat} (hbits : a.pwmBits = bits)
    (h1 : 1 ≤ bits) (h2 : bits ≤ 32) :
    ((new H a).init B s).1.On (Lines.of B a) (2 ^ bits - 1) := by
  have hon := init_on_timing (H := H) (B := B) (s := s) h
  rw [hbits, pwmTiming_arr h1 h2] at hon
  exact hon

/-- `init` changes neither what a motor was constructed from nor whether
it is used. -/
theorem init_args :
    ((new H a).init B s).1.args = a
      ∧ ((new H a).init B s).1.used = a.used := by
  rw [init]
  split <;> exact ⟨rfl, rfl⟩

/-- The levels after `init` of a used motor: its two pins are low, the
others untouched. -/
theorem init_level (h : a.used = true) :
    ((new H a).init B s).2.hw.level
      = ((s.hw.writePin (Lines.of B a).pinA false).writePin
          (Lines.of B a).pinB false).level := by
  rw [init, if_pos (show (new H a).used = true from h)]
  dsimp only
  split <;> split <;> rfl

/-- The base registers after `init` of a used motor: its timer's is
written if the motor claims it. -/
theorem init_base (h : a.used = true) :
    ((new H a).init B s).2.hw.base
      = if (pwmBaseClaim (a.key B).1 s.claims).1 = true then
          (s.hw.setBase (a.key B).1 (pwmTiming (B.timClkHz (a.key B).1)
            a.pwmFrequency a.pwmBits)).base
        else s.hw.base := by
  have henable : ∀ (c : Bool) (hw : Hw Tim) (t : Tim) (ch : Nat),
      (if c = true then hw.enable t ch else hw).base = hw.base := by
    intro c hw t ch
    cases c <;> rfl
  rw [init, if_pos (show (new H a).used = true from h)]
  refine (henable _ _ _ _).trans ?_
  dsimp only [Hw.setCompare]
  split
  · next hclaim => exact (if_pos hclaim).symm
  · next hclaim => exact (if_neg hclaim).symm

/-- Both direction pins of the lines are low. -/
def PinsLow (l : Lines Tim) (hw : Hw Tim) : Prop :=
  hw.level l.pinA = false ∧ hw.level l.pinB = false

/-- After its own `init` a motor's pins are low. -/
theorem init_pinsLow (h : a.used = true) :
    PinsLow (Lines.of B a) ((new H a).init B s).2.hw := by
  unfold PinsLow
  rw [init_level h]
  constructor
  · show (if _ then false else if _ then false else _) = false
    split
    · rfl
    · exact if_pos rfl
  · exact if_pos rfl

/-- The `init` of another motor leaves them low: it raises no pin. -/
theorem PinsLow.init {l : Lines Tim} (h : PinsLow l s.hw)
    (a : MotorArgs F) : PinsLow l ((new H a).init B s).2.hw := by
  have hlow : ∀ p, s.hw.level p = false →
      ((new H a).init B s).2.hw.level p = false := by
    intro p hp
    cases hused : a.used with
    | false =>
        rw [init_unused hused]
        exact hp
    | true =>
        rw [init_level hused]
        show (if _ then false else if _ then false else _) = false
        split
        · rfl
        · split
          · rfl
          · exact hp
  exact ⟨hlow _ h.1, hlow _ h.2⟩

/-- The claim table has room for `n` more, and every claimed timer, these
among them, has its base register set to the range `arr`. -/
def Based (arr n : Nat) (timers : List Tim) (s : Pwm Tim) : Prop :=
  ∃ claimed free, s.claims = slots claimed free ∧ n ≤ free
    ∧ (∀ t ∈ timers, t ∈ claimed)
    ∧ ∀ t ∈ claimed, ∃ psc, s.hw.base t = some ⟨psc, arr⟩

theorem based_boot (arr : Nat) : Based arr 8 [] (Pwm.boot : Pwm Tim) :=
  ⟨[], 8, rfl, le_refl 8, nofun, nofun⟩

/-- One more `init` takes at most one slot and leaves its motor's timer
based. -/
theorem Based.init {bits : Nat} {timers : List Tim}
    (h : Based (2 ^ bits - 1) (n + 1) timers s) (hbits : a.pwmBits = bits)
    (h1 : 1 ≤ bits) (h2 : bits ≤ 32) :
    Based (2 ^ bits - 1) n
      (if a.used = true then (a.key B).1 :: timers else timers)
      ((new H a).init B s).2 := by
  obtain ⟨claimed, free, hclaims, hfree, htimers, hbase⟩ := h
  cases hused : a.used with
  | false =>
      rw [init_unused hused, if_neg Bool.false_ne_true]
      exact ⟨claimed, free, hclaims, by omega, htimers, hbase⟩
  | true =>
      have hc := init_claims (H := H) (B := B) (s := s) hused
      have hb := init_base (H := H) (B := B) (s := s) hused
      rw [hclaims] at hc hb
      rw [if_pos rfl]
      by_cases hin : (a.key B).1 ∈ claimed
      · -- a sibling has claimed the timer, and set its base
        rw [claim_of_mem hin] at hc hb
        rw [if_neg Bool.false_ne_true] at hb
        refine ⟨claimed, free, hc, by omega, ?_, ?_⟩
        · intro t ht
          rcases List.mem_cons.mp ht with rfl | hold
          · exact hin
          · exact htimers t hold
        · rw [hb]
          exact hbase
      · obtain ⟨m, rfl⟩ : ∃ m, free = m + 1 := ⟨free - 1, by omega⟩
        rw [claim_of_free hin] at hc hb
        rw [if_pos rfl] at hb
        refine ⟨claimed ++ [(a.key B).1], m, hc, by omega, ?_, ?_⟩
        · intro t ht
          rcases List.mem_cons.mp ht with rfl | hold
          · exact List.mem_append_right _ List.mem_cons_self
          · exact List.mem_append_left _ (htimers t hold)
        · intro t ht
          rw [hb]
          show ∃ psc, (if t = (a.key B).1 then some _ else s.hw.base t)
            = some ⟨psc, 2 ^ bits - 1⟩
          by_cases ht' : t = (a.key B).1
          · rw [if_pos ht']
            refine ⟨(pwmTiming (B.timClkHz (a.key B).1) a.pwmFrequency
              a.pwmBits).psc, ?_⟩
            rw [hbits, ← pwmTiming_arr h1 h2 (B.timClkHz (a.key B).1)
              a.pwmFrequency]
          · rw [if_neg ht']
            refine hbase t ((List.mem_append.mp ht).resolve_right ?_)
            exact fun hm => ht' (List.mem_singleton.mp hm)

end Generic2

-- ==================================================== motors and registers

section Fitted

open Generic2

variable {B : MotorTables Tim} {args : Fin 4 → MotorArgs F} {bits : Nat}

/-- The four motors, each pointed at its own lines. -/
structure Fitted (B : MotorTables Tim) (args : Fin 4 → MotorArgs F)
    (bits : Nat) (motors : Fin 4 → Generic2 F H) : Prop where
  built : ∀ w, (motors w).args = args w
  unused : ∀ w, (args w).used = false → (motors w).used = false
  on : ∀ w, (args w).used = true →
    (motors w).On (Lines.of B (args w)) (2 ^ bits - 1)

/-- What every used motor can rely on: its pins are not both high, and
its timer has the range of the resolution. -/
def Primed (B : MotorTables Tim) (args : Fin 4 → MotorArgs F) (bits : Nat)
    (hw : Hw Tim) : Prop :=
  ∀ w, (args w).used = true →
    ¬ ((Lines.of B (args w)).bridge hw).BothHigh
      ∧ ∃ psc, hw.base (Lines.of B (args w)).tim
          = some ⟨psc, 2 ^ bits - 1⟩

section Inits

variable [CFloat F] (H) (B) {n : Nat} (hbits : ∀ w, (args w).pwmBits = bits)
  (h1 : 1 ≤ bits) (h2 : bits ≤ 32)

include hbits h1 h2

theorem initFour_fitted (s : Pwm Tim) :
    Fitted B args bits (initFour H B args s).1 := by
  have hinit : ∀ w, ∃ s', (initFour H B args s).1 w
      = ((new H (args w)).init B s').1 := by
    intro w
    fin_cases w <;> exact ⟨_, rfl⟩
  refine ⟨fun w => ?_, fun w hw => ?_, fun w hw => ?_⟩
  · obtain ⟨s', hs'⟩ := hinit w
    rw [hs']
    exact init_args.1
  · obtain ⟨s', hs'⟩ := hinit w
    rw [hs', init_args.2]
    exact hw
  · obtain ⟨s', hs'⟩ := hinit w
    rw [hs']
    exact init_on hw (hbits w) h1 h2

theorem initFour_primed :
    Primed B args bits (initFour H B args Pwm.boot).2.hw := by
  intro w hw
  constructor
  · have hlow : PinsLow (Lines.of B (args w))
        (initFour H B args Pwm.boot).2.hw := by
      fin_cases w
      · exact (((init_pinsLow hw).init _).init _).init _
      · exact ((init_pinsLow hw).init _).init _
      · exact (init_pinsLow hw).init _
      · exact init_pinsLow hw
    exact fun hboth => Bool.false_ne_true (hlow.1.symm.trans hboth.1)
  · obtain ⟨claimed, free, -, -, htimers, hbase⟩ :=
      ((((based_boot (2 ^ bits - 1)).init (H := H) (B := B)
        (hbits 0) h1 h2).init (H := H) (B := B) (hbits 1) h1 h2).init
        (H := H) (B := B) (hbits 2) h1 h2).init (H := H) (B := B)
        (hbits 3) h1 h2
    have hown : ∀ ts : List Tim, (Lines.of B (args w)).tim
        ∈ if (args w).used = true then ((args w).key B).1 :: ts else ts := by
      intro ts
      rw [if_pos hw]
      exact List.mem_cons_self
    have hkeep : ∀ (w' : Fin 4) (ts : List Tim) (t : Tim), t ∈ ts →
        t ∈ if (args w').used = true then ((args w').key B).1 :: ts
          else ts := by
      intro w' ts t ht
      split
      · exact List.mem_cons_of_mem _ ht
      · exact ht
    refine hbase _ (htimers _ ?_)
    fin_cases w
    · exact hkeep 3 _ _ (hkeep 2 _ _ (hkeep 1 _ _ (hown _)))
    · exact hkeep 3 _ _ (hkeep 2 _ _ (hown _))
    · exact hkeep 3 _ _ (hown _)
    · exact hown _

end Inits

-- ========================================================= the wheel loop

variable {motors : Fin 4 → Generic2 F H}

/-- One turn of the wheel loop on the bridge of wheel `w`: its own turn,
or nothing. -/
theorem bridge_spinMotor (hB : OwnLines B args)
    (hm : Fitted B args bits motors) (pwm : Fin 4 → Option Int)
    (hw : Hw Tim) {w : Fin 4} (hused : (args w).used = true) (i : Fin 4) :
    (Lines.of B (args w)).bridge (ControlCore.spinMotor motors pwm hw i)
      = ((Lines.of B (args w)).bridge hw).take (args w).invert
          (2 ^ bits - 1) (if i = w then pwm w else none) := by
  by_cases hiw : i = w
  · subst hiw
    rw [if_pos rfl, ControlCore.spinMotor]
    cases pwm i with
    | none => rfl
    | some p =>
        show (Lines.of B (args i)).bridge ((motors i).spin p hw) = _
        rw [bridge_spin (hm.on i hused) (hB.pins i hused), hm.built]
        rfl
  · rw [if_neg hiw, ControlCore.spinMotor]
    cases pwm i with
    | none => rfl
    | some p =>
        show (Lines.of B (args w)).bridge ((motors i).spin p hw) = _
        cases hi : (args i).used with
        | false =>
            rw [spin_unused (hm.unused i hi)]
            rfl
        | true =>
            exact bridge_spin_of_apart (hm.on i hi)
              (hB.apart i w hi hused hiw) p hw

/-- Turns of other wheels leave its bridge alone. -/
theorem bridge_foldl_of_notMem (hB : OwnLines B args)
    (hm : Fitted B args bits motors) (pwm : Fin 4 → Option Int)
    {w : Fin 4} (hused : (args w).used = true) {l : List (Fin 4)}
    (hnot : w ∉ l) (hw : Hw Tim) :
    (Lines.of B (args w)).bridge
        (l.foldl (ControlCore.spinMotor motors pwm) hw)
      = (Lines.of B (args w)).bridge hw := by
  induction l generalizing hw with
  | nil => rfl
  | cons i rest ih =>
      have hi : i ≠ w := fun he => hnot (he ▸ List.mem_cons_self)
      rw [List.foldl_cons, ih fun hmem => hnot (List.mem_cons_of_mem i hmem),
        bridge_spinMotor hB hm pwm hw hused, if_neg hi]
      rfl

/-- Among turns of different wheels its own is the one that counts. -/
theorem bridge_foldl_of_mem (hB : OwnLines B args)
    (hm : Fitted B args bits motors) (pwm : Fin 4 → Option Int)
    {w : Fin 4} (hused : (args w).used = true) {l : List (Fin 4)}
    (hnd : l.Nodup) (hmem : w ∈ l) (hw : Hw Tim) :
    (Lines.of B (args w)).bridge
        (l.foldl (ControlCore.spinMotor motors pwm) hw)
      = ((Lines.of B (args w)).bridge hw).take (args w).invert
          (2 ^ bits - 1) (pwm w) := by
  induction l generalizing hw with
  | nil => exact absurd hmem List.not_mem_nil
  | cons i rest ih =>
      obtain ⟨hnot, hrest⟩ := List.nodup_cons.mp hnd
      rw [List.foldl_cons]
      by_cases hi : i = w
      · subst hi
        rw [bridge_foldl_of_notMem hB hm pwm hused hnot,
          bridge_spinMotor hB hm pwm hw hused, if_pos rfl]
      · have hin : w ∈ rest :=
          (List.mem_cons.mp hmem).resolve_left fun he => hi he.symm
        rw [ih hrest hin, bridge_spinMotor hB hm pwm hw hused, if_neg hi]
        rfl

/-- The whole wheel loop on one bridge: its own turn. -/
theorem bridge_spinMotors (hB : OwnLines B args)
    (hm : Fitted B args bits motors) (pwm : Fin 4 → Option Int)
    (hw : Hw Tim) {w : Fin 4} (hused : (args w).used = true) :
    (Lines.of B (args w)).bridge (ControlCore.spinMotors motors pwm hw)
      = ((Lines.of B (args w)).bridge hw).take (args w).invert
          (2 ^ bits - 1) (pwm w) :=
  bridge_foldl_of_mem hB hm pwm hused (List.nodup_finRange 4)
    (List.mem_finRange w) hw

/-- The wheel loop writes no base register. -/
theorem base_spinMotors (hm : Fitted B args bits motors)
    (pwm : Fin 4 → Option Int) (hw : Hw Tim) :
    (ControlCore.spinMotors motors pwm hw).base = hw.base := by
  have hturn : ∀ (hw : Hw Tim) (i : Fin 4),
      (ControlCore.spinMotor motors pwm hw i).base = hw.base := by
    intro hw i
    rw [ControlCore.spinMotor]
    cases pwm i with
    | none => rfl
    | some p =>
        show ((motors i).spin p hw).base = hw.base
        cases hi : (args i).used with
        | false => rw [spin_unused (hm.unused i hi)]
        | true =>
            rw [spin_write (hm.on i hi)]
            rfl
  unfold ControlCore.spinMotors
  induction List.finRange 4 generalizing hw with
  | nil => rfl
  | cons i rest ih => exact (ih _).trans (hturn hw i)

/-- The wheel loop keeps the motors primed. -/
theorem Primed.spinMotors (hB : OwnLines B args)
    (hm : Fitted B args bits motors) {hw : Hw Tim}
    (h : Primed B args bits hw) (pwm : Fin 4 → Option Int) :
    Primed B args bits (ControlCore.spinMotors motors pwm hw) := by
  intro w hused
  obtain ⟨hlow, hbase⟩ := h w hused
  constructor
  · rw [bridge_spinMotors hB hm pwm hw hused]
    cases pwm w with
    | none => exact hlow
    | some p => exact Bridge.steer_not_bothHigh hlow
  · rw [base_spinMotors hm]
    exact hbase

end Fitted

-- ============================================================= whole runs

/-- `n` is a value of the target's `int`. -/
def IntFits (n : Int) : Prop := -2 ^ 31 ≤ n ∧ n < 2 ^ 31

/-- The lines carry the command `pwm`, signed as the motor is mounted:
the drive is exactly that, the pins are not both high, the compare value
is the whole magnitude and inside both the motor's range and its
timer's, and no `int` on the way overflows. -/
structure Delivers (l : Lines Tim) (bits : Nat) (invert : Bool) (pwm : Int)
    (hw : Hw Tim) : Prop where
  drive : (l.bridge hw).drive = some (if invert then -pwm else pwm)
  pins : ¬ (l.bridge hw).BothHigh
  magnitude : ((l.bridge hw).ccr : Int) = |pwm|
  range : (l.bridge hw).ccr ≤ 2 ^ bits - 1
  base : ∃ psc, hw.base l.tim = some ⟨psc, 2 ^ bits - 1⟩
  pwmFits : IntFits pwm
  flipFits : IntFits (pwm * -1)
  absFits : IntFits |pwm|

section Delivered

variable {B : MotorTables Tim} {args : Fin 4 → MotorArgs F} {bits : Nat}
  {motors : Fin 4 → Generic2 F H}

/-- The wheel loop delivers a command in range. -/
theorem spinMotors_delivers (hB : OwnLines B args)
    (hm : Fitted B args bits motors) (h16 : bits ≤ 16) {hw : Hw Tim}
    (h : Primed B args bits hw) {pwm : Fin 4 → Option Int} {w : Fin 4}
    (hused : (args w).used = true) {p : Int} (hp : pwm w = some p)
    (hrange : |p| ≤ 2 ^ bits - 1) :
    Delivers (Lines.of B (args w)) bits (args w).invert p
      (ControlCore.spinMotors motors pwm hw) := by
  have hpow : (2 : Int) ^ bits ≤ 2 ^ 16 :=
    pow_le_pow_right₀ (by decide) h16
  have harr : ((2 ^ bits - 1 : Nat) : Int) = 2 ^ bits - 1 := by
    have hone : 1 ≤ 2 ^ bits := Nat.one_le_two_pow
    push_cast [Nat.cast_sub hone]
    rfl
  obtain ⟨hlow, hbase⟩ := h.spinMotors hB hm pwm w hused
  have hbridge := bridge_spinMotors hB hm pwm hw hused
  rw [hp] at hbridge
  have hsigned : |Bridge.signed (args w).invert p|
      ≤ ((2 ^ bits - 1 : Nat) : Int) := by
    rw [Bridge.signed_abs, harr]
    exact hrange
  have hccr : (((Lines.of B (args w)).bridge
      (ControlCore.spinMotors motors pwm hw)).ccr : Int) = |p| := by
    rw [hbridge, ← Bridge.signed_abs (args w).invert p]
    exact Bridge.steer_ccr hsigned
  obtain ⟨hlo, hhi⟩ := abs_le.mp hrange
  refine ⟨?_, hlow, hccr, ?_, hbase, ?_, ?_, ?_⟩
  · rw [hbridge]
    refine (Bridge.steer_drive hsigned).trans (congrArg some ?_)
    unfold Bridge.signed
    rw [mul_neg_one]
  · omega
  · constructor <;> omega
  · constructor <;> omega
  · have hnonneg := abs_nonneg p
    constructor <;> omega

end Delivered

section Runs

variable {K : Type} [Field K] [LinearOrder K] [IsStrictOrderedRing K]
  [FloorRing K]

/-- The controllers of the wheels that exist are limited to the PWM
resolution, both ways. -/
def ResolutionLimits (bits : Nat) (c : ControlCore K) : Prop :=
  ∀ w, c.wheel w = true →
    (c.pid w).minVal = -((2 ^ bits - 1 : Int) : K)
      ∧ (c.pid w).maxVal = ((2 ^ bits - 1 : Int) : K)

omit [IsStrictOrderedRing K] in
theorem ResolutionLimits.step {bits : Nat} {c : ControlCore K}
    (h : ResolutionLimits bits c) (T : Trig K) (cmd : Cmd K)
    (r : Fin 4 → K) (dt : K) :
    ResolutionLimits bits (c.step T cmd r dt).1 := by
  intro w (hw : c.wheel w = true)
  show ((c.drive cmd r).pid w).minVal = _ ∧ ((c.drive cmd r).pid w).maxVal = _
  rw [ControlCore.drive_pid hw]
  exact h w hw

/-- What such a controller returns converts to a command in range. -/
theorem ResolutionLimits.range {bits : Nat} {c : ControlCore K}
    (h : ResolutionLimits bits c) {w : Fin 4} (hw : c.wheel w = true)
    (setpoint measured : K) :
    |CFloat.toInt ((c.pid w).compute setpoint measured).1|
      ≤ 2 ^ bits - 1 := by
  obtain ⟨hmin, hmax⟩ := h w hw
  have hnonneg : (0 : K) ≤ ((2 ^ bits - 1 : Int) : K) := by
    have hpow : (1 : Int) ≤ 2 ^ bits := one_le_pow₀ (by decide)
    exact_mod_cast sub_nonneg.mpr hpow
  have hlim : (c.pid w).minVal ≤ (c.pid w).maxVal := by
    rw [hmin, hmax]
    linarith
  have hmem : (c.pid w).minVal ≤ ((c.pid w).compute setpoint measured).1
      ∧ ((c.pid w).compute setpoint measured).1 ≤ (c.pid w).maxVal :=
    constrain_mem hlim _
  rw [hmin, hmax] at hmem
  exact abs_le.mpr (Lib.towardZero_mem hmem.1 hmem.2)

variable (H) (B : MotorTables Tim) (args : Fin 4 → MotorArgs K)

/-- After every control step of every run from freshly initialised motors,
every used motor's lines carry what its controller returned, truncated
toward zero and negated if the motor is inverted. -/
theorem bridge_receives_command {bits : Nat} (hB : OwnLines B args)
    (hbits : ∀ w, (args w).pwmBits = bits) (h1 : 1 ≤ bits)
    (h16 : bits ≤ 16) (T : Trig K) {c : ControlCore K}
    (hlim : ResolutionLimits bits c) (ins : List (ControlCore.StepIn K))
    (inp : ControlCore.StepIn K) {w : Fin 4}
    (hused : (args w).used = true) (hwheel : c.wheel w = true) :
    let four := Generic2.initFour H B args Pwm.boot
    let M := ControlCore.withMotors T four.1
    let r := M.step (M.final (c, four.2.hw) ins) inp
    ∃ out, r.2.out w = some out
      ∧ Delivers (Lines.of B (args w)) bits (args w).invert
          (CFloat.toInt out) r.1.2 := by
  intro four M r
  have h2 : bits ≤ 32 := by omega
  have hm : Fitted B args bits four.1 :=
    initFour_fitted H B hbits h1 h2 Pwm.boot
  -- what every step keeps: limits, wheels, primed motors
  obtain ⟨hlim', hwheel', hprimed⟩ := Lib.Mealy.final_invariant (M := M)
    (P := fun s => ResolutionLimits bits s.1 ∧ s.1.wheel = c.wheel
      ∧ Primed B args bits s.2)
    (fun s i h => ⟨h.1.step T i.cmd i.rpm i.dt, h.2.1,
      h.2.2.spinMotors hB hm _⟩)
    (s := (c, four.2.hw)) ⟨hlim, rfl, initFour_primed H B hbits h1 h2⟩ ins
  have hw : (M.final (c, four.2.hw) ins).1.wheel w = true := by
    rw [hwheel']
    exact hwheel
  refine ⟨_, ControlCore.output_eq hw inp.cmd inp.rpm, ?_⟩
  refine spinMotors_delivers hB hm h16 hprimed hused ?_
    (hlim'.range hw _ _)
  show (ControlCore.output _ inp.cmd inp.rpm w).map CFloat.toInt = _
  rw [ControlCore.output_eq hw]
  rfl

end Runs

-- ==================================================== the configured board

/-- What the configured board's four motors are constructed from. -/
def f446reArgs (w : Fin 4) : MotorArgs ℚ :=
  f446reMotors.get (w.cast (by simp [f446reMotors]))

/-- Its two used motors have lines of their own. -/
theorem f446re_ownLines : OwnLines f446reTables f446reArgs := by
  constructor
  · intro w hw
    fin_cases w
    · decide
    · decide
    · exact absurd hw (by decide)
    · exact absurd hw (by decide)
  · intro w w' hw hw' hne
    fin_cases w <;> fin_cases w'
    all_goals
      first
        | exact absurd rfl hne
        | exact absurd hw (by decide)
        | exact absurd hw' (by decide)
        | constructor <;> decide

/-- The configured board, its second wheel, on the second step of a run. -/
theorem bridge_receives_command_f446re :
    let four := Generic2.initFour (stmHal Timer) f446reTables f446reArgs
      Pwm.boot
    let M := ControlCore.withMotors Trig.level four.1
    let r := M.step (M.final (ControlCore.fresh f446re, four.2.hw)
        [⟨⟨1 / 5, 0, 1⟩, fun _ => 0, 1 / 50⟩])
      ⟨⟨-1 / 5, 0, 0⟩, fun _ => 3, 1 / 50⟩
    ∃ out, r.2.out 1 = some out
      ∧ Delivers (Lines.of f446reTables (f446reArgs 1)) 10 false
          (CFloat.toInt out) r.1.2 :=
  bridge_receives_command (stmHal Timer) f446reTables f446reArgs
    f446re_ownLines (fun w => by fin_cases w <;> rfl) (by decide)
    (by decide) Trig.level
    (fun _ _ => ⟨Int.cast_neg _, rfl⟩) _ _ (by decide) rfl

end LinoStm32
