/-
The states inside a spin: what the direction pins and the compare value
are between the register writes of one call.

A call is a list of writes (`spinWrites`), and the registers pass through
the states of a scan over them. On the motor's bridge that is a scan of
the bridge's own writes, so a run of calls is a run of bridges
(`spinning_simulates`), and the question is one about signed duties.

Both methods write pin A first. `reverse` lowers the pin that was high
before it raises the other; `forward` raises A while B is still high from
the reverse before it, and the compare value is still the old one. So the
bridge shoots through exactly where a positive duty directly follows a
negative one. A brake between them clears the compare value.

With one pin in both roles the bridge has no off side at all: any reverse
shoots through, and so does a forward on a duty that is not 0.
-/
import LinoStm32.Proofs.HBridge

namespace LinoStm32

-- ======================================================= writes of a call

/-- A register write of the driver: a direction pin or the duty. -/
inductive DriveWrite
  | dirA (v : Bool)
  | dirB (v : Bool)
  | duty (v : Nat)

namespace Generic2

section Writes

variable {F : Type} {Tim : Type} [DecidableEq Tim] {H : TimHal Tim}

/-- A write, on the motor's own lines. -/
def issue (m : Generic2 F H) (hw : Hw Tim) : DriveWrite → Hw Tim
  | .dirA v => writeDir m.dirA v hw
  | .dirB v => writeDir m.dirB v hw
  | .duty v => m.setDuty v hw

/-- The writes of `forward`, in the order of the source. -/
def forwardWrites (m : Generic2 F H) (pwm : Int) : List DriveWrite :=
  if m.used then [.dirA true, .dirB false, .duty (pwmClamp pwm m.arr)]
  else []

/-- The writes of `reverse`. -/
def reverseWrites (m : Generic2 F H) (pwm : Int) : List DriveWrite :=
  if m.used then [.dirA false, .dirB true, .duty (pwmClamp |pwm| m.arr)]
  else []

/-- The write of `brake`. -/
def brakeWrites (m : Generic2 F H) : List DriveWrite :=
  if m.used then [.duty 0] else []

/-- The writes of `spin`. -/
def spinWrites (m : Generic2 F H) (pwm : Int) : List DriveWrite :=
  let pwm := if m.args.invert then pwm * -1 else pwm
  if 0 < pwm then m.forwardWrites pwm
  else if pwm < 0 then m.reverseWrites pwm
  else m.brakeWrites

/-- Done one after the other, the writes are the call. -/
theorem foldl_spinWrites (m : Generic2 F H) (pwm : Int) (hw : Hw Tim) :
    (m.spinWrites pwm).foldl m.issue hw = m.spin pwm hw := by
  have hforward : ∀ d, (m.forwardWrites d).foldl m.issue hw
      = m.forward d hw := by
    intro d
    unfold forwardWrites forward
    split <;> rfl
  have hreverse : ∀ d, (m.reverseWrites d).foldl m.issue hw
      = m.reverse d hw := by
    intro d
    unfold reverseWrites reverse
    split <;> rfl
  have hbrake : m.brakeWrites.foldl m.issue hw = m.brake hw := by
    unfold brakeWrites brake
    split <;> rfl
  rw [spin_eq]
  show List.foldl m.issue hw
    (if 0 < Bridge.signed m.args.invert pwm then
      m.forwardWrites (Bridge.signed m.args.invert pwm)
    else if Bridge.signed m.args.invert pwm < 0 then
      m.reverseWrites (Bridge.signed m.args.invert pwm)
    else m.brakeWrites) = _
  split
  · exact hforward _
  · split
    · exact hreverse _
    · exact hbrake

/-- Spin calls on one motor, with the states each passes through: before
the first write, between the writes, and after the last. -/
def spinning (m : Generic2 F H) :
    Lib.Mealy (Hw Tim) Int (List (Hw Tim)) where
  step hw pwm := (m.spin pwm hw, (m.spinWrites pwm).scanl m.issue hw)

end Writes

end Generic2

-- ==================================================== the same on a bridge

namespace Bridge

/-- Current through both sides of the bridge. -/
def ShootsThrough (g : Bridge) : Prop := g.BothHigh ∧ g.ccr ≠ 0

/-- A write as the bridge sees it; `tied` is one pin in both roles. -/
def write (tied : Bool) (g : Bridge) : DriveWrite → Bridge
  | .dirA v => ⟨g.ccr, v, if tied then v else g.b⟩
  | .dirB v => ⟨g.ccr, if tied then v else g.a, v⟩
  | .duty v => { g with ccr := v }

/-- The writes that steer to a signed duty. -/
def steerWrites (arr : Nat) (d : Int) : List DriveWrite :=
  if 0 < d then [.dirA true, .dirB false, .duty (pwmClamp d arr)]
  else if d < 0 then [.dirA false, .dirB true, .duty (pwmClamp |d| arr)]
  else [.duty 0]

/-- Signed duties on one bridge, with the states passed through. -/
def steering (tied : Bool) (arr : Nat) :
    Lib.Mealy Bridge Int (List Bridge) where
  step g d := ((steerWrites arr d).foldl (write tied) g,
    (steerWrites arr d).scanl (write tied) g)

end Bridge

/-- What every step maps, a scan maps. -/
theorem map_scanl {α β γ : Type*} {f : α → β → α} {f' : γ → β → γ}
    {h : α → γ} (hstep : ∀ a b, h (f a b) = f' (h a) b) (a : α)
    (l : List β) : (l.scanl f a).map h = l.scanl f' (h a) := by
  induction l generalizing a with
  | nil => simp
  | cons b l ih =>
      rw [List.scanl_cons, List.map_cons, ih, hstep, List.scanl_cons]

namespace Generic2

variable {F : Type} {Tim : Type} [DecidableEq Tim] {H : TimHal Tim}
  {l : Lines Tim} {arr : Nat} {m : Generic2 F H}

/-- Each write of a motor is a write of its bridge. -/
theorem bridge_issue (hm : m.On l arr) (hw : Hw Tim) (w : DriveWrite) :
    l.bridge (m.issue hw w)
      = (l.bridge hw).write (decide (l.pinA = l.pinB)) w := by
  cases w with
  | dirA v =>
      rw [issue, hm.dirA]
      by_cases h : l.pinA = l.pinB
      · simp [writeDir, Lines.bridge, Hw.writePin, Bridge.write, h]
      · simp [writeDir, Lines.bridge, Hw.writePin, Bridge.write, h,
          Ne.symm h]
  | dirB v =>
      rw [issue, hm.dirB]
      by_cases h : l.pinA = l.pinB
      · simp [writeDir, Lines.bridge, Hw.writePin, Bridge.write, h]
      · simp [writeDir, Lines.bridge, Hw.writePin, Bridge.write, h]
  | duty v =>
      rw [issue, setDuty, hm.tim, hm.channel]
      simp [Lines.bridge, Hw.setCompare, Bridge.write]

omit [DecidableEq Tim] in
theorem spinWrites_eq (hm : m.On l arr) (pwm : Int) :
    m.spinWrites pwm
      = Bridge.steerWrites arr (Bridge.signed m.args.invert pwm) := by
  simp only [spinWrites, forwardWrites, reverseWrites, brakeWrites,
    if_pos hm.used, hm.arr]
  rfl

/-- A run of spin calls is a run of its bridge. -/
theorem spinning_simulates (hm : m.On l arr) (hw : Hw Tim)
    (pwms : List Int) :
    (m.spinning.outputs hw pwms).map (List.map l.bridge)
      = (Bridge.steering (decide (l.pinA = l.pinB)) arr).outputs
        (l.bridge hw) (pwms.map (Bridge.signed m.args.invert)) := by
  rw [← List.forall₂_eq_eq_eq, List.forall₂_map_left_iff]
  refine (Lib.Mealy.simulation (M := m.spinning)
    (R := fun hw g => l.bridge hw = g) ?_ rfl pwms).2
  intro hw g pwm hg
  subst hg
  have hscan := map_scanl (bridge_issue hm) hw (m.spinWrites pwm)
  have hlast : l.bridge (m.spin pwm hw)
      = (m.spinWrites pwm).foldl
          (Bridge.write (decide (l.pinA = l.pinB))) (l.bridge hw) := by
    rw [← foldl_spinWrites]
    exact (List.foldl_hom l.bridge fun hw w =>
      (bridge_issue hm hw w).symm).symm
  rw [spinWrites_eq hm] at hscan hlast
  refine ⟨hlast, ?_⟩
  show ((m.spinWrites pwm).scanl m.issue hw).map l.bridge = _
  rw [spinWrites_eq hm]
  exact hscan

end Generic2

-- ============================================== which duties shoot through

namespace Bridge

/-- What the writes of a signed duty leave behind. -/
structure Settled (d : Int) (g : Bridge) : Prop where
  ccr : g.ccr = 0 ↔ d = 0
  reverse : d < 0 → g.b = true
  forward : 0 < d → g.b = false

/-- Steering from `d` to `d'` shoots through on the way. -/
def Hazard (tied : Bool) (d d' : Int) : Prop :=
  (0 < d' ∧ (d < 0 ∨ (tied = true ∧ 0 < d))) ∨ (d' < 0 ∧ tied = true)

variable {tied : Bool} {arr : Nat} {d d' : Int} {g : Bridge}

/-- Whatever the bridge was, a call leaves it settled. -/
theorem steering_settled (harr : 0 < arr) (g : Bridge) (d : Int) :
    (((steering tied arr).step g d).1).Settled d := by
  show ((steerWrites arr d).foldl (write tied) g).Settled d
  unfold steerWrites
  rcases lt_trichotomy 0 d with hpos | hzero | hneg
  · have hclamp := pwmClamp_pos hpos harr
    rw [if_pos hpos]
    refine ⟨?_, fun h => by omega, fun _ => rfl⟩
    show pwmClamp d arr = 0 ↔ d = 0
    omega
  · subst hzero
    exact ⟨⟨fun _ => rfl, fun _ => rfl⟩, fun h => by omega,
      fun h => by omega⟩
  · have hnot : ¬ 0 < d := by omega
    have hclamp := pwmClamp_pos (abs_pos.mpr hneg.ne) harr
    rw [if_neg hnot, if_pos hneg]
    refine ⟨?_, fun _ => rfl, fun h => by omega⟩
    show pwmClamp |d| arr = 0 ↔ d = 0
    omega

/-- Raising A under the old compare value. -/
theorem raiseA_shootsThrough_iff (tied : Bool) (h : g.Settled d) :
    (g.write tied (.dirA true)).ShootsThrough
      ↔ d < 0 ∨ (tied = true ∧ 0 < d) := by
  have hb : (g.write tied (.dirA true)).b = true
      ↔ tied = true ∨ g.b = true := by
    cases tied <;> simp [write]
  show (true = true ∧ (g.write tied (.dirA true)).b = true) ∧ g.ccr ≠ 0 ↔ _
  rw [hb, ne_eq, h.ccr]
  rcases lt_trichotomy 0 d with hpos | hzero | hneg
  · simp [h.forward hpos, hpos, hpos.ne', hpos.not_gt]
  · simp [← hzero]
  · simp [h.reverse hneg, hneg, hneg.ne]

/-- Raising B after A was lowered. -/
theorem raiseB_shootsThrough_iff (tied : Bool) (h : g.Settled d) :
    ((g.write tied (.dirA false)).write tied (.dirB true)).ShootsThrough
      ↔ tied = true ∧ d ≠ 0 := by
  show ((if tied then true else false) = true ∧ true = true) ∧ g.ccr ≠ 0 ↔ _
  rw [ne_eq, h.ccr]
  cases tied <;> simp

/-- The states of one call. Only a rise of A over a high B, or one pin
in both roles, is dangerous. -/
theorem steering_safe_iff (harr : 0 < arr) (h : g.Settled d)
    (hsafe : ¬ g.ShootsThrough) (d' : Int) :
    (∀ g' ∈ ((steering tied arr).step g d').2, ¬ g'.ShootsThrough)
      ↔ ¬ Hazard tied d d' := by
  show (∀ g' ∈ (steerWrites arr d').scanl (write tied) g,
    ¬ g'.ShootsThrough) ↔ _
  unfold steerWrites Hazard
  rcases lt_trichotomy 0 d' with hpos | hzero | hneg
  · have hd' : ¬ d' < 0 := by omega
    have hraise := raiseA_shootsThrough_iff tied h
    -- after the second write B is low
    have hlow : ∀ c, ¬ (⟨c, if tied then false else true, false⟩
        : Bridge).ShootsThrough := fun c hc => Bool.false_ne_true hc.1.2
    rw [if_pos hpos]
    simp only [List.scanl_cons, List.scanl_nil, List.forall_mem_cons,
      List.not_mem_nil, IsEmpty.forall_iff, implies_true, and_true, hd',
      false_and, or_false, hpos, true_and]
    rw [hraise]
    exact ⟨fun hall => hall.2.1, fun hno => ⟨hsafe, hno, hlow _, hlow _⟩⟩
  · subst hzero
    simp only [lt_irrefl, if_false, List.scanl_cons, List.scanl_nil,
      List.forall_mem_cons, List.not_mem_nil, IsEmpty.forall_iff,
      implies_true, and_true, false_and, or_false, not_false_eq_true, iff_true]
    exact ⟨hsafe, fun hc => hc.2 rfl⟩
  · have hnot : ¬ 0 < d' := by omega
    have hclamp := pwmClamp_pos (abs_pos.mpr hneg.ne) harr
    have hraise := raiseB_shootsThrough_iff tied h
    have hlow : ¬ (g.write tied (.dirA false)).ShootsThrough :=
      fun hc => Bool.false_ne_true hc.1.1
    -- the last write settles the duty: both pins are up if they are one
    have hend : (⟨pwmClamp |d'| arr, if tied then true else false, true⟩
        : Bridge).ShootsThrough ↔ tied = true := by
      have hne : pwmClamp |d'| arr ≠ 0 := by omega
      cases tied <;> simp [ShootsThrough, BothHigh, hne]
    rw [if_neg hnot, if_pos hneg]
    simp only [List.scanl_cons, List.scanl_nil, List.forall_mem_cons,
      List.not_mem_nil, IsEmpty.forall_iff, implies_true, and_true, hnot,
      false_and, false_or, hneg, true_and]
    rw [hraise]
    constructor
    · intro hall
      exact fun ht => hall.2.2.2 (hend.mpr ht)
    · intro hno
      exact ⟨hsafe, hlow, fun hc => hno hc.1, fun hc => hno (hend.mp hc)⟩

/-- A run from a settled bridge shoots through exactly at a hazard
between neighbours. -/
theorem steering_run_iff (harr : 0 < arr) (h : g.Settled d)
    (hsafe : ¬ g.ShootsThrough) (ds : List Int) :
    (∀ bridges ∈ (steering tied arr).outputs g ds,
        ∀ g' ∈ bridges, ¬ g'.ShootsThrough)
      ↔ (d :: ds).IsChain fun d d' => ¬ Hazard tied d d' := by
  induction ds generalizing d g with
  | nil => simp
  | cons d' ds ih =>
      rw [Lib.Mealy.outputs_cons, List.forall_mem_cons,
        steering_safe_iff harr h hsafe, List.isChain_cons_cons]
      refine and_congr_right fun hgap => ?_
      have hlast : ¬ (((steering tied arr).step g d').1).ShootsThrough := by
        refine (steering_safe_iff harr h hsafe d').mpr hgap _ ?_
        exact List.mem_of_getLast? List.getLast?_scanl
      exact ih (steering_settled harr g d') hlast

end Bridge

-- ================================================================== runs

/-- No positive duty directly follows a negative one. With one pin in
both roles none is negative, and no two positive ones are neighbours. -/
def SwitchesSafely (tied : Bool) (ds : List Int) : Prop :=
  if tied = true then
    (∀ d ∈ ds, 0 ≤ d) ∧ ds.IsChain fun d d' => ¬ (0 < d ∧ 0 < d')
  else ds.IsChain fun d d' => ¬ (d < 0 ∧ 0 < d')

theorem isChain_hazard_iff (tied : Bool) (ds : List Int) :
    ((0 :: ds).IsChain fun d d' => ¬ Bridge.Hazard tied d d')
      ↔ SwitchesSafely tied ds := by
  cases tied with
  | false =>
      have hzero : ∀ d, ¬ Bridge.Hazard false 0 d := by
        simp [Bridge.Hazard]
      have hchain : ((0 :: ds).IsChain fun d d' => ¬ Bridge.Hazard false d d')
          ↔ ds.IsChain fun d d' => ¬ Bridge.Hazard false d d' := by
        cases ds with
        | nil => simp
        | cons d ds => simp [List.isChain_cons_cons, hzero]
      rw [hchain]
      simp [SwitchesSafely, Bridge.Hazard, and_comm]
  | true =>
      -- along the chain the duty before is never negative
      have hchain : ∀ d, 0 ≤ d →
          (((d :: ds).IsChain fun d d' => ¬ Bridge.Hazard true d d')
            ↔ (∀ e ∈ ds, 0 ≤ e)
              ∧ (d :: ds).IsChain fun d d' => ¬ (0 < d ∧ 0 < d')) := by
        induction ds with
        | nil => simp
        | cons e ds ih =>
            intro d hd
            rw [List.isChain_cons_cons, List.isChain_cons_cons,
              List.forall_mem_cons]
            by_cases he : 0 ≤ e
            · have hstep : Bridge.Hazard true d e ↔ 0 < d ∧ 0 < e := by
                simp only [Bridge.Hazard, true_and, and_true]
                omega
              rw [ih e he, hstep]
              tauto
            · have hstep : Bridge.Hazard true d e :=
                Or.inr ⟨by omega, rfl⟩
              tauto
      have hstrip : ((0 :: ds).IsChain fun d d' : Int => ¬ (0 < d ∧ 0 < d'))
          ↔ ds.IsChain fun d d' => ¬ (0 < d ∧ 0 < d') := by
        cases ds with
        | nil => simp
        | cons d ds => simp [List.isChain_cons_cons]
      rw [hchain 0 le_rfl, hstrip]
      exact Iff.rfl

namespace Generic2

variable {F : Type} [CFloat F] {Tim : Type} [DecidableEq Tim]

/-- After its `init` a motor's bridge is settled on nothing. -/
theorem init_settled {H : TimHal Tim} {B : MotorTables Tim}
    {a : MotorArgs F} {s : Pwm Tim} (h : a.used = true) :
    ((Lines.of B a).bridge ((new H a).init B s).2.hw).Settled 0
      ∧ ¬ ((Lines.of B a).bridge
        ((new H a).init B s).2.hw).ShootsThrough := by
  have hccr : ((Lines.of B a).bridge ((new H a).init B s).2.hw).ccr = 0 := by
    rw [init, if_pos (show (new H a).used = true from h)]
    dsimp only
    split <;> split <;> exact if_pos ⟨rfl, rfl⟩
  exact ⟨⟨⟨fun _ => rfl, fun _ => hccr⟩, fun hd => by omega,
    fun hd => by omega⟩, fun hs => hs.2 hccr⟩

/-- From any `init` of a used motor, a sequence of spin calls passes
through no state with both pins high and a compare value that is not 0
exactly when its signed duties switch safely. -/
theorem spins_safely_iff (H : TimHal Tim) (B : MotorTables Tim)
    (a : MotorArgs F) (hused : a.used = true) (s : Pwm Tim)
    (pwms : List Int) :
    let l := Lines.of B a
    let r := (new H a).init B s
    (∀ states ∈ r.1.spinning.outputs r.2.hw pwms, ∀ hw ∈ states,
        ¬ ((l.bridge hw).BothHigh ∧ (l.bridge hw).ccr ≠ 0))
      ↔ SwitchesSafely (decide (l.pinA = l.pinB))
          (pwms.map (Bridge.signed a.invert)) := by
  intro l r
  have hargs : r.1.args = a := init_args.1
  have hon : r.1.On l
      (pwmTiming (B.timClkHz (a.key B).1) a.pwmFrequency a.pwmBits).arr :=
    init_on_timing hused
  obtain ⟨hsettled, hsafe⟩ : (l.bridge r.2.hw).Settled 0
      ∧ ¬ (l.bridge r.2.hw).ShootsThrough := init_settled hused
  have hsim := spinning_simulates hon r.2.hw pwms
  rw [hargs] at hsim
  have harr := pwmTiming_arr_pos (B.timClkHz (a.key B).1) a.pwmFrequency
    a.pwmBits
  rw [← isChain_hazard_iff, ← Bridge.steering_run_iff harr hsettled hsafe,
    ← hsim]
  simp only [List.forall_mem_map]
  rfl

/-- The configured board's first motor: backward, a brake, forward. -/
theorem spins_safely_iff_f446re :
    let l := Lines.of f446reTables (f446reArgs 0)
    let r := (new (stmHal Timer) (f446reArgs 0)).init f446reTables Pwm.boot
    (∀ states ∈ r.1.spinning.outputs r.2.hw [-7, 0, 7], ∀ hw ∈ states,
        ¬ ((l.bridge hw).BothHigh ∧ (l.bridge hw).ccr ≠ 0))
      ↔ SwitchesSafely (decide (l.pinA = l.pinB))
          ([-7, 0, 7].map (Bridge.signed (f446reArgs 0).invert)) :=
  spins_safely_iff (stmHal Timer) f446reTables (f446reArgs 0) (by decide)
    Pwm.boot [-7, 0, 7]

/-- Without the brake both pins are high for a moment, at the compare
value of the reverse. -/
theorem forward_after_reverse_shootsThrough :
    let l := Lines.of f446reTables (f446reArgs 0)
    let r := (new (stmHal Timer) (f446reArgs 0)).init f446reTables Pwm.boot
    ¬ ∀ states ∈ r.1.spinning.outputs r.2.hw [-7, 7], ∀ hw ∈ states,
      ¬ ((l.bridge hw).BothHigh ∧ (l.bridge hw).ccr ≠ 0) := by
  intro l r h
  have hwrites : r.1.spinWrites 7
      = [.dirA true, .dirB false, .duty (pwmClamp 7 r.1.arr)] := rfl
  -- the second call, between its first two writes
  have hcall : (r.1.spinWrites 7).scanl r.1.issue (r.1.spin (-7) r.2.hw)
      ∈ r.1.spinning.outputs r.2.hw [-7, 7] :=
    List.mem_cons_of_mem _ (List.mem_singleton_self _)
  have hstate : r.1.issue (r.1.spin (-7) r.2.hw) (.dirA true)
      ∈ (r.1.spinWrites 7).scanl r.1.issue (r.1.spin (-7) r.2.hw) := by
    rw [hwrites, List.scanl_cons, List.scanl_cons]
    exact List.mem_cons_of_mem _ List.mem_cons_self
  have hpins : (l.bridge (r.1.issue (r.1.spin (-7) r.2.hw)
      (.dirA true))).BothHigh
      ∧ (l.bridge (r.1.issue (r.1.spin (-7) r.2.hw)
        (.dirA true))).ccr ≠ 0 := by
    unfold Bridge.BothHigh
    decide +kernel
  exact h _ hcall _ hstate hpins

end Generic2

end LinoStm32
