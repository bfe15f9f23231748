/-
Which motors `init` really starts.

`HAL_TIM_PWM_Start` succeeds through a motor's handle exactly when that
motor claimed its timer: its handle starts zeroed, and only the claimer
initialises one. So after all `init` calls every used motor's channel is
enabled exactly when every claim succeeded, and the claims of a list of
timers all succeed exactly when no timer occurs twice and the table has
room for them (`afterInit_enabled_iff`, by induction on the calls).

A started channel is all it takes: a later `forward` or `reverse` with a
duty that is not 0 puts out pulses (`started_of_enabled`).
-/
import LinoStm32.Motor

namespace LinoStm32

variable {F : Type} [CFloat F] {Tim : Type} [DecidableEq Tim]
  {H : TimHal Tim}

-- ======================================================= the claim table

section Claim

variable {t : Tim} {claimed : List Tim} {free : Nat}

/-- The table: the claimed timers in order, then free slots. -/
def slots (claimed : List Tim) (free : Nat) : List (Option Tim) :=
  claimed.map some ++ List.replicate free none

/-- A claimed timer is refused. -/
theorem claim_of_mem (h : t ∈ claimed) :
    pwmBaseClaim t (slots claimed free) = (false, slots claimed free) := by
  induction claimed with
  | nil => exact absurd h List.not_mem_nil
  | cons s rest ih =>
      show pwmBaseClaim t (some s :: slots rest free) = _
      by_cases hs : s = t
      · rw [pwmBaseClaim, if_pos hs]
        rfl
      · have hrest : t ∈ rest :=
          (List.mem_cons.mp h).resolve_left fun he => hs he.symm
        rw [pwmBaseClaim, if_neg hs, ih hrest]
        rfl

/-- A full table refuses every timer. -/
theorem claim_of_full :
    pwmBaseClaim t (slots claimed 0) = (false, slots claimed 0) := by
  induction claimed with
  | nil => rfl
  | cons s rest ih =>
      show pwmBaseClaim t (some s :: slots rest 0) = _
      by_cases hs : s = t
      · rw [pwmBaseClaim, if_pos hs]
        rfl
      · rw [pwmBaseClaim, if_neg hs, ih]
        rfl

theorem claim_refused (h : t ∈ claimed ∨ free = 0) :
    (pwmBaseClaim t (slots claimed free)).1 = false := by
  rcases h with hin | rfl
  · rw [claim_of_mem hin]
  · rw [claim_of_full]

/-- Otherwise the timer takes the first free slot. -/
theorem claim_of_free (h : t ∉ claimed) :
    pwmBaseClaim t (slots claimed (free + 1))
      = (true, slots (claimed ++ [t]) free) := by
  induction claimed with
  | nil => rfl
  | cons s rest ih =>
      have hs : s ≠ t := fun he => h (he ▸ List.mem_cons_self)
      have hrest : t ∉ rest := fun hm => h (List.mem_cons_of_mem s hm)
      show pwmBaseClaim t (some s :: slots rest (free + 1)) = _
      rw [pwmBaseClaim, if_neg hs, ih hrest]
      rfl

/-- Claiming these timers one after another would succeed each time: none
twice, none claimed before, and a slot for each. -/
def Claimable (timers claimed : List Tim) (free : Nat) : Prop :=
  timers.Nodup ∧ (∀ t ∈ timers, t ∉ claimed) ∧ timers.length ≤ free

omit [DecidableEq Tim] in
theorem claimable_nil : Claimable [] claimed free :=
  ⟨List.nodup_nil, nofun, Nat.zero_le _⟩

omit [DecidableEq Tim] in
/-- The first claim takes a slot and leaves its timer claimed. -/
theorem claimable_cons {timers : List Tim} (h : t ∉ claimed) :
    Claimable (t :: timers) claimed (free + 1)
      ↔ Claimable timers (claimed ++ [t]) free := by
  unfold Claimable
  simp only [List.nodup_cons, List.forall_mem_cons, List.length_cons,
    List.mem_append, List.mem_singleton, not_or, Nat.add_le_add_iff_right]
  constructor
  · intro hall
    obtain ⟨⟨hnot, hnd⟩, ⟨-, hfresh⟩, hlen⟩ := hall
    refine ⟨hnd, fun u hu => ⟨hfresh u hu, ?_⟩, hlen⟩
    intro he
    exact hnot (he ▸ hu)
  · intro hall
    obtain ⟨hnd, hfresh, hlen⟩ := hall
    exact ⟨⟨fun hm => (hfresh _ hm).2 rfl, hnd⟩,
      ⟨h, fun u hu => (hfresh u hu).1⟩, hlen⟩

omit [DecidableEq Tim] in
/-- A first claim that is refused fails them all. -/
theorem not_claimable {timers : List Tim} (h : t ∈ claimed ∨ free = 0) :
    ¬ Claimable (t :: timers) claimed free := by
  intro hall
  obtain ⟨-, hfresh, hlen⟩ := hall
  rcases h with hin | rfl
  · exact hfresh t List.mem_cons_self hin
  · exact Nat.not_succ_le_zero _ hlen

end Claim

-- ============================================================= one motor

namespace MotorArgs

variable (B : MotorTables Tim) (a : MotorArgs F)

/-- The timer and the channel of a motor. -/
def key : Tim × Nat :=
  ((B.pwmDescriptors a.pwmId).tim, (B.pwmDescriptors a.pwmId).channel)

end MotorArgs

namespace Generic2

variable {B : MotorTables Tim} {a : MotorArgs F} {s : Pwm Tim}

omit [DecidableEq Tim] in
/-- Through a zeroed handle the start succeeds exactly for the claimer. -/
theorem startChannel_zeroed (hH : H.Documented) (claimed : Bool)
    (p : PwmDesc Tim) (t : PwmTiming) :
    (startChannel H claimed p t H.zeroed).1 = claimed := by
  rw [startChannel, hH.pwmStart, hH.configChannel]
  cases claimed with
  | true => exact hH.pwmInit _ _
  | false => exact (hH.setBase _ _ _ _).trans (hH.zeroed _)

theorem init_unused (h : a.used = false) :
    (new H a).init B s = (new H a, s) :=
  if_neg (by show ¬ a.used = true; rw [h]; decide)

/-- What `init` of a used motor does to the shared state. -/
theorem init_claims (h : a.used = true) :
    ((new H a).init B s).2.claims
      = (pwmBaseClaim (a.key B).1 s.claims).2 := by
  rw [init, if_pos (show (new H a).used = true from h)]
  rfl

theorem init_moe (h : a.used = true) (t : Tim) :
    ((new H a).init B s).2.hw.moe t
      = if t = (a.key B).1 then true else s.hw.moe t := by
  rw [init, if_pos (show (new H a).used = true from h)]
  simp only [Hw.writePin_moe, Hw.mainOutput]
  congr 1
  -- neither the base, the compare value nor the enable bit is the MOE bit
  split <;> split <;> rfl

omit [CFloat F] in
theorem ite_enable_enabled (c : Bool) (hw : Hw Tim) (k : Tim × Nat)
    (t : Tim) (ch : Nat) :
    (if c = true then hw.enable k.1 k.2 else hw).enabled t ch
      = if c = true ∧ (t, ch) = k then true else hw.enabled t ch := by
  cases c with
  | true => simp [Hw.enable, Prod.ext_iff]
  | false => simp

/-- The enable bit of the motor's channel is set exactly if the motor
claims its timer; no other bit changes. -/
theorem init_enabled (hH : H.Documented) (h : a.used = true) (t : Tim)
    (ch : Nat) :
    ((new H a).init B s).2.hw.enabled t ch
      = if (pwmBaseClaim (a.key B).1 s.claims).1 = true ∧ (t, ch) = a.key B
        then true else s.hw.enabled t ch := by
  have hstart := startChannel_zeroed hH
    (pwmBaseClaim (a.key B).1 s.claims).1 (B.pwmDescriptors a.pwmId)
    (pwmTiming (B.timClkHz (a.key B).1) a.pwmFrequency a.pwmBits)
  rw [init, if_pos (show (new H a).used = true from h)]
  simp only [Hw.writePin_enabled, Hw.mainOutput_enabled]
  refine (ite_enable_enabled _ _ (a.key B) t ch).trans ?_
  rw [Hw.setCompare_enabled]
  refine (congrArg (fun c => if c = true ∧ (t, ch) = a.key B then true
    else _) hstart).trans ?_
  congr 1
  split <;> rfl

-- ===================================================== all init calls

/-- The timers and channels of the motors in use, in order. -/
def keys (B : MotorTables Tim) (args : List (MotorArgs F)) :
    List (Tim × Nat) :=
  (args.filter (·.used)).map (·.key B)

variable {args : List (MotorArgs F)}

omit [CFloat F] [DecidableEq Tim] in
theorem keys_cons_used {rest : List (MotorArgs F)} (h : a.used = true) :
    keys B (a :: rest) = a.key B :: keys B rest := by
  rw [keys, List.filter_cons_of_pos h]
  rfl

omit [CFloat F] [DecidableEq Tim] in
theorem keys_cons_unused {rest : List (MotorArgs F)}
    (h : a.used = false) : keys B (a :: rest) = keys B rest := by
  rw [keys, List.filter_cons_of_neg (by rw [h]; decide)]
  rfl

/-- The state after the `init` calls of the motors built from `args`. -/
def afterInit (H : TimHal Tim) (B : MotorTables Tim)
    (args : List (MotorArgs F)) (s : Pwm Tim) : Pwm Tim :=
  (initAll B (args.map (new H)) s).2

/-- A channel no motor uses keeps its enable bit. -/
theorem afterInit_frame (hH : H.Documented) {k : Tim × Nat}
    (hk : k ∉ keys B args) :
    (afterInit H B args s).hw.enabled k.1 k.2 = s.hw.enabled k.1 k.2 := by
  induction args generalizing s with
  | nil => rfl
  | cons a rest ih =>
      show (afterInit H B rest ((new H a).init B s).2).hw.enabled _ _ = _
      cases hused : a.used with
      | false =>
          rw [keys_cons_unused hused] at hk
          rw [init_unused hused, ih hk]
      | true =>
          rw [keys_cons_used hused] at hk
          have hne : ¬ (k.1, k.2) = a.key B :=
            fun he => hk (he ▸ List.mem_cons_self)
          rw [ih fun hm => hk (List.mem_cons_of_mem _ hm),
            init_enabled hH hused, if_neg fun hc => hne hc.2]

/-- The main output stays on, and is on for every timer in use. -/
theorem afterInit_moe {t : Tim}
    (ht : s.hw.moe t = true ∨ t ∈ (keys B args).map Prod.fst) :
    (afterInit H B args s).hw.moe t = true := by
  induction args generalizing s with
  | nil => exact ht.resolve_right List.not_mem_nil
  | cons a rest ih =>
      show (afterInit H B rest ((new H a).init B s).2).hw.moe _ = _
      apply ih
      cases hused : a.used with
      | false =>
          rw [keys_cons_unused hused] at ht
          rw [init_unused hused]
          exact ht
      | true =>
          rw [keys_cons_used hused, List.map_cons, List.mem_cons] at ht
          rw [init_moe hused]
          rcases ht with hon | rfl | hin
          · left
            split
            · rfl
            · exact hon
          · exact .inl (if_pos rfl)
          · exact .inr hin

/-- Every used motor's channel ends up enabled exactly when every claim
succeeds. -/
theorem afterInit_enabled_iff (hH : H.Documented) {claimed : List Tim}
    {free : Nat} (hs : s.claims = slots claimed free)
    (hkeys : (keys B args).Nodup)
    (hoff : ∀ k ∈ keys B args, s.hw.enabled k.1 k.2 = false) :
    (∀ k ∈ keys B args,
        (afterInit H B args s).hw.enabled k.1 k.2 = true)
      ↔ Claimable ((keys B args).map Prod.fst) claimed free := by
  induction args generalizing s claimed free with
  | nil => exact ⟨fun _ => claimable_nil, fun _ => nofun⟩
  | cons a rest ih =>
      have hcons : ∀ k : Tim × Nat,
          (afterInit H B (a :: rest) s).hw.enabled k.1 k.2
            = (afterInit H B rest ((new H a).init B s).2).hw.enabled
                k.1 k.2 := fun _ => rfl
      simp only [hcons]
      cases hused : a.used with
      | false =>
          rw [keys_cons_unused hused] at hkeys hoff ⊢
          rw [init_unused hused]
          exact ih hs hkeys hoff
      | true =>
          rw [keys_cons_used hused] at hkeys hoff ⊢
          obtain ⟨hnew, hrest⟩ := List.nodup_cons.mp hkeys
          have hbit := init_enabled (B := B) (s := s) hH hused
          have hself := afterInit_frame (s := ((new H a).init B s).2)
            hH hnew
          have hclaims := init_claims (H := H) (B := B) (s := s) hused
          rw [hs] at hbit hclaims
          rw [List.map_cons, List.forall_mem_cons, hself]
          by_cases hno : (a.key B).1 ∈ claimed ∨ free = 0
          · -- refused: the bit was off and stays off
            rw [claim_refused hno] at hbit
            rw [hbit, if_neg (by simp), hoff _ List.mem_cons_self]
            exact iff_of_false (fun h => Bool.false_ne_true h.1)
              (not_claimable hno)
          · obtain ⟨hin, hfree⟩ := not_or.mp hno
            obtain ⟨n, rfl⟩ := Nat.exists_eq_succ_of_ne_zero hfree
            rw [claim_of_free hin] at hbit hclaims
            have hon : ((new H a).init B s).2.hw.enabled
                (a.key B).1 (a.key B).2 = true := by
              rw [hbit]
              exact if_pos ⟨rfl, rfl⟩
            have hoff' : ∀ k ∈ keys B rest,
                ((new H a).init B s).2.hw.enabled k.1 k.2 = false := by
              intro k hk
              have hne : ¬ (k.1, k.2) = a.key B :=
                fun he => hnew (he ▸ hk)
              rw [hbit, if_neg fun hc => hne hc.2]
              exact hoff k (List.mem_cons_of_mem _ hk)
            rw [claimable_cons hin, ← ih hclaims hrest hoff']
            exact and_iff_right hon

-- ==================================================== driving a motor

section Drive

variable {m : Generic2 F H} {hw : Hw Tim}

omit [CFloat F] in
@[simp] theorem setDuty_enabled (v : Nat) :
    (m.setDuty v hw).enabled = hw.enabled := by
  unfold setDuty
  split <;> rfl

omit [CFloat F] in
@[simp] theorem setDuty_moe (v : Nat) :
    (m.setDuty v hw).moe = hw.moe := by
  unfold setDuty
  split <;> rfl

omit [DecidableEq Tim] in
@[simp] theorem writeDir_enabled (p : Option Pin) (v : Bool) :
    (writeDir p v hw).enabled = hw.enabled := by
  cases p <;> rfl

omit [DecidableEq Tim] in
@[simp] theorem writeDir_moe (p : Option Pin) (v : Bool) :
    (writeDir p v hw).moe = hw.moe := by
  cases p <;> rfl

omit [CFloat F] in
/-- `spin` is one of the three others, with a duty that is 0 only if its
own is. -/
theorem spin_cases (m : Generic2 F H) (pwm : Int) (hw : Hw Tim) :
    ∃ d : Int, (d = 0 ↔ pwm = 0)
      ∧ ((0 < d ∧ m.spin pwm hw = m.forward d hw)
        ∨ (d < 0 ∧ m.spin pwm hw = m.reverse d hw)
        ∨ (d = 0 ∧ m.spin pwm hw = m.brake hw)) := by
  refine ⟨if m.args.invert then pwm * -1 else pwm, ?_, ?_⟩
  · split <;> omega
  · unfold spin
    generalize (if m.args.invert then pwm * -1 else pwm) = d
    rcases lt_trichotomy 0 d with hpos | hzero | hneg
    · exact .inl ⟨hpos, if_pos hpos⟩
    · subst hzero
      exact .inr (.inr ⟨rfl, rfl⟩)
    · have hnot : ¬ 0 < d := by omega
      exact .inr (.inl ⟨hneg, (if_neg hnot).trans (if_pos hneg)⟩)

omit [CFloat F] in
/-- `forward`, `reverse` and `brake` touch neither an enable bit nor a
main output, so `spin` does not either. -/
theorem perform_keeps (m : Generic2 F H) (hw : Hw Tim) (c : DriveCall) :
    (m.perform hw c).enabled = hw.enabled
      ∧ (m.perform hw c).moe = hw.moe := by
  have hforward : ∀ pwm, (m.forward pwm hw).enabled = hw.enabled
      ∧ (m.forward pwm hw).moe = hw.moe := by
    intro pwm
    unfold forward
    split <;> simp
  have hreverse : ∀ pwm, (m.reverse pwm hw).enabled = hw.enabled
      ∧ (m.reverse pwm hw).moe = hw.moe := by
    intro pwm
    unfold reverse
    split <;> simp
  have hbrake : (m.brake hw).enabled = hw.enabled
      ∧ (m.brake hw).moe = hw.moe := by
    unfold brake
    split <;> simp
  cases c with
  | forward pwm => exact hforward pwm
  | reverse pwm => exact hreverse pwm
  | brake => exact hbrake
  | spin pwm =>
      show (m.spin pwm hw).enabled = _ ∧ (m.spin pwm hw).moe = _
      obtain ⟨d, -, h | h | h⟩ := spin_cases m pwm hw
      · rw [h.2]
        exact hforward d
      · rw [h.2]
        exact hreverse d
      · rw [h.2]
        exact hbrake

omit [CFloat F] in
theorem driveAll_keeps (calls : List (Generic2 F H × DriveCall))
    (hw : Hw Tim) :
    (driveAll calls hw).enabled = hw.enabled
      ∧ (driveAll calls hw).moe = hw.moe := by
  induction calls generalizing hw with
  | nil => exact ⟨rfl, rfl⟩
  | cons call rest ih =>
      obtain ⟨m, c⟩ := call
      obtain ⟨hen, hmoe⟩ := perform_keeps m hw c
      obtain ⟨hen', hmoe'⟩ := ih (m.perform hw c)
      exact ⟨hen'.trans hen, hmoe'.trans hmoe⟩

omit [CFloat F] in
/-- With its channel and main output on, a duty above 0 comes out. -/
theorem setDuty_output {t : Tim} {v : Nat} (htim : m.tim = some t)
    (hen : hw.enabled t m.channel = true) (hmoe : hw.moe t = true)
    (hv : 0 < v) : (m.setDuty v hw).Output t m.channel := by
  refine ⟨by rw [setDuty_enabled]; exact hen,
    by rw [setDuty_moe]; exact hmoe, ?_⟩
  rw [setDuty, htim]
  show 0 < if t = t ∧ m.channel = m.channel then v else _
  rw [if_pos ⟨rfl, rfl⟩]
  exact hv

end Drive

/-- The motor is started: its channel is enabled, and after any calls on
any motors a `forward`, a `reverse` or a `spin` with a duty that is not 0
makes it put out pulses. (`forward` is given the duty's own sign, as
`spin` gives it.) -/
def Started (m : Generic2 F H) (hw : Hw Tim) : Prop :=
  ∃ t, m.tim = some t ∧ hw.enabled t m.channel = true
    ∧ ∀ (calls : List (Generic2 F H × DriveCall)) (pwm : Int),
        (0 < pwm → (m.forward pwm (driveAll calls hw)).Output t m.channel)
        ∧ (pwm ≠ 0 →
            (m.reverse pwm (driveAll calls hw)).Output t m.channel
            ∧ (m.spin pwm (driveAll calls hw)).Output t m.channel)

omit [CFloat F] in
/-- A used motor needs no more than its enable bit and main output. -/
theorem started_of_enabled {m : Generic2 F H} {hw : Hw Tim} {t : Tim}
    (hused : m.used = true) (harr : 0 < m.arr) (htim : m.tim = some t)
    (hen : hw.enabled t m.channel = true) (hmoe : hw.moe t = true) :
    m.Started hw := by
  refine ⟨t, htim, hen, fun calls pwm => ?_⟩
  obtain ⟨hen', hmoe'⟩ := driveAll_keeps calls hw
  have hout : ∀ v : Nat, 0 < v → ∀ a b,
      (m.setDuty v (writeDir m.dirB b (writeDir m.dirA a
        (driveAll calls hw)))).Output t m.channel := by
    intro v hv a b
    refine setDuty_output htim ?_ ?_ hv
    · rw [writeDir_enabled, writeDir_enabled, hen']
      exact hen
    · rw [writeDir_moe, writeDir_moe, hmoe']
      exact hmoe
  have hforward : ∀ d : Int, 0 < d →
      (m.forward d (driveAll calls hw)).Output t m.channel := by
    intro d hd
    rw [forward, if_pos hused]
    exact hout _ (pwmClamp_pos hd harr) _ _
  have hreverse : ∀ d : Int, d ≠ 0 →
      (m.reverse d (driveAll calls hw)).Output t m.channel := by
    intro d hd
    rw [reverse, if_pos hused]
    exact hout _ (pwmClamp_pos (abs_pos.mpr hd) harr) _ _
  refine ⟨hforward pwm, fun hpwm => ⟨hreverse pwm hpwm, ?_⟩⟩
  obtain ⟨d, hd, h | h | h⟩ := spin_cases m pwm (driveAll calls hw)
  · rw [h.2]
    exact hforward d h.1
  · rw [h.2]
    exact hreverse d h.1.ne
  · exact absurd (hd.mp h.1) hpwm

-- ============================================================== theorem

/-- The motors after their `init` calls. -/
def motors (H : TimHal Tim) (B : MotorTables Tim)
    (args : List (MotorArgs F)) (s : Pwm Tim) : List (Generic2 F H) :=
  (initAll B (args.map (new H)) s).1

/-- The used ones are on the timers and channels of `keys`. -/
theorem forall_motors_iff {P : Tim → Nat → Prop} :
    (∀ m ∈ motors H B args s, m.used = true →
        ∃ t, m.tim = some t ∧ P t m.channel)
      ↔ ∀ k ∈ keys B args, P k.1 k.2 := by
  induction args generalizing s with
  | nil => exact ⟨fun _ k hk => absurd hk List.not_mem_nil,
      fun _ m hm => absurd hm List.not_mem_nil⟩
  | cons a rest ih =>
      show (∀ m ∈ ((new H a).init B s).1
        :: motors H B rest ((new H a).init B s).2, _) ↔ _
      rw [List.forall_mem_cons, ih]
      cases hused : a.used with
      | false =>
          rw [keys_cons_unused hused, init_unused hused]
          have hno : (new H a).used ≠ true := by
            show a.used ≠ true
            rw [hused]
            decide
          exact ⟨fun h => h.2, fun h => ⟨fun hu => absurd hu hno, h⟩⟩
      | true =>
          rw [keys_cons_used hused, List.forall_mem_cons, init,
            if_pos (show (new H a).used = true from hused)]
          refine and_congr_left fun _ => ⟨fun h => ?_, fun h _ => ⟨_, rfl, h⟩⟩
          obtain ⟨t, ht, hP⟩ := h hused
          cases ht
          exact hP

theorem motors_arr_pos {m : Generic2 F H} (hm : m ∈ motors H B args s)
    (hused : m.used = true) : 0 < m.arr := by
  induction args generalizing s with
  | nil => exact absurd hm List.not_mem_nil
  | cons a rest ih =>
      rcases List.mem_cons.mp hm with rfl | hin
      · cases ha : a.used with
        | false =>
            rw [init_unused ha] at hused
            exact absurd (ha.symm.trans hused) (by decide)
        | true =>
            rw [init, if_pos (show (new H a).used = true from ha)]
            exact pwmTiming_arr_pos _ _ _
      · exact ih hin

/-- All used motors are started once every `init` has run. -/
def AllStarted (H : TimHal Tim) (B : MotorTables Tim)
    (args : List (MotorArgs F)) : Prop :=
  ∀ m ∈ motors H B args Pwm.boot, m.used = true →
    m.Started (afterInit H B args Pwm.boot).hw

theorem AllStarted.enabled (h : AllStarted H B args) :
    ∀ k ∈ keys B args,
      (afterInit H B args Pwm.boot).hw.enabled k.1 k.2 = true := by
  apply (forall_motors_iff (H := H) (s := Pwm.boot) (P := fun t ch =>
    (afterInit H B args Pwm.boot).hw.enabled t ch = true)).mp
  intro m hm hu
  obtain ⟨t, ht, hen, -⟩ := h m hm hu
  exact ⟨t, ht, hen⟩

/-- With any HAL that keeps its documented promises, and no channel given
to two motors, the used motors are all started exactly when no two of
them share a timer and there are at most eight. -/
theorem all_started_iff (hH : H.Documented) (B : MotorTables Tim)
    (args : List (MotorArgs F)) (hdistinct : (keys B args).Nodup) :
    AllStarted H B args
      ↔ ((keys B args).map Prod.fst).Nodup ∧ (keys B args).length ≤ 8 := by
  have hfree : (Pwm.boot : Pwm Tim).claims = slots [] 8 := rfl
  have henabled := afterInit_enabled_iff hH hfree hdistinct fun _ _ => rfl
  have hbits : AllStarted H B args ↔ ∀ k ∈ keys B args,
      (afterInit H B args Pwm.boot).hw.enabled k.1 k.2 = true := by
    constructor
    · exact AllStarted.enabled
    · intro h m hm hu
      have hboth : ∀ k ∈ keys B args,
          (afterInit H B args Pwm.boot).hw.enabled k.1 k.2 = true
          ∧ (afterInit H B args Pwm.boot).hw.moe k.1 = true := fun k hk =>
        ⟨h k hk, afterInit_moe (.inr (List.mem_map_of_mem hk))⟩
      obtain ⟨t, ht, hen, hmoe⟩ :=
        (forall_motors_iff (H := H) (s := Pwm.boot)
          (P := fun t ch =>
            (afterInit H B args Pwm.boot).hw.enabled t ch = true
            ∧ (afterInit H B args Pwm.boot).hw.moe t = true)).mpr hboth m hm hu
      exact started_of_enabled hu (motors_arr_pos hm hu) ht hen hmoe
  rw [hbits, henabled, Claimable, List.length_map]
  constructor
  · intro h
    exact ⟨h.1, h.2.2⟩
  · intro h
    exact ⟨h.1, fun t _ => List.not_mem_nil, h.2⟩

/-- A board with the second motor on a timer of its own. -/
def splitTables : MotorTables Timer :=
  { f446reTables with
    pwmDescriptors := fun id =>
      if id = 1 then ⟨.tim1, 0x0⟩ else f446reTables.pwmDescriptors id }

theorem split_motors_started :
    AllStarted (stmHal Timer) splitTables f446reMotors :=
  (all_started_iff (stmHal_documented _) splitTables f446reMotors
    (by decide +kernel)).mpr (by decide +kernel)

/-- On the configured board the two wheels have channels 1 and 2 of one
timer, and the second is never started. -/
theorem second_motor_dead :
    (stmHal Timer).Documented ∧ (keys f446reTables f446reMotors).Nodup
      ∧ ¬ AllStarted (stmHal Timer) f446reTables f446reMotors := by
  refine ⟨stmHal_documented _, by decide +kernel, fun h => ?_⟩
  have hon := h.enabled (.tim8, 0x4) (by decide +kernel)
  have hoff : (afterInit (stmHal Timer) f446reTables f446reMotors
      Pwm.boot).hw.enabled .tim8 0x4 = false := by decide +kernel
  exact absurd (hoff.symm.trans hon) (by decide)

end Generic2

end LinoStm32
