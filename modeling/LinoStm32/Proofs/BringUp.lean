/-
What holds of the chip when `control_loop_init` is through with it.

Nothing is programmed before its bus clock is on, on exactly the boards
whose descriptors stay within the dispatchers' lists
(`bring_up_clocked_iff`). A timer or pin is what the last driver that set
it up made of it; on a board that gives no two drivers the same one, every
driver finds its own as it left them (`bring_up_keeps`). TIM5 is nobody's
in the tables but counts the microseconds, and still does at the end unless
a descriptor names it; it counts them exactly when its clock is a whole
number of MHz (`micros_exact_iff`).

Motors that share a timer are the one thing that is not apart: the first
claims the time base, and the table of claims keeps the others from setting
it up again, so each timer has one set-up all the same
(`wheelInits_timers`).
-/
import LinoStm32.BringUp
import LinoStm32.Proofs.PwmStart

namespace LinoStm32

-- ================================================================ the clocks

/-- Every access is to a peripheral whose clock was enabled before. -/
def Clocked (ops : List HalOp) : Prop :=
  ∀ pre op post p, ops = pre ++ op :: post → op.access = some p →
    .clockEnable p ∈ pre

/-- An element of two lists in a row is in the second or in the first. -/
theorem split_append {α : Type*} {xs ys pre post : List α} {a : α}
    (h : xs ++ ys = pre ++ a :: post) :
    (∃ pre', pre = xs ++ pre' ∧ ys = pre' ++ a :: post)
      ∨ ∃ rest, xs = pre ++ a :: rest := by
  rcases List.append_eq_append_iff.mp h with
    hsecond | ⟨rest, hxs, hrest⟩
  · exact Or.inl hsecond
  · cases rest with
    | nil =>
        rw [List.append_nil] at hxs
        exact Or.inl ⟨[], by simp [hxs], by simpa using hrest.symm⟩
    | cons b rest =>
        obtain ⟨rfl, -⟩ := List.cons_eq_cons.mp hrest
        exact Or.inr ⟨rest, hxs⟩

theorem Clocked.append {xs ys : List HalOp} (hx : Clocked xs)
    (hy : Clocked ys) : Clocked (xs ++ ys) := by
  intro pre op post p hsplit hp
  rcases split_append hsplit with ⟨pre', rfl, hys⟩ | ⟨rest, hxs⟩
  · exact List.mem_append_right xs (hy pre' op post p hys hp)
  · exact hx pre op rest p hxs hp

theorem clocked_flatMap {ds : List Driver}
    (h : ∀ d ∈ ds, Clocked d.init) : Clocked (ds.flatMap Driver.init) := by
  induction ds with
  | nil =>
      intro pre op post p hsplit
      rw [List.flatMap_nil] at hsplit
      exact absurd hsplit.symm (List.append_ne_nil_of_right_ne_nil _ nofun)
  | cons d ds ih =>
      rw [List.flatMap_cons]
      exact (h d List.mem_cons_self).append
        (ih fun d' hd' => h d' (List.mem_cons_of_mem d hd'))

theorem mem_clkEnable {p : Periph} {op : HalOp} :
    op ∈ clkEnable p ↔ op = .clockEnable p ∧ p.Dispatched := by
  unfold clkEnable
  split
  · next h => simp [h]
  · next h => simp [h]

namespace Driver

variable {d : Driver}

theorem mem_enables {op : HalOp} :
    op ∈ d.uses.flatMap clkEnable
      ↔ ∃ p ∈ d.uses, op = .clockEnable p ∧ p.Dispatched := by
  simp only [List.mem_flatMap, mem_clkEnable]

theorem init_clocked (h : ∀ p ∈ d.uses, p.Dispatched) :
    Clocked d.init := by
  intro pre op post p hsplit hp
  rcases split_append hsplit with ⟨pre', rfl, hops⟩ | ⟨rest, henables⟩
  · have hop : op ∈ d.ops := by
      rw [hops]
      exact List.mem_append_right _ List.mem_cons_self
    obtain ⟨q, hq, haccess⟩ := d.access_mem op hop
    obtain rfl : q = p := Option.some.inj (haccess.symm.trans hp)
    exact List.mem_append_left _ (mem_enables.mpr ⟨q, hq, rfl, h q hq⟩)
  · have hop : op ∈ d.uses.flatMap clkEnable := by
      rw [henables]
      exact List.mem_append_right _ List.mem_cons_self
    obtain ⟨q, -, rfl, -⟩ := mem_enables.mp hop
    cases hp

/-- Only the dispatchers enable a clock. -/
theorem dispatched_of_mem {p : Periph} (h : .clockEnable p ∈ d.init) :
    p.Dispatched := by
  rcases List.mem_append.mp h with henable | hop
  · obtain ⟨q, -, hq, hdisp⟩ := mem_enables.mp henable
    cases hq
    exact hdisp
  · obtain ⟨q, -, haccess⟩ := d.access_mem _ hop
    cases haccess

end Driver

/-- A sequence of drivers is clocked when the dispatchers list all it
uses, and not otherwise. -/
theorem clocked_iff (ds : List Driver) :
    Clocked (ds.flatMap Driver.init)
      ↔ ∀ d ∈ ds, ∀ p ∈ d.uses, p.Dispatched := by
  constructor
  · intro h d hd p hp
    obtain ⟨op, hop, haccess⟩ := d.used p hp
    have hmem : op ∈ ds.flatMap Driver.init :=
      List.mem_flatMap.mpr ⟨d, hd, List.mem_append_right _ hop⟩
    obtain ⟨pre, post, hsplit⟩ := List.append_of_mem hmem
    have hclock : .clockEnable p ∈ ds.flatMap Driver.init := by
      rw [hsplit]
      exact List.mem_append_left _ (h pre op post p hsplit haccess)
    obtain ⟨d', -, hd'⟩ := List.mem_flatMap.mp hclock
    exact Driver.dispatched_of_mem hd'
  · intro h
    exact clocked_flatMap fun d hd => d.init_clocked (h d hd)

variable {F : Type} [CFloat F] {B : BoardTables}

namespace BoardTables

/-- The dispatchers list every peripheral of the descriptors in use. -/
structure Listed (B : BoardTables) (wheels : Fin 4 → WheelArgs F) :
    Prop where
  encoder : ∀ w, (wheels w).encoderUsed = true →
    let d := B.encDescriptors (wheels w).encoderA
    (Periph.tim d.tim).Dispatched ∧ (Periph.gpio d.pinA.port).Dispatched
      ∧ (Periph.gpio d.pinB.port).Dispatched
  motor : ∀ w, (wheels w).motor.used = true →
    let p := B.pwmDescriptors (wheels w).motor.pwmId
    (Periph.tim p.tim).Dispatched ∧ (Periph.gpio p.pin.port).Dispatched
      ∧ (Periph.gpio
        (B.dirDescriptors (wheels w).motor.inAId).port).Dispatched
      ∧ (Periph.gpio
        (B.dirDescriptors (wheels w).motor.inBId).port).Dispatched
  i2c : ∀ d ∈ B.imuI2c,
    (Periph.i2c d.i2c).Dispatched ∧ (Periph.gpio d.scl.port).Dispatched
      ∧ (Periph.gpio d.sda.port).Dispatched

theorem motorInit_uses (a : MotorArgs F) (claims : List (Option Nat)) :
    (B.motorInit a claims).1.uses = (B.motorInit a []).1.uses := by
  unfold motorInit
  split <;> rfl

/-- A property of what the drivers of the wheels use, wheel by wheel. -/
theorem forall_wheelInits {P : Driver → Prop}
    (hP : ∀ d d', d.uses = d'.uses → P d → P d')
    (ws : List (WheelArgs F)) (claims : List (Option Nat)) :
    (∀ d ∈ B.wheelInits ws claims, P d)
      ↔ ∀ w ∈ ws, P (B.encoderInit w) ∧ P (B.motorInit w.motor []).1 := by
  induction ws generalizing claims with
  | nil => simp [wheelInits]
  | cons w ws ih =>
      have hm : P (B.motorInit w.motor claims).1
          ↔ P (B.motorInit w.motor []).1 :=
        ⟨hP _ _ (motorInit_uses _ _), hP _ _ (motorInit_uses _ _).symm⟩
      rw [wheelInits, List.forall_mem_cons, List.forall_mem_cons,
        List.forall_mem_cons, ih, hm, and_assoc]

omit [CFloat F] in
theorem encoderInit_uses_iff {P : Periph → Prop} (w : WheelArgs F) :
    (∀ p ∈ (B.encoderInit w).uses, P p)
      ↔ (w.encoderUsed = true →
        let d := B.encDescriptors w.encoderA
        P (.tim d.tim) ∧ P (.gpio d.pinA.port) ∧ P (.gpio d.pinB.port)) := by
  unfold encoderInit
  split
  · next h => simp [h, EncoderDesc.driver]
  · next h => simp [h, Driver.unused]

theorem motorInit_uses_iff {P : Periph → Prop} (a : MotorArgs F)
    (claims : List (Option Nat)) :
    (∀ p ∈ (B.motorInit a claims).1.uses, P p)
      ↔ (a.used = true →
        let p := B.pwmDescriptors a.pwmId
        P (.tim p.tim) ∧ P (.gpio p.pin.port)
          ∧ P (.gpio (B.dirDescriptors a.inAId).port)
          ∧ P (.gpio (B.dirDescriptors a.inBId).port)) := by
  unfold motorInit
  split
  · next h => simp [h, PwmPinDesc.driver]
  · next h => simp [h, Driver.unused]

/-- `control_loop_init` programs nothing that is not clocked, exactly when
the dispatchers list every peripheral of every descriptor in use. -/
theorem bring_up_clocked_iff (B : BoardTables)
    (wheels : Fin 4 → WheelArgs F) :
    Clocked (B.bringUp wheels) ↔ B.Listed wheels := by
  have htim5 : ∀ p ∈ (linoTimeInit (B.timClkHz 5)).uses, p.Dispatched := by
    simp [linoTimeInit, Periph.Dispatched]
  have hi2c : (∀ d ∈ B.imuI2c.toList.map I2cDesc.driver,
      ∀ p ∈ d.uses, p.Dispatched)
      ↔ ∀ d ∈ B.imuI2c, (Periph.i2c d.i2c).Dispatched
        ∧ (Periph.gpio d.scl.port).Dispatched
        ∧ (Periph.gpio d.sda.port).Dispatched := by
    simp [I2cDesc.driver]
  rw [bringUp, clocked_iff, drivers, List.cons_append,
    List.forall_mem_cons, List.forall_mem_append, hi2c,
    forall_wheelInits (P := fun d => ∀ p ∈ d.uses, p.Dispatched)
      fun d d' huses h => huses ▸ h]
  simp only [encoderInit_uses_iff, motorInit_uses_iff, List.forall_mem_ofFn_iff]
  constructor
  · rintro ⟨-, hwheels, hbus⟩
    exact ⟨fun w => (hwheels w).1, fun w => (hwheels w).2, hbus⟩
  · rintro ⟨hencoder, hmotor, hbus⟩
    exact ⟨htim5, fun w => ⟨hencoder w, hmotor w⟩, hbus⟩

end BoardTables

-- =========================================================== what is set up

section Writes

variable {κ ν : Type*} [DecidableEq κ]

/-- Registers after a list of writes. -/
def stored (ws : List (κ × ν)) (f : κ → ν) : κ → ν :=
  ws.foldl (fun g w => Function.update g w.1 w.2) f

theorem stored_of_notMem {ws : List (κ × ν)} {k : κ} (f : κ → ν)
    (h : k ∉ ws.map Prod.fst) : stored ws f k = f k := by
  induction ws generalizing f with
  | nil => rfl
  | cons w ws ih =>
      rw [List.map_cons, List.mem_cons, not_or] at h
      show stored ws (Function.update f w.1 w.2) k = f k
      rw [ih _ h.2, Function.update_of_ne h.1]

/-- A register that is written once holds what was written. -/
theorem stored_of_mem {ws : List (κ × ν)} {k : κ} {v : ν} (f : κ → ν)
    (hnodup : (ws.map Prod.fst).Nodup) (h : (k, v) ∈ ws) :
    stored ws f k = v := by
  induction ws generalizing f with
  | nil => cases h
  | cons w ws ih =>
      rw [List.map_cons, List.nodup_cons] at hnodup
      show stored ws (Function.update f w.1 w.2) k = v
      rcases List.mem_cons.mp h with rfl | hrest
      · rw [stored_of_notMem _ hnodup.1, Function.update_self]
      · exact ih _ hnodup.2 hrest

/-- One that is written at all holds something that was written. -/
theorem stored_mem {ws : List (κ × ν)} {k : κ} (f : κ → ν)
    (h : k ∈ ws.map Prod.fst) : (k, stored ws f k) ∈ ws := by
  induction ws generalizing f with
  | nil => cases h
  | cons w ws ih =>
      show (k, stored ws (Function.update f w.1 w.2) k) ∈ w :: ws
      by_cases hrest : k ∈ ws.map Prod.fst
      · exact List.mem_cons_of_mem w (ih _ hrest)
      · rw [List.map_cons, List.mem_cons] at h
        obtain rfl := h.resolve_right hrest
        rw [stored_of_notMem _ hrest, Function.update_self]
        exact List.mem_cons_self

end Writes

namespace Chip

theorem run_timer (c : Chip) (ops : List HalOp) :
    (c.run ops).timer = stored (ops.filterMap HalOp.timer) c.timer := by
  induction ops generalizing c with
  | nil => rfl
  | cons op ops ih =>
      show ((c.exec op).run ops).timer = _
      rw [ih]
      cases op <;> rfl

theorem run_pin (c : Chip) (ops : List HalOp) :
    (c.run ops).pin = stored (ops.filterMap HalOp.pin) c.pin := by
  induction ops generalizing c with
  | nil => rfl
  | cons op ops ih =>
      show ((c.exec op).run ops).pin = _
      rw [ih]
      cases op <;> rfl

end Chip

namespace Driver

/-- The timers it sets up, and as what. -/
def timers (d : Driver) : List (Nat × TimerMode) :=
  d.ops.filterMap HalOp.timer

/-- The pins it sets up, and as what. -/
def pins (d : Driver) : List (Pin × PinMode) := d.ops.filterMap HalOp.pin

theorem filterMap_enables {α : Type*} (f : HalOp → Option α)
    (hf : ∀ p, f (.clockEnable p) = none) (ps : List Periph) :
    (ps.flatMap clkEnable).filterMap f = [] := by
  rw [List.filterMap_eq_nil_iff]
  intro op hop
  obtain ⟨p, -, hp⟩ := List.mem_flatMap.mp hop
  rw [(mem_clkEnable.mp hp).1, hf]

theorem filterMap_inits {α : Type*} (f : HalOp → Option α)
    (hf : ∀ p, f (.clockEnable p) = none) (ds : List Driver) :
    (ds.flatMap init).filterMap f = ds.flatMap fun d => d.ops.filterMap f := by
  induction ds with
  | nil => rfl
  | cons d ds ih =>
      rw [List.flatMap_cons, List.filterMap_append, ih, List.flatMap_cons,
        init, List.filterMap_append, filterMap_enables f hf,
        List.nil_append]

end Driver

namespace BoardTables

/-- The timer of the encoder, if it is used. -/
def encoderTimer (B : BoardTables) (w : WheelArgs F) : List Nat :=
  if w.encoderUsed then [(B.encDescriptors w.encoderA).tim] else []

/-- The timer of the motor, if it is used. -/
def motorTimer (B : BoardTables) (w : WheelArgs F) : List Nat :=
  if w.motor.used then [(B.pwmDescriptors w.motor.pwmId).tim] else []

/-- The time base its motor would set up. -/
def timing (B : BoardTables) (w : WheelArgs F) : PwmTiming :=
  pwmTiming (B.timClkHz (B.pwmDescriptors w.motor.pwmId).tim)
    w.motor.pwmFrequency w.motor.pwmBits

/-- The timer its motor claims, after those in `claimed`. -/
def claim (B : BoardTables) (claimed : List Nat) (w : WheelArgs F) :
    List Nat :=
  (B.motorTimer w).filter fun t => decide (t ∉ claimed)

omit [CFloat F] in
theorem encoderInit_timers (w : WheelArgs F) :
    (B.encoderInit w).timers = (B.encoderTimer w).map (fun t =>
      (t, TimerMode.quadrature (B.encDescriptors w.encoderA).is32)) := by
  unfold encoderInit encoderTimer
  split <;> rfl

/-- A motor sets its timer up when it is the first to claim it. -/
theorem motorInit_timers (w : WheelArgs F) (claimed : List Nat)
    (free : Nat) :
    (B.motorInit w.motor (slots claimed (free + 1))).1.timers
      = (B.claim claimed w).map (fun t => (t, TimerMode.pwm (B.timing w))) := by
  unfold motorInit claim motorTimer
  split
  · by_cases hmem : (B.pwmDescriptors w.motor.pwmId).tim ∈ claimed
    · simp [claim_of_mem hmem, hmem, PwmPinDesc.driver, Driver.timers,
        HalOp.timer]
    · simp [claim_of_free hmem, hmem, PwmPinDesc.driver, Driver.timers,
        HalOp.timer, timing]
  · rfl

theorem motorInit_claims (w : WheelArgs F) (claimed : List Nat)
    (free : Nat) :
    ∃ free', free ≤ free' ∧
      (B.motorInit w.motor (slots claimed (free + 1))).2
        = slots (claimed ++ B.claim claimed w) free' := by
  unfold motorInit claim motorTimer
  split
  · by_cases hmem : (B.pwmDescriptors w.motor.pwmId).tim ∈ claimed
    · exact ⟨free + 1, Nat.le_succ free, by simp [claim_of_mem hmem, hmem]⟩
    · exact ⟨free, le_rfl, by simp [claim_of_free hmem, hmem]⟩
  · exact ⟨free + 1, Nat.le_succ free, by simp⟩

/-- What the loop over the wheels makes of the timers. -/
def writes (B : BoardTables) :
    List (WheelArgs F) → List Nat → List (Nat × TimerMode)
  | [], _ => []
  | w :: rest, claimed =>
      (B.encoderTimer w).map (fun t =>
          (t, .quadrature (B.encDescriptors w.encoderA).is32))
        ++ (B.claim claimed w).map (fun t => (t, .pwm (B.timing w)))
        ++ B.writes rest (claimed ++ B.claim claimed w)

theorem wheelInits_timers (ws : List (WheelArgs F)) (claimed : List Nat)
    {free : Nat} (hfree : ws.length ≤ free) :
    (B.wheelInits ws (slots claimed free)).flatMap Driver.timers
      = B.writes ws claimed := by
  induction ws generalizing claimed free with
  | nil => rfl
  | cons w ws ih =>
      obtain ⟨n, rfl⟩ : ∃ n, free = n + 1 :=
        Nat.exists_eq_add_one.mpr (Nat.lt_of_lt_of_le (Nat.succ_pos _) hfree)
      obtain ⟨free', hle, hclaims⟩ := motorInit_claims (B := B) w claimed n
      rw [wheelInits, hclaims, List.flatMap_cons, List.flatMap_cons,
        encoderInit_timers, motorInit_timers,
        ih (claimed ++ B.claim claimed w)
          ((Nat.le_of_succ_le_succ hfree).trans hle), writes,
        List.append_assoc]

omit [CFloat F] in
theorem mem_claim {claimed : List Nat} {w : WheelArgs F} {t : Nat} :
    t ∈ B.claim claimed w ↔ t ∈ B.motorTimer w ∧ t ∉ claimed := by
  simp [claim]

/-- The timers are those of encoders and of motors not claimed before. -/
theorem mem_writes {ws : List (WheelArgs F)} {claimed : List Nat} {t : Nat}
    {m : TimerMode} (h : (t, m) ∈ B.writes ws claimed) :
    (∃ w ∈ ws, t ∈ B.encoderTimer w
        ∧ m = .quadrature (B.encDescriptors w.encoderA).is32)
      ∨ ∃ w ∈ ws, t ∈ B.motorTimer w ∧ t ∉ claimed
        ∧ m = .pwm (B.timing w) := by
  induction ws generalizing claimed with
  | nil => cases h
  | cons w ws ih =>
      rw [writes, List.mem_append, List.mem_append] at h
      rcases h with (henc | hmot) | hrest
      · obtain ⟨t', ht', heq⟩ := List.mem_map.mp henc
        cases heq
        exact Or.inl ⟨w, List.mem_cons_self, ht', rfl⟩
      · obtain ⟨t', ht', heq⟩ := List.mem_map.mp hmot
        cases heq
        obtain ⟨hmem, hnot⟩ := mem_claim.mp ht'
        exact Or.inr ⟨w, List.mem_cons_self, hmem, hnot, rfl⟩
      · rcases ih hrest with ⟨w', hw', henc⟩ | ⟨w', hw', hmem, hnot, hm⟩
        · exact Or.inl ⟨w', List.mem_cons_of_mem w hw', henc⟩
        · exact Or.inr ⟨w', List.mem_cons_of_mem w hw', hmem,
            fun hc => hnot (List.mem_append_left _ hc), hm⟩

theorem encoder_mem_writes {ws : List (WheelArgs F)} (claimed : List Nat)
    {w : WheelArgs F} (hw : w ∈ ws) {t : Nat} (ht : t ∈ B.encoderTimer w) :
    (t, .quadrature (B.encDescriptors w.encoderA).is32)
      ∈ B.writes ws claimed := by
  induction ws generalizing claimed with
  | nil => cases hw
  | cons w' ws ih =>
      rw [writes, List.mem_append, List.mem_append]
      rcases List.mem_cons.mp hw with rfl | hrest
      · exact Or.inl (Or.inl (List.mem_map_of_mem ht))
      · exact Or.inr (ih _ hrest)

/-- A motor's timer is set up for it, or for the motor that claimed it. -/
theorem motor_mem_writes {ws : List (WheelArgs F)} (claimed : List Nat)
    {w : WheelArgs F} (hw : w ∈ ws) {t : Nat} (ht : t ∈ B.motorTimer w)
    (hnot : t ∉ claimed) :
    ∃ w' ∈ ws, t ∈ B.motorTimer w'
      ∧ (t, .pwm (B.timing w')) ∈ B.writes ws claimed := by
  induction ws generalizing claimed with
  | nil => cases hw
  | cons u ws ih =>
      by_cases hu : t ∈ B.motorTimer u
      · refine ⟨u, List.mem_cons_self, hu, ?_⟩
        rw [writes, List.mem_append, List.mem_append]
        exact Or.inl (Or.inr (List.mem_map_of_mem
          (mem_claim.mpr ⟨hu, hnot⟩)))
      · have hw' : w ∈ ws := by
          rcases List.mem_cons.mp hw with rfl | hrest
          · exact absurd ht hu
          · exact hrest
        obtain ⟨w', hmem, ht', hwrite⟩ :=
          ih (claimed ++ B.claim claimed u) hw' (by
            rw [List.mem_append, not_or]
            exact ⟨hnot, fun hc => hu (mem_claim.mp hc).1⟩)
        refine ⟨w', List.mem_cons_of_mem u hmem, ht', ?_⟩
        rw [writes, List.mem_append]
        exact Or.inr hwrite

theorem keys_writes {ws : List (WheelArgs F)} {claimed : List Nat}
    {t : Nat} (h : t ∈ (B.writes ws claimed).map Prod.fst) :
    t ∈ ws.flatMap B.encoderTimer
      ∨ t ∈ ws.flatMap B.motorTimer ∧ t ∉ claimed := by
  obtain ⟨⟨_, m⟩, hmem, rfl⟩ := List.mem_map.mp h
  rcases mem_writes hmem with ⟨w, hw, ht, -⟩ | ⟨w, hw, ht, hnot, -⟩
  · exact Or.inl (List.mem_flatMap.mpr ⟨w, hw, ht⟩)
  · exact Or.inr ⟨List.mem_flatMap.mpr ⟨w, hw, ht⟩, hnot⟩

omit [CFloat F] in
theorem nodup_claim (claimed : List Nat) (w : WheelArgs F) :
    (B.claim claimed w).Nodup := by
  refine List.Nodup.filter _ ?_
  unfold motorTimer
  split
  · exact List.nodup_singleton _
  · exact List.nodup_nil

/-- Encoders apart from each other and from the motors: no timer is set up
twice. -/
theorem nodup_writes {ws : List (WheelArgs F)} (claimed : List Nat)
    (henc : (ws.flatMap B.encoderTimer).Nodup)
    (hapart : ∀ t ∈ ws.flatMap B.motorTimer,
      t ∉ ws.flatMap B.encoderTimer) :
    ((B.writes ws claimed).map Prod.fst).Nodup := by
  induction ws generalizing claimed with
  | nil => exact List.nodup_nil
  | cons w ws ih =>
      rw [List.flatMap_cons, List.nodup_append'] at henc
      obtain ⟨hone, hrest, hdisj⟩ := henc
      have hmotor : ∀ t, t ∈ B.motorTimer w ∨ t ∈ ws.flatMap B.motorTimer →
          t ∉ B.encoderTimer w ∧ t ∉ ws.flatMap B.encoderTimer := by
        intro t ht
        have hnot := hapart t (by
          rw [List.flatMap_cons]
          exact List.mem_append.mpr ht)
        rw [List.flatMap_cons, List.mem_append, not_or] at hnot
        exact hnot
      have htail := ih (claimed ++ B.claim claimed w) hrest
        fun t ht => (hmotor t (Or.inr ht)).2
      simp only [writes, List.map_append, List.map_map, Function.comp_def,
        List.map_id']
      rw [List.append_assoc, List.nodup_append', List.nodup_append']
      refine ⟨hone, ⟨nodup_claim claimed w, htail, ?_⟩, ?_⟩
      · intro t ht hkey
        rcases keys_writes hkey with henc | ⟨-, hnot⟩
        · exact (hmotor t (Or.inl (mem_claim.mp ht).1)).2 henc
        · exact hnot (List.mem_append_right _ ht)
      · intro t ht hrest
        rcases List.mem_append.mp hrest with hclaim | hkey
        · exact (hmotor t (Or.inl (mem_claim.mp hclaim).1)).1 ht
        · rcases keys_writes hkey with henc | ⟨hmot, -⟩
          · exact hdisj ht henc
          · exact (hmotor t (Or.inr hmot)).1 ht

-- ------------------------------------------------------------------ the pins

/-- The pins of the encoder, if it is used. -/
def encoderPins (B : BoardTables) (w : WheelArgs F) : List Pin :=
  let d := B.encDescriptors w.encoderA
  if w.encoderUsed then [d.pinA, d.pinB] else []

/-- The pins of the motor, if it is used. -/
def motorPins (B : BoardTables) (w : WheelArgs F) : List Pin :=
  if w.motor.used then
    [(B.pwmDescriptors w.motor.pwmId).pin,
      B.dirDescriptors w.motor.inAId, B.dirDescriptors w.motor.inBId]
  else []

/-- All pins of descriptors in use. -/
def pins (B : BoardTables) (wheels : Fin 4 → WheelArgs F) : List Pin :=
  (List.ofFn wheels).flatMap (fun w => B.encoderPins w ++ B.motorPins w)
    ++ B.imuI2c.toList.flatMap fun d => [d.scl, d.sda]

omit [CFloat F] in
theorem encoderInit_pins (w : WheelArgs F) :
    (B.encoderInit w).pins.map Prod.fst = B.encoderPins w := by
  unfold encoderInit encoderPins
  split <;> rfl

theorem pwmDriver_pins (p : PwmPinDesc) (a b : Pin) (t : PwmTiming)
    (claimed : Bool) :
    (p.driver a b t claimed).pins
      = [(p.pin, .alternate p.af), (a, .output), (b, .output)] := by
  cases claimed <;> rfl

theorem motorInit_pins (w : WheelArgs F) (claims : List (Option Nat)) :
    (B.motorInit w.motor claims).1.pins
      = (B.motorInit w.motor []).1.pins := by
  unfold motorInit
  split
  · exact (pwmDriver_pins _ _ _ _ _).trans (pwmDriver_pins _ _ _ _ _).symm
  · rfl

theorem motorInit_pins_keys (w : WheelArgs F) :
    (B.motorInit w.motor []).1.pins.map Prod.fst = B.motorPins w := by
  unfold motorInit motorPins
  split <;> rfl

theorem wheelInits_pins (ws : List (WheelArgs F))
    (claims : List (Option Nat)) :
    (B.wheelInits ws claims).flatMap Driver.pins
      = ws.flatMap fun w =>
        (B.encoderInit w).pins ++ (B.motorInit w.motor []).1.pins := by
  induction ws generalizing claims with
  | nil => rfl
  | cons w ws ih =>
      rw [wheelInits, List.flatMap_cons, List.flatMap_cons, ih,
        motorInit_pins, List.flatMap_cons, List.append_assoc]

/-- Everything done to the pins. -/
theorem bringUp_pins (wheels : Fin 4 → WheelArgs F) :
    (B.bringUp wheels).filterMap HalOp.pin
      = (List.ofFn wheels).flatMap (fun w =>
          (B.encoderInit w).pins ++ (B.motorInit w.motor []).1.pins)
        ++ B.imuI2c.toList.flatMap fun d => d.driver.pins := by
  rw [bringUp, Driver.filterMap_inits HalOp.pin fun _ => rfl]
  show (B.drivers wheels).flatMap Driver.pins = _
  rw [drivers, List.flatMap_append, List.flatMap_cons, wheelInits_pins,
    List.flatMap_map]
  rfl

theorem bringUp_pins_keys (wheels : Fin 4 → WheelArgs F) :
    ((B.bringUp wheels).filterMap HalOp.pin).map Prod.fst
      = B.pins wheels := by
  rw [bringUp_pins, pins, List.map_append, List.map_flatMap,
    List.map_flatMap]
  simp only [List.map_append, encoderInit_pins, motorInit_pins_keys]
  rfl

/-- Everything done to the timers. -/
theorem bringUp_timers (wheels : Fin 4 → WheelArgs F) :
    (B.bringUp wheels).filterMap HalOp.timer
      = (linoTimeInit (B.timClkHz 5)).timers
        ++ B.writes (List.ofFn wheels) [] := by
  have hroom : (List.ofFn wheels).length ≤ 8 := by
    rw [List.length_ofFn]
    decide
  rw [bringUp, Driver.filterMap_inits HalOp.timer fun _ => rfl]
  show (B.drivers wheels).flatMap Driver.timers = _
  rw [drivers, List.flatMap_append, List.flatMap_cons,
    ← wheelInits_timers (List.ofFn wheels) [] hroom, List.flatMap_map]
  have hi2c : (B.imuI2c.toList.flatMap fun d => d.driver.timers) = [] := by
    rw [List.flatMap_eq_nil_iff]
    exact fun d _ => rfl
  rw [hi2c, List.append_nil]
  rfl

-- ------------------------------------------------------------ what is kept

/-- The descriptors in use name no pin twice, no timer for two encoders or
for an encoder and a motor, and not TIM5. -/
structure Apart (B : BoardTables) (wheels : Fin 4 → WheelArgs F) :
    Prop where
  pins : (B.pins wheels).Nodup
  encoders : ((List.ofFn wheels).flatMap B.encoderTimer).Nodup
  motors : ∀ t ∈ (List.ofFn wheels).flatMap B.motorTimer,
    t ∉ (List.ofFn wheels).flatMap B.encoderTimer
  micros : 5 ∉ (List.ofFn wheels).flatMap B.encoderTimer
    ∧ 5 ∉ (List.ofFn wheels).flatMap B.motorTimer

/-- Every driver finds its timer and pins as it set them up; of motors on
one timer, as one of them did. -/
structure Kept (B : BoardTables) (wheels : Fin 4 → WheelArgs F)
    (c : Chip) : Prop where
  encoder : ∀ w, (wheels w).encoderUsed = true →
    let d := B.encDescriptors (wheels w).encoderA
    c.timer d.tim = .quadrature d.is32
      ∧ c.pin d.pinA = .alternate d.af ∧ c.pin d.pinB = .alternate d.af
  motor : ∀ w, (wheels w).motor.used = true →
    let p := B.pwmDescriptors (wheels w).motor.pwmId
    (∃ v, (wheels v).motor.used = true
        ∧ (B.pwmDescriptors (wheels v).motor.pwmId).tim = p.tim
        ∧ c.timer p.tim = .pwm (B.timing (wheels v)))
      ∧ c.pin p.pin = .alternate p.af
      ∧ c.pin (B.dirDescriptors (wheels w).motor.inAId) = .output
      ∧ c.pin (B.dirDescriptors (wheels w).motor.inBId) = .output
  i2c : ∀ d ∈ B.imuI2c, c.pin d.scl = .openDrain d.af
    ∧ c.pin d.sda = .openDrain d.af
  micros : ∃ psc, c.timer 5 = .freeRunning psc

/-- On a board whose descriptors are apart, `control_loop_init` leaves
every driver what it set up; whether the clocks were on by then is
`bring_up_clocked_iff`. -/
theorem bring_up_keeps {wheels : Fin 4 → WheelArgs F}
    (h : B.Apart wheels) :
    B.Kept wheels (Chip.reset.run (B.bringUp wheels)) := by
  have hpin : ∀ p m, (p, m) ∈ (B.bringUp wheels).filterMap HalOp.pin →
      (Chip.reset.run (B.bringUp wheels)).pin p = m := by
    intro p m hmem
    rw [Chip.run_pin]
    refine stored_of_mem _ ?_ hmem
    rw [bringUp_pins_keys]
    exact h.pins
  have htimer : ∀ t m,
      (t, m) ∈ (linoTimeInit (B.timClkHz 5)).timers
        ++ B.writes (List.ofFn wheels) [] →
      (Chip.reset.run (B.bringUp wheels)).timer t = m := by
    intro t m hmem
    rw [Chip.run_timer, bringUp_timers]
    refine stored_of_mem _ ?_ hmem
    rw [List.map_append, List.nodup_append']
    refine ⟨List.nodup_singleton _,
      nodup_writes [] h.encoders h.motors, ?_⟩
    intro k hk hkey
    obtain rfl : k = 5 := List.mem_singleton.mp hk
    rcases keys_writes hkey with henc | ⟨hmot, -⟩
    · exact h.micros.1 henc
    · exact h.micros.2 hmot
  have hwheel : ∀ w, wheels w ∈ List.ofFn wheels := fun w =>
    (List.mem_ofFn' wheels (wheels w)).mpr ⟨w, rfl⟩
  have hpins : ∀ w q,
      q ∈ (B.encoderInit (wheels w)).pins
        ++ (B.motorInit (wheels w).motor []).1.pins →
      (Chip.reset.run (B.bringUp wheels)).pin q.1 = q.2 := by
    intro w q hq
    refine hpin q.1 q.2 ?_
    rw [bringUp_pins]
    exact List.mem_append_left _
      (List.mem_flatMap.mpr ⟨wheels w, hwheel w, hq⟩)
  refine ⟨fun w hused => ?_, fun w hused => ?_, fun d hd => ?_, ?_⟩
  · have hinit : B.encoderInit (wheels w)
        = (B.encDescriptors (wheels w).encoderA).driver := if_pos hused
    have ht : (B.encDescriptors (wheels w).encoderA).tim
        ∈ B.encoderTimer (wheels w) := by
      simp [encoderTimer, hused]
    refine ⟨htimer _ _ (List.mem_append_right _
      (encoder_mem_writes [] (hwheel w) ht)), ?_, ?_⟩
    · exact hpins w (_, _) (by simp [hinit, EncoderDesc.driver,
        Driver.pins, HalOp.pin])
    · exact hpins w (_, _) (by simp [hinit, EncoderDesc.driver,
        Driver.pins, HalOp.pin])
  · have hinit : (B.motorInit (wheels w).motor []).1.pins
        = [((B.pwmDescriptors (wheels w).motor.pwmId).pin,
            .alternate (B.pwmDescriptors (wheels w).motor.pwmId).af),
          (B.dirDescriptors (wheels w).motor.inAId, .output),
          (B.dirDescriptors (wheels w).motor.inBId, .output)] := by
      rw [motorInit, if_pos hused]
      exact pwmDriver_pins _ _ _ _ _
    have ht : (B.pwmDescriptors (wheels w).motor.pwmId).tim
        ∈ B.motorTimer (wheels w) := by
      simp [motorTimer, hused]
    obtain ⟨_, hmem, ht', hwrite⟩ :=
      motor_mem_writes [] (hwheel w) ht List.not_mem_nil
    obtain ⟨v, rfl⟩ := (List.mem_ofFn' wheels _).mp hmem
    have hv : (wheels v).motor.used = true
        ∧ (B.pwmDescriptors (wheels v).motor.pwmId).tim
          = (B.pwmDescriptors (wheels w).motor.pwmId).tim := by
      unfold motorTimer at ht'
      split at ht'
      · next hvused => exact ⟨hvused, (List.mem_singleton.mp ht').symm⟩
      · cases ht'
    refine ⟨⟨v, hv.1, hv.2, htimer _ _ (List.mem_append_right _ hwrite)⟩,
      ?_, ?_, ?_⟩
    · exact hpins w (_, _) (by simp [hinit])
    · exact hpins w (_, _) (by simp [hinit])
    · exact hpins w (_, _) (by simp [hinit])
  · have hbus : ∀ q ∈ d.driver.pins,
        (Chip.reset.run (B.bringUp wheels)).pin q.1 = q.2 := by
      intro q hq
      refine hpin q.1 q.2 ?_
      rw [bringUp_pins]
      exact List.mem_append_right _
        (List.mem_flatMap.mpr ⟨d, Option.mem_toList.mpr hd, hq⟩)
    exact ⟨hbus _ List.mem_cons_self,
      hbus _ (List.mem_cons_of_mem _ List.mem_cons_self)⟩
  · exact ⟨_, htimer 5 _ (List.mem_append_left _ List.mem_cons_self)⟩

/-- The configured board's descriptors are apart. -/
theorem bring_up_keeps_f446re :
    f446reBoard.Kept f446reWheels
      (Chip.reset.run (f446reBoard.bringUp f446reWheels)) :=
  bring_up_keeps
    { pins := by decide +kernel
      encoders := by decide +kernel
      motors := by decide +kernel
      micros := by decide +kernel }

-- ---------------------------------------------------------------- the micros

/-- TIM5 counts microseconds, over 32 bits. -/
def CountsMicros (B : BoardTables) (c : Chip) : Prop :=
  ∃ psc, c.timer 5 = .freeRunning psc
    ∧ B.timClkHz 5 = 1000000 * (psc + 1)

/-- The prescaler `lino_time_init` derives is right for the whole MHz. -/
theorem prescaler_exact_iff (clkHz : Nat) :
    clkHz = 1000000 * ((if 0 < clkHz / 1000000 then clkHz / 1000000 - 1
        else 0) + 1)
      ↔ 0 < clkHz ∧ 1000000 ∣ clkHz := by
  split
  · next h =>
      rw [Nat.sub_add_cancel h]
      constructor
      · exact fun hclk => ⟨Nat.pos_of_ne_zero (by
          rintro rfl
          simp at h), Dvd.intro _ hclk.symm⟩
      · exact fun ⟨_, hdvd⟩ => (Nat.mul_div_cancel' hdvd).symm
  · next h => omega

/-- `lino_micros` counts microseconds, over 32 bits, after
`control_loop_init` exactly when the timer clock is a whole number of MHz
and no descriptor in use names TIM5. -/
theorem micros_exact_iff (B : BoardTables) (wheels : Fin 4 → WheelArgs F) :
    B.CountsMicros (Chip.reset.run (B.bringUp wheels))
      ↔ (0 < B.timClkHz 5 ∧ 1000000 ∣ B.timClkHz 5)
        ∧ 5 ∉ (List.ofFn wheels).flatMap B.encoderTimer
        ∧ 5 ∉ (List.ofFn wheels).flatMap B.motorTimer := by
  set ws := B.writes (List.ofFn wheels) []
  have htimer : (Chip.reset.run (B.bringUp wheels)).timer 5
      = stored ws (stored (linoTimeInit (B.timClkHz 5)).timers
        Chip.reset.timer) 5 := by
    rw [Chip.run_timer, bringUp_timers, stored, List.foldl_append]
    rfl
  have hfirst : 5 ∉ ws.map Prod.fst →
      (Chip.reset.run (B.bringUp wheels)).timer 5
        = .freeRunning (if 0 < B.timClkHz 5 / 1000000
          then B.timClkHz 5 / 1000000 - 1 else 0) := by
    intro hnot
    rw [htimer, stored_of_notMem _ hnot]
    exact stored_of_mem _ (List.nodup_singleton _) List.mem_cons_self
  constructor
  · rintro ⟨psc, hrun, hclk⟩
    -- what the wheels write is never a free-running counter
    have hnot : 5 ∉ ws.map Prod.fst := by
      intro hmem
      have hval := stored_mem (stored (linoTimeInit (B.timClkHz 5)).timers
        Chip.reset.timer) hmem
      rw [← htimer, hrun] at hval
      rcases mem_writes hval with ⟨_, -, -, hm⟩ | ⟨_, -, -, -, hm⟩
      · cases hm
      · cases hm
    obtain rfl := TimerMode.freeRunning.inj ((hfirst hnot).symm.trans hrun)
    refine ⟨(prescaler_exact_iff _).mp hclk, fun henc => hnot ?_,
      fun hmot => hnot ?_⟩
    · obtain ⟨w, hw, ht⟩ := List.mem_flatMap.mp henc
      exact List.mem_map_of_mem (encoder_mem_writes [] hw ht)
    · obtain ⟨w, hw, ht⟩ := List.mem_flatMap.mp hmot
      obtain ⟨_, -, -, hwrite⟩ :=
        motor_mem_writes [] hw ht List.not_mem_nil
      exact List.mem_map_of_mem hwrite
  · rintro ⟨hclk, henc, hmot⟩
    refine ⟨_, hfirst fun hkey => ?_, (prescaler_exact_iff _).mpr hclk⟩
    rcases keys_writes hkey with hmem | ⟨hmem, -⟩
    · exact henc hmem
    · exact hmot hmem

end BoardTables

end LinoStm32
