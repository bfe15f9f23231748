/-
The controller against its reference law, what a rest sample makes it
forget, and how far its integral winds up.

The law is stated on the calls alone: the gains are those of the latest
`updateConstants`, the error sum runs over the window since the latest
rest sample, the error step is taken from the latest sample of any kind.
`Tracks` says that the object stores exactly this, which is two
registers and one accumulator of `Lib.Window`.

# Rest

A rest sample leaves the stored terms of a fresh object
(`sample_rest_eq_new`), so a controller that has rested and a fresh one
are the same controller, whatever came before.

# Windup

The clamp bounds what `compute` returns and nothing else. What the
integral can reach is therefore read off the law: the error sum of the
window, whatever its size (`windup_bounded_iff`).
-/
import LinoStm32.ControlCore
import LinoStm32.Motor
import LinoStm32.Lib.Window

namespace LinoStm32

variable {K : Type} [Field K] [LinearOrder K] [FloorRing K]

namespace PID

-- ============================================== what the calls determine

/-- The three gains together. -/
structure Gains (F : Type) where
  kp : F
  ki : F
  kd : F

def gains (p : PID K) : Gains K := ⟨p.kp, p.ki, p.kd⟩

namespace Call

/-- The gains a call sets. -/
def sets : Call K → Option (Gains K)
  | .compute _ _ => none
  | .updateConstants kp ki kd => some ⟨kp, ki, kd⟩

/-- The error of a sample. -/
def error : Call K → Option K
  | .compute setpoint measured => some (setpoint - measured)
  | .updateConstants _ _ _ => none

/-- What a rest sample resets the error sum to. -/
def clears : Call K → Option K
  | .compute setpoint measured =>
      if setpoint = 0 ∧ setpoint - measured = 0 then some 0 else none
  | .updateConstants _ _ _ => none

end Call

/-- The gains in force after the calls. -/
def gainsIn (g : Gains K) (calls : List (Call K)) : Gains K :=
  (Lib.latest Call.sets calls).getD g

/-- The error of the last sample; 0 before the first. -/
def lastError (calls : List (Call K)) : K :=
  (Lib.latest Call.error calls).getD 0

/-- The errors since the last rest sample, summed. A change of gains has
no error. -/
def errorSum (calls : List (Call K)) : K :=
  ((Lib.window Call.clears calls).map fun c => c.error.getD 0).sum

/-- The reference law: what the next sample returns after the calls. -/
def law (minVal maxVal : K) (g : Gains K) (calls : List (Call K))
    (setpoint measured : K) : K :=
  let e := setpoint - measured
  let g := gainsIn g calls
  if setpoint = 0 ∧ e = 0 then 0
  else
    max minVal (min (g.kp * e + g.ki * (errorSum calls + e)
      + g.kd * (e - lastError calls)) maxVal)

-- ================================================== what the object stores

/-- The object holds what the calls determine. -/
structure Tracks (minVal maxVal : K) (g : Gains K) (calls : List (Call K))
    (p : PID K) : Prop where
  minVal : p.minVal = minVal
  maxVal : p.maxVal = maxVal
  gains : p.gains = gainsIn g calls
  integral : p.integral = errorSum calls
  prevError : p.prevError = lastError calls

/-- A rest sample in the law's words is one in the code's. -/
theorem atRest_of_rest {setpoint measured : K} :
    atRest setpoint (setpoint - measured) = true
      ↔ setpoint = 0 ∧ setpoint - measured = 0 := by
  simp only [atRest, feq_eq, Int.cast_zero, Bool.and_eq_true,
    decide_eq_true_eq]

theorem Call.clears_rest {setpoint measured : K}
    (h : setpoint = 0 ∧ setpoint - measured = 0) :
    (Call.compute setpoint measured).clears = some 0 := if_pos h

theorem Call.clears_not_rest {setpoint measured : K}
    (h : ¬ (setpoint = 0 ∧ setpoint - measured = 0)) :
    (Call.compute setpoint measured).clears = none := if_neg h

/-- What one call does to the integral. -/
theorem exec_integral (p : PID K) (c : Call K) :
    (Call.exec p c).1.integral
      = c.clears.getD (p.integral + c.error.getD 0) := by
  cases c with
  | compute setpoint measured =>
      show (p.sample setpoint measured).integral = _
      by_cases h : setpoint = 0 ∧ setpoint - measured = 0
      · rw [p.sample_eq_of_rest (atRest_of_rest.mpr h),
          Call.clears_rest h]
        exact Int.cast_zero
      · have hrest : atRest setpoint (setpoint - measured) = false := by
          rw [← Bool.not_eq_true, atRest_of_rest]
          exact h
        rw [p.sample_eq_of_not_rest hrest, Call.clears_not_rest h]
        rfl
  | updateConstants kp ki kd =>
      exact (add_zero p.integral).symm

/-- Every reset of the error sum is to 0. -/
theorem latest_clears (calls : List (Call K)) :
    (Lib.latest Call.clears calls).getD 0 = 0 := by
  cases h : Lib.latest Call.clears calls with
  | none => rfl
  | some a =>
      obtain ⟨c, -, hc⟩ := Lib.mem_of_latest h
      cases c with
      | compute setpoint measured =>
          by_cases hrest : setpoint = 0 ∧ setpoint - measured = 0
          · rw [Call.clears_rest hrest] at hc
            exact (Option.some.inj hc).symm
          · rw [Call.clears_not_rest hrest] at hc
            cases hc
      | updateConstants kp ki kd => cases hc

/-- What a run of calls leaves in the object. -/
theorem final_tracks (minVal maxVal kp ki kd : K) (calls : List (Call K)) :
    Tracks minVal maxVal ⟨kp, ki, kd⟩ calls
      ((machine K).final (PID.new minVal maxVal kp ki kd) calls) := by
  have hkeep : ∀ (p : PID K) (c : Call K), True → True :=
    fun _ _ h => h
  constructor
  · exact Lib.Mealy.final_invariant (M := machine K)
      (P := fun p => p.minVal = minVal)
      (fun p c h => by cases c <;> exact h) rfl calls
  · exact Lib.Mealy.final_invariant (M := machine K)
      (P := fun p => p.maxVal = maxVal)
      (fun p c h => by cases c <;> exact h) rfl calls
  · exact Lib.Mealy.final_register (M := machine K) hkeep
      (fun p c _ => by cases c <;> rfl) trivial calls
  · have hsum := Lib.Mealy.final_window (M := machine K) hkeep
      (fun p c _ => exec_integral p c)
      (s := PID.new minVal maxVal kp ki kd) trivial calls
    have hstart : (PID.new minVal maxVal kp ki kd).integral = 0 :=
      Int.cast_zero
    rw [hsum, hstart, latest_clears, zero_add]
    rfl
  · have hreg : ((machine K).final (PID.new minVal maxVal kp ki kd)
        calls).prevError
          = (Lib.latest Call.error calls).getD
              (PID.new minVal maxVal kp ki kd).prevError :=
      Lib.Mealy.final_register hkeep (fun p c _ => by cases c <;> rfl)
        trivial calls
    have hstart : (PID.new minVal maxVal kp ki kd).prevError = 0 :=
      Int.cast_zero
    rw [hreg, hstart]
    rfl

-- ================================================================ the law

/-- What an object that holds what the calls determine returns next. -/
theorem Tracks.compute {minVal maxVal : K} {g : Gains K}
    {calls : List (Call K)} {p : PID K}
    (h : Tracks minVal maxVal g calls p) (hmin : minVal ≤ 0)
    (hmax : 0 ≤ maxVal) (setpoint measured : K) :
    (p.compute setpoint measured).1
      = law minVal maxVal g calls setpoint measured := by
  have hlim : p.minVal ≤ p.maxVal := by
    rw [h.minVal, h.maxVal]
    exact hmin.trans hmax
  unfold law
  rw [← h.gains, ← h.integral, ← h.prevError]
  by_cases hrest : setpoint = 0 ∧ setpoint - measured = 0
  · have hout : (p.compute setpoint measured).1
        = constrain 0 p.minVal p.maxVal := by
      simp only [PID.compute, p.sample_eq_of_rest (atRest_of_rest.mpr hrest),
        hrest.2, Int.cast_zero, mul_zero, add_zero]
    rw [if_pos hrest, hout, h.minVal, h.maxVal]
    exact constrain_of_mem hmin hmax
  · have hnot : ¬ (setpoint = 0 ∧ measured = 0) := by
      intro hz
      exact hrest ⟨hz.1, by rw [hz.1, hz.2, sub_zero]⟩
    rw [if_neg hrest, p.compute_of_not_rest hnot, constrain_eq hlim,
      h.minVal, h.maxVal]
    rfl

-- ================================================================ windup

/-- Samples as calls. -/
def sampleCalls (samples : List (K × K)) : List (Call K) :=
  samples.map fun s => .compute s.1 s.2

/-- The stored integral contributes no more than the limits allow. -/
def Contained (p : PID K) : Prop :=
  p.minVal ≤ p.ki * p.integral ∧ p.ki * p.integral ≤ p.maxVal

/-- So it does in every state the samples lead to. -/
def WindupBounded (p : PID K) (samples : List (K × K)) : Prop :=
  ∀ pre, pre <+: samples →
    ((machine K).final p (sampleCalls pre)).Contained

omit [Field K] [LinearOrder K] [FloorRing K] in
/-- Samples change no gains. -/
theorem gainsIn_sampleCalls (g : Gains K) (samples : List (K × K)) :
    gainsIn g (sampleCalls samples) = g := by
  have hnone : (sampleCalls samples).filterMap Call.sets = [] := by
    rw [sampleCalls, List.filterMap_map]
    exact List.filterMap_eq_nil_iff.mpr fun _ _ => rfl
  rw [gainsIn, Lib.latest, hnone]
  rfl

/-- What the integral contributes after the samples. -/
theorem final_contained_iff (minVal maxVal kp ki kd : K)
    (samples : List (K × K)) :
    ((machine K).final (PID.new minVal maxVal kp ki kd)
        (sampleCalls samples)).Contained
      ↔ minVal ≤ ki * errorSum (sampleCalls samples)
        ∧ ki * errorSum (sampleCalls samples) ≤ maxVal := by
  have h := final_tracks minVal maxVal kp ki kd (sampleCalls samples)
  have hki : ((machine K).final (PID.new minVal maxVal kp ki kd)
      (sampleCalls samples)).ki = ki := by
    have hg := h.gains
    rw [gainsIn_sampleCalls] at hg
    exact congrArg Gains.ki hg
  rw [Contained, hki, h.integral, h.minVal, h.maxVal]

/-- The integral's contribution stays inside the limits exactly when the
error sums of all windows do. -/
theorem windup_bounded_iff (minVal maxVal kp ki kd : K)
    (samples : List (K × K)) :
    WindupBounded (PID.new minVal maxVal kp ki kd) samples
      ↔ ∀ pre, pre <+: samples →
          minVal ≤ ki * errorSum (sampleCalls pre)
            ∧ ki * errorSum (sampleCalls pre) ≤ maxVal :=
  forall_congr' fun pre => imp_congr_right fun _ =>
    final_contained_iff minVal maxVal kp ki kd pre

/-- The error sum of a wheel that keeps missing a target other than 0 by
the same amount. -/
theorem errorSum_stall {setpoint : K} (hs : setpoint ≠ 0) (measured : K)
    (n : Nat) :
    errorSum (sampleCalls (List.replicate n (setpoint, measured)))
      = n * (setpoint - measured) := by
  induction n with
  | zero => simp [errorSum, sampleCalls]
  | succ n ih =>
      have hnone : (Call.compute setpoint measured).clears = none :=
        Call.clears_not_rest fun h => hs h.1
      have hcalls : sampleCalls (List.replicate (n + 1) (setpoint, measured))
          = sampleCalls (List.replicate n (setpoint, measured))
            ++ [.compute setpoint measured] := by
        rw [List.replicate_succ', sampleCalls, List.map_append]
        rfl
      rw [errorSum] at ih ⊢
      rw [hcalls, Lib.window_concat_none _ hnone, List.map_append,
        List.sum_append, ih]
      simp only [List.map_cons, List.map_nil, List.sum_singleton,
        Call.error, Option.getD_some]
      push_cast
      ring

/-- The configured controller behind a wheel held still at its speed
limit for 22 samples: the integral's contribution passes the PWM
limit. -/
theorem windup_exceeds_limit :
    ¬ WindupBounded (PID.new (-1023) 1023 (3 / 5) (4 / 5) (1 / 2) : PID ℚ)
      (List.replicate 22 (119 / 2, 0)) := by
  intro h
  have hmax := ((final_contained_iff _ _ _ _ _ _).mp
    (h _ (List.prefix_refl _))).2
  rw [errorSum_stall (by norm_num)] at hmax
  norm_num at hmax

end PID

-- ================================================== a rest step, and after

namespace ControlCore

/-- The same core with freshly constructed controllers: the limits and
gains kept, everything stored forgotten. -/
def refreshed (c : ControlCore K) : ControlCore K :=
  { c with
    pid := fun w => PID.new (c.pid w).minVal (c.pid w).maxVal
      (c.pid w).kp (c.pid w).ki (c.pid w).kd }

/-- The step that rests: command zero, no wheel turning. -/
def rest (T : Trig K) (c : ControlCore K) (dt : K) :
    ControlCore K × StepOut K :=
  c.step T Cmd.zero (fun _ => 0) dt

/-- Two cores that drive alike: the same kinematics and wheels, and the
same controllers behind the wheels that exist. -/
structure DrivesLike (c c' : ControlCore K) : Prop where
  kin : c.kin = c'.kin
  wheel : c.wheel = c'.wheel
  pid : ∀ w, c.wheel w = true → c.pid w = c'.pid w

/-- Cores that drive alike hand out the same PWM and go on to drive
alike. -/
theorem DrivesLike.step {c c' : ControlCore K} (h : DrivesLike c c')
    (T : Trig K) (inp : StepIn K) :
    DrivesLike ((mealy T).step c inp).1 ((mealy T).step c' inp).1
      ∧ ((mealy T).step c inp).2.pwm = ((mealy T).step c' inp).2.pwm := by
  have htarget : c.target inp.cmd = c'.target inp.cmd := by
    unfold target
    rw [h.kin]
  constructor
  · refine ⟨h.kin, h.wheel, fun w (hw : c.wheel w = true) => ?_⟩
    have hw' : c'.wheel w = true := h.wheel ▸ hw
    show (c.drive inp.cmd inp.rpm).pid w = (c'.drive inp.cmd inp.rpm).pid w
    rw [drive_pid hw, drive_pid hw', htarget, h.pid w hw]
  · funext w
    show (c.output inp.cmd inp.rpm w).map CFloat.toInt
      = (c'.output inp.cmd inp.rpm w).map CFloat.toInt
    unfold output
    rw [htarget, ← h.wheel]
    cases hw : c.wheel w with
    | false => rfl
    | true => rw [h.pid w hw]

/-- So they hand out the same PWM sequences. -/
theorem DrivesLike.outputs {c c' : ControlCore K} (h : DrivesLike c c')
    (T : Trig K) (ins : List (StepIn K)) :
    ((mealy T).outputs c ins).map (fun o => o.pwm)
      = ((mealy T).outputs c' ins).map (fun o => o.pwm) := by
  have hsim := (Lib.Mealy.simulation (M := mealy T) (N := mealy T)
    (R := DrivesLike) (Q := fun o o' => o.pwm = o'.pwm) (f := id)
    (fun c c' inp hc => hc.step T inp) h ins).2
  rw [List.map_id] at hsim
  rwa [← List.forall₂_eq_eq_eq, List.forall₂_map_left_iff,
    List.forall₂_map_right_iff]

section Rest

variable [IsStrictOrderedRing K] (T : Trig K) {c : ControlCore K}
  (hk : 0 < c.kin.maxRpm) (dt : K)

include hk

theorem target_zero (w : Fin 4) : c.target Cmd.zero w = 0 := by
  simpa [target, Cmd.zero] using c.kin.getRPM_zero hk w

/-- A rest step leaves fresh controllers behind the wheels. -/
theorem rest_drivesLike : DrivesLike (c.rest T dt).1 c.refreshed := by
  refine ⟨rfl, rfl, fun w (hw : c.wheel w = true) => ?_⟩
  show (c.drive Cmd.zero fun _ => 0).pid w = _
  rw [drive_pid hw, target_zero hk]
  exact (c.pid w).sample_rest_eq_new

/-- It passes 0 to every wheel. -/
theorem rest_pwm {w : Fin 4} (hw : c.wheel w = true)
    (hmin : (c.pid w).minVal ≤ 0) (hmax : 0 ≤ (c.pid w).maxVal) :
    (c.rest T dt).2.pwm w = some 0 := by
  have hout : ((c.pid w).compute 0 0).1 = 0 := by
    have hclamp : ((c.pid w).compute 0 0).1
        = constrain 0 (c.pid w).minVal (c.pid w).maxVal := by
      simp [PID.compute, PID.sample_rest_eq_new, PID.new]
    rw [hclamp]
    exact constrain_of_mem hmin hmax
  show (c.output Cmd.zero (fun _ => 0) w).map CFloat.toInt = some 0
  rw [output_eq hw, target_zero hk, hout]
  simp [Lib.towardZero]

end Rest

end ControlCore

-- ======================================================= the whole statement

/-- The PWM makes any motor brake. -/
def Brakes {Tim : Type} [DecidableEq Tim] {H : TimHal Tim}
    (m : Generic2 K H) (hw : Hw Tim) (pwm : Option Int) : Prop :=
  ∃ p, pwm = some p ∧ m.spin p hw = m.brake hw

/-- A rest step of a core brakes every motor and is, for every later
motor command, as good as freshly constructed controllers. -/
def RestForgets (T : Trig K) (c : ControlCore K) (dt : K)
    (later : List (ControlCore.StepIn K)) : Prop :=
  (∀ {Tim : Type} [DecidableEq Tim] {H : TimHal Tim}
    (m : Generic2 K H) (hw : Hw Tim) (w : Fin 4),
    c.wheel w = true → Brakes m hw ((c.rest T dt).2.pwm w))
  ∧ ((ControlCore.mealy T).outputs (c.rest T dt).1 later).map
        (fun o => o.pwm)
      = ((ControlCore.mealy T).outputs c.refreshed later).map
        (fun o => o.pwm)

/-- Every sample of every controller returns what the reference law says
of the calls before it; and whatever state a core is in, one rest step
brakes every motor and forgets that state. -/
theorem controllers_follow_law [IsStrictOrderedRing K] :
    (∀ minVal maxVal kp ki kd : K, minVal ≤ 0 → 0 ≤ maxVal →
      ∀ (calls : List (PID.Call K)) (setpoint measured : K),
        ((PID.machine K).step
            ((PID.machine K).final (PID.new minVal maxVal kp ki kd) calls)
            (.compute setpoint measured)).2
          = some (PID.law minVal maxVal ⟨kp, ki, kd⟩ calls setpoint
              measured))
    ∧ ∀ (T : Trig K) (c : ControlCore K), 0 < c.kin.maxRpm →
        (∀ w, c.wheel w = true →
          (c.pid w).minVal ≤ 0 ∧ 0 ≤ (c.pid w).maxVal) →
        ∀ (dt : K) (later : List (ControlCore.StepIn K)),
          RestForgets T c dt later := by
  constructor
  · intro minVal maxVal kp ki kd hmin hmax calls setpoint measured
    have htracks := PID.final_tracks minVal maxVal kp ki kd calls
    exact congrArg some (htracks.compute hmin hmax setpoint measured)
  · intro T c hk hlim dt later
    refine ⟨fun m hw w hwheel => ?_, ?_⟩
    · obtain ⟨hmin, hmax⟩ := hlim w hwheel
      exact ⟨0, ControlCore.rest_pwm T hk dt hwheel hmin hmax,
        m.spin_zero hw⟩
    · exact (ControlCore.rest_drivesLike T hk dt).outputs T later

/-- The configured controllers: two samples with a change of gains in
between, and a core that rests after having been driven. -/
theorem controllers_follow_law_f446re :
    ((PID.machine ℚ).step
        ((PID.machine ℚ).final (PID.new (-1023) 1023 (3 / 5) (4 / 5) (1 / 2))
          [.compute 10 0, .updateConstants 1 1 0])
        (.compute 5 0)).2
      = some (PID.law (-1023) 1023 ⟨3 / 5, 4 / 5, 1 / 2⟩
          [.compute 10 0, .updateConstants 1 1 0] 5 0)
    ∧ RestForgets Trig.level
        ((ControlCore.fresh f446re).step Trig.level ⟨1 / 5, 0, 1⟩
          (fun _ => 0) (1 / 50)).1
        (1 / 50) [⟨⟨1 / 5, 0, 0⟩, fun _ => 3, 1 / 50⟩] :=
  ⟨controllers_follow_law.1 _ _ _ _ _ (by norm_num) (by norm_num) _ _ _,
    controllers_follow_law.2 _ _ (by decide +kernel)
      (fun w _ => by fin_cases w <;> decide +kernel) _ _⟩

end LinoStm32
