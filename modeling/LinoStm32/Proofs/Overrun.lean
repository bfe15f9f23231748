/-
When a stopped base is pushed on.

The deadman and the full stop put the zero command in place of the last
one; what the controllers have stored stays. `Braking.lean` says when the
PWM of one such tick pushes a turning wheel on: when what is stored
outweighs the braking part. Here is what becomes of the store over a
stretch of two or more such ticks, wherever `uros_task` comes between: as
long as the wheel keeps turning one way, every tick takes the speed it
measured off the integral. So the last tick of the stretch pushes the wheel
on exactly when what all these speeds make in the integral part, and the
last one in the proportional part, is outweighed by the integral stored
before the stretch and the derivative part of the last two speeds
(`pushes_on_iff`). That part alone may do it, in a wheel that slows down
quickly.

`dir` is the way the wheel turns, 1 or -1.
-/
import LinoStm32.Proofs.Braking
import LinoStm32.Proofs.PidLaw
import LinoStm32.Proofs.Sequential

namespace LinoStm32

variable {K : Type} [Field K] [LinearOrder K] [FloorRing K]

-- ========================================================= the controller

namespace PID

/-- After samples with the target at 0. -/
def coast (p : PID K) (speeds : List K) : PID K :=
  speeds.foldl (fun p rpm => p.sample 0 rpm) p

theorem coast_concat (p : PID K) (speeds : List K) (rpm : K) :
    p.coast (speeds ++ [rpm]) = (p.coast speeds).sample 0 rpm := by
  simp [coast]

theorem sample_turning (p : PID K) {rpm : K} (h : rpm ≠ 0) :
    (p.sample 0 rpm).integral = p.integral - rpm := by
  have hrest : atRest 0 (0 - rpm) = false := by
    rw [← Bool.not_eq_true, atRest_iff]
    exact fun hr => h hr.2
  rw [p.sample_eq_of_not_rest hrest]
  ring

/-- The gains are kept, and what a wheel that never stands turns is taken
off the integral. -/
theorem coast_spec (p : PID K) (speeds : List K)
    (h : ∀ rpm ∈ speeds, rpm ≠ 0) :
    (p.coast speeds).kp = p.kp ∧ (p.coast speeds).ki = p.ki
      ∧ (p.coast speeds).kd = p.kd
      ∧ (p.coast speeds).integral = p.integral - speeds.sum := by
  induction speeds using List.reverseRecOn with
  | nil => exact ⟨rfl, rfl, rfl, (sub_zero _).symm⟩
  | append_singleton speeds rpm ih =>
      obtain ⟨hkp, hki, hkd, hintegral⟩ :=
        ih fun x hx => h x (List.mem_append_left _ hx)
      have hrpm : rpm ≠ 0 :=
        h rpm (List.mem_append_right _ List.mem_cons_self)
      rw [coast_concat, sample_turning _ hrpm, hintegral, List.sum_append,
        List.sum_singleton]
      exact ⟨hkp, hki, hkd, by ring⟩

theorem coast_prevError (p : PID K) (speeds : List K) (rpm : K) :
    (p.coast (speeds ++ [rpm])).prevError = -rpm := by
  rw [coast_concat]
  exact zero_sub rpm

variable [IsStrictOrderedRing K]

/-- The carry does not yield to a wheel that turns in direction `dir`. -/
theorem not_yields_iff (p : PID K) {dir : K} (hdir : dir = 1 ∨ dir = -1)
    {rpm : K} (hrpm : 0 < dir * rpm) :
    ¬ p.Yields rpm
      ↔ (p.kp + p.ki + p.kd) * (dir * rpm) + 1
        ≤ dir * (p.ki * p.integral - p.kd * p.prevError) := by
  rcases hdir with rfl | rfl
  · rw [one_mul] at hrpm
    have hback : ¬ rpm < 0 := not_lt.mpr hrpm.le
    simp only [Yields, hrpm, hback, true_imp_iff, false_imp_iff, and_true,
      not_lt, one_mul]
  · have hback : rpm < 0 := by linarith
    have hforth : ¬ 0 < rpm := not_lt.mpr hback.le
    simp only [Yields, hback, hforth, true_imp_iff, false_imp_iff,
      true_and, not_lt]
    constructor <;> intro h <;> linarith

/-- After a stretch of samples. -/
theorem coast_not_yields_iff (p : PID K) {dir : K}
    (hdir : dir = 1 ∨ dir = -1) {speeds : List K} {last rpm : K}
    (h : ∀ x ∈ speeds ++ [last], 0 < dir * x) (hrpm : 0 < dir * rpm) :
    ¬ (p.coast (speeds ++ [last])).Yields rpm
      ↔ p.kp * (dir * rpm) + p.ki * (dir * (speeds ++ [last, rpm]).sum) + 1
        ≤ p.ki * (dir * p.integral) + p.kd * (dir * (last - rpm)) := by
  have hne : ∀ x ∈ speeds ++ [last], x ≠ 0 := by
    rintro x hx rfl
    exact lt_irrefl 0 (by simpa using h 0 hx)
  obtain ⟨hkp, hki, hkd, hintegral⟩ := p.coast_spec _ hne
  have hsum : (speeds ++ [last, rpm]).sum
      = (speeds ++ [last]).sum + rpm := by
    simp [add_assoc]
  rw [not_yields_iff _ hdir hrpm, hkp, hki, hkd, hintegral,
    coast_prevError, hsum]
  constructor <;> intro hle <;> linarith

end PID

-- =========================================================== the controllers

namespace ControlCore

variable [IsStrictOrderedRing K] {cfg : BoardConfig K}

/-- Under the zero command every controller coasts. -/
theorem final_coast (hcfg : cfg.Sane) (T : Trig K) (w : Fin 4)
    {c : ControlCore K} (hc : c.Configured cfg) {ins : List (StepIn K)}
    (hzero : ∀ inp ∈ ins, inp.cmd = Cmd.zero) :
    ((mealy T).final c ins).pid w
      = (c.pid w).coast (ins.map fun inp => inp.rpm w) := by
  induction ins generalizing c with
  | nil => rfl
  | cons inp ins ih =>
      have hk : 0 < c.kin.maxRpm := hc.kin ▸ hcfg.maxRpm_pos
      have hsample : (c.step T inp.cmd inp.rpm inp.dt).1.pid w
          = (c.pid w).sample 0 (inp.rpm w) := by
        rw [step_pid, drive_pid (hc.wheel w), hzero inp List.mem_cons_self,
          target_zero hk]
      have hrest := ih (hc.step T inp.cmd inp.rpm inp.dt)
        fun i hi => hzero i (List.mem_cons_of_mem _ hi)
      show ((mealy T).final (c.step T inp.cmd inp.rpm inp.dt).1 ins).pid w
        = _
      rw [hrest, hsample]
      rfl

omit [IsStrictOrderedRing K] in
theorem coreAfter_configured (T : Trig K) (steps : List (StepRec K)) :
    (coreAfter T cfg steps).Configured cfg :=
  Lib.Mealy.final_invariant (P := Configured cfg)
    (fun _ inp hc => hc.step T inp.cmd inp.rpm inp.dt)
    (fresh_configured cfg) _

end ControlCore

-- ============================================================== theorem

variable [IsStrictOrderedRing K] {E : RpmSource K} {I : ImuDriver K}
  {T : Trig K} {cfg : BoardConfig K}

/-- A step under the zero command pushes the wheel on. -/
def StepRec.PushesOn (T : Trig K) (w : Fin 4) (r : StepRec K) : Prop :=
  ∃ p, (r.result T).2.pwm w = some p ∧ SameSign p (r.rpm w)

theorem StepRec.pushesOn_iff (hcfg : cfg.Sane) {r : StepRec K}
    (hcore : r.core.Configured cfg) (hzero : r.cmd = Cmd.zero) (w : Fin 4) :
    r.PushesOn T w ↔ ¬ (r.core.pid w).Yields (r.rpm w) := by
  have hmin : (r.core.pid w).minVal = -(r.core.pid w).maxVal := by
    rw [hcore.minVal, hcore.maxVal, BoardConfig.pwmMin, Int.cast_neg]
  have hmax : 1 ≤ (r.core.pid w).maxVal := by
    rw [hcore.maxVal]
    exact_mod_cast hcfg.pwmMax_pos
  have hk : 0 < r.core.kin.maxRpm := hcore.kin ▸ hcfg.maxRpm_pos
  have hpwm : (r.result T).2.pwm w
      = some (CFloat.toInt ((r.core.pid w).compute 0 (r.rpm w)).1) := by
    show r.core.pwm r.cmd r.rpm w = _
    rw [ControlCore.pwm, ControlCore.output_eq (hcore.wheel w), hzero,
      ControlCore.target_zero hk, Option.map_some]
  rw [← sameSign_iff_not_yields _ hmin hmax, StepRec.PushesOn, hpwm]
  constructor
  · rintro ⟨p, hp, hsame⟩
    cases hp
    exact hsame
  · exact fun hsame => ⟨_, rfl, hsame⟩

/-- Under every interleaving, over every stretch of at least two consecutive
steps under the zero command (`mid`, `last` and `r`) in which a wheel turns
one way all the time: `r` pushes it on exactly when the speeds of the
stretch are outweighed by the integral stored before it and by the last
drop in speed. -/
theorem pushes_on_iff (hcfg : cfg.Sane) {s : System K E I}
    (h : (tasks E I T cfg).Reachable s)
    {pre mid post : List (StepRec K)} {last r : StepRec K}
    (hsteps : s.steps = pre ++ (mid ++ [last, r]) ++ post)
    (hzero : ∀ q ∈ mid ++ [last, r], q.cmd = Cmd.zero)
    {w : Fin 4} {dir : K} (hdir : dir = 1 ∨ dir = -1)
    (hturn : ∀ q ∈ mid ++ [last, r], 0 < dir * q.rpm w) :
    r.PushesOn T w
      ↔ cfg.kP * (dir * r.rpm w)
          + cfg.kI * (dir * ((mid ++ [last, r]).map fun q => q.rpm w).sum)
          + 1
        ≤ cfg.kI * (dir * ((coreAfter T cfg pre).pid w).integral)
          + cfg.kD * (dir * (last.rpm w - r.rpm w)) := by
  have hcore : r.core = coreAfter T cfg (pre ++ (mid ++ [last])) :=
    (System.sequential_of_reachable h).run _ r post (by simp [hsteps])
  have hconf : ∀ steps, (coreAfter T cfg steps).Configured cfg :=
    ControlCore.coreAfter_configured T
  have hbefore : ∀ q ∈ mid ++ [last], q ∈ mid ++ [last, r] := by
    intro q hq
    rw [List.append_cons]
    exact List.mem_append_left _ hq
  have hr : r ∈ mid ++ [last, r] := by simp
  have hins : ∀ inp ∈ (mid ++ [last]).map StepRec.input,
      inp.cmd = Cmd.zero := by
    intro inp hinp
    obtain ⟨q, hq, rfl⟩ := List.mem_map.mp hinp
    exact hzero q (hbefore q hq)
  have hspeeds : (mid ++ [last]).map (fun q => q.rpm w)
      = mid.map (fun q => q.rpm w) ++ [last.rpm w] := List.map_append
  have hcoast : r.core.pid w = ((coreAfter T cfg pre).pid w).coast
      (mid.map (fun q => q.rpm w) ++ [last.rpm w]) := by
    rw [hcore, coreAfter, List.map_append, Lib.Mealy.final_append,
      ← hspeeds]
    refine (ControlCore.final_coast hcfg T w (hconf pre) hins).trans ?_
    rw [List.map_map]
    rfl
  have hpositive : ∀ x ∈ mid.map (fun q => q.rpm w) ++ [last.rpm w],
      0 < dir * x := by
    rw [← hspeeds]
    intro x hx
    obtain ⟨q, hq, rfl⟩ := List.mem_map.mp hx
    exact hturn q (hbefore q hq)
  obtain ⟨-, -, -, -, hkp, hki, hkd⟩ := hconf pre
  rw [StepRec.pushesOn_iff hcfg (hcore ▸ hconf _) (hzero r hr), hcoast,
    PID.coast_not_yields_iff _ hdir hpositive (hturn r hr), hkp, hki, hkd,
    List.map_append]
  rfl

/-- A tick of the configured board, its wheels at `cnt` counts. -/
def tickAt (us cnt : Nat) : List (Act (encoders ℚ) (ImuDriver.absent ℚ)) :=
  List.replicate 20 .clock ++ List.replicate 7
    (.ctrl (BitVec.ofNat 32 us, fun _ => BitVec.ofNat 32 cnt) ())

/-- One command, both wheels held still for nine ticks, and two ticks after
the deadman at which they turn. -/
def heldThenTurning : List (Act (encoders ℚ) (ImuDriver.absent ℚ)) :=
  List.replicate 6 ctrlAct ++ [.setCmd ⟨1 / 5, 0, 0⟩, .setCmdWrite]
    ++ ((List.range 9).flatMap fun k => tickAt (20000 * (k + 1)) 0)
    ++ tickAt 200000 160 ++ tickAt 220000 320

/-- Both ticks push the first wheel on. -/
theorem pushes_on_iff_heldThenTurning :
    ∃ s, f446reTasks.run heldThenTurning f446reStart = some s
      ∧ ∃ pre last r, s.steps = pre ++ ([] ++ [last, r]) ++ []
        ∧ r.PushesOn Trig.level 0
        ∧ (r.PushesOn Trig.level 0
          ↔ f446re.kP * (1 * r.rpm 0)
              + f446re.kI * (1 * (([] ++ [last, r]).map
                fun q : StepRec ℚ => q.rpm 0).sum) + 1
            ≤ f446re.kI
                * (1 * ((coreAfter Trig.level f446re pre).pid 0).integral)
              + f446re.kD * (1 * (last.rpm 0 - r.rpm 0))) := by
  have hrun : (f446reTasks.run heldThenTurning f446reStart).map
        (fun s => (s.steps.drop 9).map fun q =>
          (q.cmd, q.rpm 0, (q.result Trig.level).2.pwm 0))
      = some [(Cmd.zero, 10 / 3, some 162), (Cmd.zero, 10 / 3, some 173)] := by
    decide +kernel
  obtain ⟨s, hs, hdrop⟩ := Option.map_eq_some_iff.mp hrun
  obtain ⟨last, rest, hlast, hlast', hrest⟩ := List.map_eq_cons_iff.mp hdrop
  obtain ⟨r, rest', rfl, hr', hnil⟩ := List.map_eq_cons_iff.mp hrest
  obtain rfl := List.map_eq_nil_iff.mp hnil
  simp only [Prod.mk.injEq] at hlast' hr'
  obtain ⟨hstop, hspeed, -⟩ := hlast'
  obtain ⟨hstop', hspeed', hpwm⟩ := hr'
  have hsteps : s.steps = s.steps.take 9 ++ ([] ++ [last, r]) ++ [] := by
    rw [List.nil_append, List.append_nil, ← hlast, List.take_append_drop]
  refine ⟨s, hs, s.steps.take 9, last, r, hsteps, ⟨173, hpwm, Or.inl ?_⟩,
    pushes_on_iff f446re_sane
      (Lib.Machine.reachable_of_run f446reTasks_start hs) hsteps ?_
      (Or.inl rfl) ?_⟩
  · exact ⟨by decide, by rw [hspeed']; norm_num⟩
  · intro q hq
    rcases List.mem_cons.mp hq with rfl | hq
    · exact hstop
    · exact List.mem_singleton.mp hq ▸ hstop'
  · intro q hq
    rcases List.mem_cons.mp hq with rfl | hq
    · rw [hspeed]
      norm_num
    · rw [List.mem_singleton.mp hq, hspeed']
      norm_num

end LinoStm32
