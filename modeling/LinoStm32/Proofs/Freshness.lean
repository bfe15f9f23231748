/-
How old the values are that `control_get_odom` and `control_get_imu` hand
out.

`Snapshot.lean` says which tick a value is of, by its number; `Pace.lean`
says when the tick of a number read its clock. What is between them is that
the numbers agree: the ticks that have called `step` and the calls that
have returned are the same, but for one that may be under way (`Matched`).
So in a timely run a snapshot is at most one period and the lateness of a
tick behind the present (`reads_fresh`).

The sample needs more than `Snapshot.lean` says of it. While the sensor is
in use, the sample is of exactly the last tick that has ended (`Sampled`).
-/
import LinoStm32.Proofs.Pace
import LinoStm32.Proofs.Snapshot

namespace LinoStm32

variable {F : Type} {E : RpmSource F} {I : ImuDriver F}

-- ======================================================= ticks and steps

/-- The call of `step` that is under way. -/
def CtrlPc.stepping : CtrlPc F → Option (StepRec F)
  | .addX r => some r
  | .addY r => some r
  | .addHeading r => some r
  | _ => none

theorem CtrlPc.late_of_stepping {pc : CtrlPc F} {r : StepRec F}
    (h : pc.stepping = some r) : pc.stage = .late := by
  cases pc with
  | addX _ | addY _ | addHeading _ => rfl
  | _ => cases h

/-- Every tick that has called `step` has passed it its command, in order;
the last call may be under way. -/
def System.Matched (s : System F E I) : Prop :=
  s.ticks.map TickRec.cmd
    = (s.steps ++ s.ctrl.stepping.toList).map StepRec.cmd

variable [CFloat F] {T : Trig F}

theorem System.Matched.ctrlStep {s : System F E I} (h : s.Matched)
    (inp : E.Input) (bus : I.Bus) : (s.ctrlStep T inp bus).Matched := by
  obtain ⟨time, loop, ctrl, uros, cmdAt, given, ticks, steps, datas, ods,
    ims⟩ := s
  simp only [Matched] at h ⊢
  cases ctrl with
  | measure now k =>
      simp only [CtrlPc.stepping, Option.toList_none, List.append_nil] at h
      simp only [System.ctrlStep, CtrlPc.stepping, Option.toList_some,
        List.map_append, h]
      rfl
  | addHeading r =>
      simp only [System.ctrlStep, putOdom, CtrlPc.stepping,
        Option.toList_none, List.append_nil]
      exact h
  | publish r =>
      cases hok : loop.imuOk with
      | true =>
          simp only [System.ctrlStep, hok]
          exact h
      | false =>
          simp only [System.ctrlStep, hok]
          exact h
  | _ => exact h

theorem System.matched_of_reachable {cfg : BoardConfig F}
    {s : System F E I} (h : (tasks E I T cfg).Reachable s) :
    s.Matched := by
  refine h.invariant ?_ ?_
  · rintro s ⟨enc, imu, imuOk, t, rfl⟩
    rfl
  · intro s a s' hs happ
    cases moves_of_apply happ with
    | ctrl inp bus => exact hs.ctrlStep inp bus
    | _ => exact hs

omit [CFloat F] in
/-- A completed step is of the tick of the same number. -/
theorem System.Matched.tick {s : System F E I} (h : s.Matched) {n : Nat}
    {r : StepRec F} (hr : s.steps[n]? = some r) :
    ∃ k, s.ticks[n]? = some k ∧ k.cmd = r.cmd := by
  have hcmd : (s.ticks.map TickRec.cmd)[n]? = some r.cmd := by
    rw [h, List.getElem?_map, getElem?_of_append hr]
    rfl
  rw [List.getElem?_map] at hcmd
  exact Option.map_eq_some_iff.mp hcmd

omit [CFloat F] in
/-- No tick but one that is not over is without its step. -/
theorem System.Matched.length {s : System F E I} (h : s.Matched) :
    s.ticks.length = s.steps.length + s.ctrl.stepping.toList.length := by
  have hlength := congrArg List.length h
  rwa [List.length_map, List.length_map, List.length_append] at hlength

-- ============================================================ the sample

/-- The tick whose sample is the published one, if the sensor is in use. -/
def System.sampled (s : System F E I) : Nat :=
  match s.ctrl with
  | .publish _ => s.steps.length - 1
  | .imuRead => s.steps.length - 1
  | .imuPublish _ => s.steps.length - 1
  | _ => s.steps.length

/-- The published sample is of that tick. -/
def System.Sampled (T : Trig F) (s : System F E I) : Prop :=
  s.loop.imuOk = true →
    ImuVersion I T s.steps s.datas s.sampled s.loop.imuSnap

theorem System.Sampled.ctrlStep {s : System F E I} (h : s.Sampled T)
    (hlive : s.Coherent T) (inp : E.Input) (bus : I.Bus) :
    (s.ctrlStep T inp bus).Sampled T := by
  obtain ⟨time, loop, ctrl, uros, cmdAt, given, ticks, steps, datas, ods,
    ims⟩ := s
  simp only [Sampled] at h ⊢
  cases ctrl with
  | addHeading r =>
      intro hok
      have hlength : (steps ++ [r]).length - 1 = steps.length := by simp
      show ImuVersion I T (steps ++ [r]) datas
        ((steps ++ [r]).length - 1) loop.imuSnap
      rw [hlength]
      exact (h hok).appendStep [r]
  | publish r =>
      intro hok
      have hon : loop.imuOk = true := hok
      simp only [System.ctrlStep, hon, if_true]
      exact h hon
  | imuRead => exact fun hok => (h hok).appendData _
  | imuPublish im => exact fun _ => hlive.live
  | _ => exact h

theorem System.sampled_of_reachable {cfg : BoardConfig F}
    {s : System F E I} (h : (tasks E I T cfg).Reachable s) :
    s.Sampled T := by
  refine h.invariant_given (fun _ => coherent_of_reachable) ?_ ?_
  · rintro s ⟨enc, imu, imuOk, t, rfl⟩
    exact fun _ => rfl
  · intro s a s' hlive hs happ
    cases moves_of_apply happ with
    | ctrl inp bus => exact hs.ctrlStep hlive inp bus
    | _ => exact hs

-- =============================================================== the age

namespace ControlTask

variable {s : ControlTask F E I}

/-- Of the first `m` ticks, only the one at work may be missing. -/
def UpTo (s : ControlTask F E I) (m : Nat) : Prop :=
  m = s.sys.ticks.length
    ∨ s.sys.ctrl.stage = .late ∧ s.sys.ticks.length ≤ m + 1

omit [CFloat F] in
theorem upTo_of_steps {m : Nat} (h : s.sys.Matched)
    (hm : m = s.sys.steps.length
      ∨ (s.sys.ctrl.stage = .late ∧ s.sys.ctrl.stepping = none)
        ∧ m = s.sys.steps.length - 1) : s.UpTo m := by
  have hlength := h.length
  rcases hm with rfl | ⟨⟨hlate, hnone⟩, rfl⟩
  · cases hstepping : s.sys.ctrl.stepping with
    | none =>
        rw [hstepping] at hlength
        exact Or.inl hlength.symm
    | some r =>
        rw [hstepping] at hlength
        exact Or.inr ⟨CtrlPc.late_of_stepping hstepping, hlength.le⟩
  · rw [hnone] at hlength
    have hsame : s.sys.ticks.length = s.sys.steps.length := hlength
    exact Or.inr ⟨hlate, by omega⟩

omit [CFloat F] in
theorem upTo_published (h : s.sys.Matched) : s.UpTo s.sys.published := by
  refine upTo_of_steps h ?_
  unfold System.published
  split
  · next hctrl => exact Or.inr ⟨hctrl ▸ ⟨rfl, rfl⟩, rfl⟩
  · exact Or.inl rfl

omit [CFloat F] in
theorem upTo_sampled (h : s.sys.Matched) : s.UpTo s.sys.sampled := by
  refine upTo_of_steps h ?_
  unfold System.sampled
  split
  · next hctrl => exact Or.inr ⟨hctrl ▸ ⟨rfl, rfl⟩, rfl⟩
  · next hctrl => exact Or.inr ⟨hctrl ▸ ⟨rfl, rfl⟩, rfl⟩
  · next hctrl => exact Or.inr ⟨hctrl ▸ ⟨rfl, rfl⟩, rfl⟩
  · exact Or.inl rfl

omit [CFloat F] in
/-- The tick after the first `m` has not been due for longer than `D`. -/
theorem UpTo.time_le {m D : Nat} (h : s.UpTo m) (hplaced : s.Placed)
    (hprompt : s.Prompt D) (hloop : s.pc = .tick ∨ s.pc = .delay) :
    s.sys.time ≤ s.began + controlPeriod * m + D := by
  have htime := hprompt.time hloop
  have hplace := hplaced.place
  have hstep : controlPeriod * (m + 1)
      = controlPeriod * m + controlPeriod := Nat.mul_succ _ _
  rcases hloop with hpc | hpc
  · rcases place_tick hplace hpc with ⟨hearly, hlast⟩ | ⟨hlate, hlast⟩
    · rcases h with rfl | ⟨hlate, -⟩
      · rwa [hlast] at htime
      · rw [hearly] at hlate
        cases hlate
    · have hle : controlPeriod * s.sys.ticks.length
          ≤ controlPeriod * (m + 1) := by
        refine Nat.mul_le_mul_left _ ?_
        rcases h with rfl | ⟨-, hle⟩
        · exact Nat.le_succ _
        · exact hle
      rw [release] at hlast
      omega
  · rw [Place, hpc] at hplace
    obtain ⟨hready, hlast⟩ := hplace
    rcases h with rfl | ⟨hlate, -⟩
    · rwa [hlast] at htime
    · rw [hready] at hlate
      cases hlate

/-- The `n`-th tick called `step` as `r` says, and read its clock no longer
than `age` ms ago. -/
def Recent (s : ControlTask F E I) (age n : Nat) (r : StepRec F) : Prop :=
  s.sys.steps[n]? = some r ∧ ∃ k, s.sys.ticks[n]? = some k
    ∧ k.cmd = r.cmd ∧ s.sys.time ≤ k.readAt + age

theorem UpTo.recent {m n D : Nat} {cfg : BoardConfig F}
    (h : s.UpTo m) (hm : m = n + 1)
    (hreach : (machine E I T cfg).ReachableUnder (Timely D) s)
    (hloop : s.pc = .tick ∨ s.pc = .delay) {r : StepRec F}
    (hr : s.sys.steps[n]? = some r) : s.Recent (20 + D) n r := by
  have hplaced := placed_of_reachable hreach.reachable
  obtain ⟨k, hk, hcmd⟩ := (System.matched_of_reachable
    (reachable_sys hreach.reachable)).tick hr
  refine ⟨hr, k, hk, hcmd, ?_⟩
  have hread := hplaced.ticks n k hk
  have htime := h.time_le hplaced (prompt_of_reachable hreach) hloop
  rw [hm, Nat.mul_succ] at htime
  rw [controlPeriod] at hread htime
  omega

/-- In a timely run, from `D` ms after the loop began on: what
`control_get_odom` hands out is the pose and body velocity of a tick that
read its clock no longer than `20 + D` ms ago, and, if the sensor is in use,
so is what `control_get_imu` hands out the sample of one. -/
theorem reads_fresh {D : Nat} {cfg : BoardConfig F}
    (h : (machine E I T cfg).ReachableUnder (Timely D) s)
    (hloop : s.pc = .tick ∨ s.pc = .delay)
    (hlater : s.began + D < s.sys.time) :
    (∃ n r, s.Recent (20 + D) n r
        ∧ controlGetOdom s.sys.loop = r.tuple T)
      ∧ (s.sys.loop.imuOk = true → ∃ n r, s.Recent (20 + D) n r
        ∧ ∃ d ∈ s.sys.datas, d.tick = n + 1
          ∧ controlGetImu s.sys.loop = imuSample I (r.tuple T).wz d.msg) := by
  have hsys := reachable_sys h.reachable
  have hmatched := System.matched_of_reachable hsys
  have hfirst : ∀ m, s.UpTo m → m ≠ 0 := by
    rintro m hup rfl
    have htime := hup.time_le (placed_of_reachable h.reachable)
      (prompt_of_reachable h) hloop
    rw [Nat.mul_zero] at htime
    omega
  constructor
  · have hup := upTo_published hmatched
    have hversion := (System.coherent_of_reachable hsys).last
    obtain ⟨n, hn⟩ := Nat.exists_eq_succ_of_ne_zero (hfirst _ hup)
    rw [hn] at hversion
    obtain ⟨r, hr, htuple⟩ := hversion
    exact ⟨n, r, hup.recent hn h hloop hr, htuple⟩
  · intro hok
    have hup := upTo_sampled hmatched
    have hversion := System.sampled_of_reachable hsys hok
    obtain ⟨n, hn⟩ := Nat.exists_eq_succ_of_ne_zero (hfirst _ hup)
    rw [hn] at hversion
    obtain ⟨r, hr, d, hd, htick, hmsg⟩ := hversion
    exact ⟨n, r, hup.recent hn h hloop hr, d, hd, htick, hmsg⟩

/-- A board with a fake IMU: a tick at rest, one with both wheels turning,
and the middle of a third, 3 ms late. -/
def thirdLate : List (Act (encoders ℚ) (ImuDriver.answering ℚ true)) :=
  let first : Act (encoders ℚ) (ImuDriver.answering ℚ true) :=
    .ctrl (0, fun _ => 0) (speedingUp 0)
  let second : Act (encoders ℚ) (ImuDriver.answering ℚ true) :=
    .ctrl (20000, ![80, 160, 0, 0]) (speedingUp 1)
  List.replicate 16 first ++ List.replicate 20 .clock
    ++ List.replicate 10 second ++ List.replicate 23 .clock
    ++ List.replicate 5 second

theorem reads_fresh_thirdLate :
    ∃ s : ControlTask ℚ (encoders ℚ) (ImuDriver.answering ℚ true),
      (s.sys.time, s.sys.ticks.length, s.sys.steps.length) = (43, 3, 2)
        ∧ 0 < (controlGetOdom s.sys.loop).x
        ∧ 0 < (controlGetOdom s.sys.loop).wz
        ∧ (controlGetImu s.sys.loop).linearAcceleration.x = 1
        ∧ (∃ n r, s.Recent 25 n r
          ∧ controlGetOdom s.sys.loop = r.tuple Trig.level)
        ∧ ∃ n r, s.Recent 25 n r ∧ ∃ d ∈ s.sys.datas, d.tick = n + 1
          ∧ controlGetImu s.sys.loop = imuSample (ImuDriver.answering ℚ true)
            (r.tuple Trig.level).wz d.msg := by
  have hrun : ((machine _ _ Trig.level f446re).runUnder (Timely 5) thirdLate
        ⟨System.start f446re (f446re (F := ℚ)).encoders () true 0, .init, 0,
          0, 0⟩).map (fun s => ((s.sys.time, s.sys.ticks.length,
          s.sys.steps.length), (s.pc, s.began, s.sys.loop.imuOk),
          decide (0 < (controlGetOdom s.sys.loop).x),
          decide (0 < (controlGetOdom s.sys.loop).wz),
          (controlGetImu s.sys.loop).linearAcceleration.x))
      = some ((43, 3, 2), (.tick, 0, true), true, true, 1) := by
    decide +kernel
  obtain ⟨s, hs, hrest⟩ := Option.map_eq_some_iff.mp hrun
  simp only [Prod.mk.injEq, decide_eq_true_eq] at hrest
  obtain ⟨⟨htime, hticks, hsteps⟩, ⟨hpc, hbegan, hok⟩, hx, hwz, hax⟩ :=
    hrest
  have hreach := (Lib.Machine.ReachableUnder.start
    (M := machine _ _ Trig.level f446re)
    ⟨_, ⟨_, _, _, _, rfl⟩, rfl⟩).runUnder hs
  have hfresh := reads_fresh hreach (Or.inl hpc) (by omega)
  exact ⟨s, by rw [htime, hticks, hsteps], hx, hwz, hax, hfresh.1,
    hfresh.2 hok⟩

end ControlTask

end LinoStm32
