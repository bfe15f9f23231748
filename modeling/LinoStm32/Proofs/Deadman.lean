/-
What the 200 ms deadman lets through and what it stops.

The test is one 32-bit subtraction, `now - prev_cmd_ms >= 200`, of two
residues of true time. It tells the truth in one situation: `now` is
not earlier than the stamp and less than a full turn of the counter
later. The two theorems of this file are the two ways out of it:

- `stale_stops_iff`: the stamp is whole turns of the counter in the
  past. The residue of a long silence is short again, and the masked
  command, which nobody ever cleared, comes back.
- `fresh_passes_iff`: the stamp is LATER than `now`. The tick reads its
  clock before its critical section, so a command accepted in between
  is newer than `now`; the difference is then almost a full turn, and
  the newest command is the one that is cancelled.
-/
import LinoStm32.Tasks
import LinoStm32.Lib.Clock

namespace LinoStm32

variable {F : Type} {E : RpmSource F} {I : ImuDriver F}

-- ============================================ the most recent acceptance

/-- The most recent `control_set_cmd` of a call sequence: the true time
of its clock read, and its triple. -/
def lastSet (calls : List (Call E I)) : Option (Nat × Cmd F) :=
  calls.foldl
    (fun last call => match call with
      | .setCmd t c => some (t, c)
      | .tick _ _ _ => last)
    none

@[simp] theorem lastSet_concat_setCmd (calls : List (Call E I)) (t : Nat)
    (c : Cmd F) : lastSet (calls ++ [.setCmd t c]) = some (t, c) := by
  rw [lastSet, List.foldl_append]
  rfl

@[simp] theorem lastSet_concat_tick (calls : List (Call E I)) (t : Nat)
    (inp : E.Input) (bus : I.Bus) :
    lastSet (calls ++ [.tick t inp bus]) = lastSet calls := by
  rw [lastSet, List.foldl_append]
  rfl

/-- Ticks accept nothing. -/
theorem lastSet_append_ticks (calls : List (Call E I))
    (ticks : List (Nat × E.Input × I.Bus)) :
    lastSet (calls ++ ticks.map fun k => .tick k.1 k.2.1 k.2.2)
      = lastSet calls := by
  induction ticks using List.reverseRecOn with
  | nil => rw [List.map_nil, List.append_nil]
  | append_singleton ticks k ih =>
      rw [List.map_append, ← List.append_assoc]
      exact (lastSet_concat_tick _ _ _ _).trans ih

variable [CFloat F]

/-- The shared command and its stamp are those of the most recent
acceptance, however many ticks came after it. -/
theorem final_of_lastSet (T : Trig F) (s₀ : ControlLoop F E I)
    {calls : List (Call E I)} {t : Nat} {c : Cmd F}
    (h : lastSet calls = some (t, c)) :
    ((loopMachine F E I T).final s₀ calls).cmd = c
      ∧ ((loopMachine F E I T).final s₀ calls).prevCmdMs
        = linoMillis t := by
  induction calls using List.reverseRecOn with
  | nil => cases h
  | append_singleton calls call ih =>
      cases call with
      | setCmd t' c' =>
          rw [lastSet_concat_setCmd] at h
          cases h
          rw [final_concat_setCmd]
          exact ⟨rfl, rfl⟩
      | tick t' inp bus =>
          rw [lastSet_concat_tick] at h
          rw [final_concat_tick, tick_cmd, tick_prevCmdMs]
          exact ih h

-- ============================================================= the test

/-- The deadman stops a command exactly when the modular age is 200 or
more, or there is nothing to stop. -/
theorem deadman_eq_zero_iff (now last : UInt32T) (c : Cmd F) :
    deadman now last c = Cmd.zero
      ↔ 200 ≤ (now - last).toNat ∨ c = Cmd.zero := by
  have htest : cmdTimeoutMs ≤ now - last ↔ 200 ≤ (now - last).toNat :=
    BitVec.le_def
  unfold deadman
  by_cases h : 200 ≤ (now - last).toNat
  · rw [if_pos (htest.mpr h)]
    exact iff_of_true rfl (Or.inl h)
  · rw [if_neg fun hle => h (htest.mp hle)]
    exact ⟨Or.inr, fun ho => ho.resolve_left h⟩

/-- The deadman passes a command unchanged exactly when the modular age
is below 200, or it is the command the deadman itself would give. -/
theorem deadman_eq_self_iff (now last : UInt32T) (c : Cmd F) :
    deadman now last c = c
      ↔ (now - last).toNat < 200 ∨ c = Cmd.zero := by
  have htest : cmdTimeoutMs ≤ now - last ↔ 200 ≤ (now - last).toNat :=
    BitVec.le_def
  unfold deadman
  by_cases h : (now - last).toNat < 200
  · have hno : ¬ cmdTimeoutMs ≤ now - last :=
      fun hle => absurd (htest.mp hle) (by omega)
    rw [if_neg hno]
    exact iff_of_true rfl (Or.inl h)
  · rw [if_pos (htest.mpr (by omega))]
    constructor
    · intro hz
      exact Or.inr hz.symm
    · intro ho
      exact (ho.resolve_left h).symm

-- =========================================================== stale ticks

/-- Every tick of the run that reads the clock 200 ms or more after the
most recent acceptance passes the zero command on. -/
def StaleStops (T : Trig F) (s₀ : ControlLoop F E I)
    (calls : List (Call E I)) : Prop :=
  ∀ pre t inp bus post, calls = pre ++ .tick t inp bus :: post →
    ∀ t' c, lastSet pre = some (t', c) → t' + 200 ≤ t →
      (controlLoopTick T t inp bus
        ((loopMachine F E I T).final s₀ pre)).2.cmd = Cmd.zero

/-- At every such tick the age of the acceptance modulo `2^32` is still
200 or more, or the accepted command is zero itself. -/
def StaleSeen (calls : List (Call E I)) : Prop :=
  ∀ pre t inp bus post, calls = pre ++ .tick t inp bus :: post →
    ∀ t' c, lastSet pre = some (t', c) → t' + 200 ≤ t →
      200 ≤ (t - t') % 2 ^ 32 ∨ c = Cmd.zero

/-- What a tick passes on, from the most recent acceptance alone. -/
theorem tick_cmd_eq_zero_iff (T : Trig F) (s₀ : ControlLoop F E I)
    {pre : List (Call E I)} {t' : Nat} {c : Cmd F}
    (hset : lastSet pre = some (t', c)) {t : Nat} (hle : t' ≤ t)
    (inp : E.Input) (bus : I.Bus) :
    (controlLoopTick T t inp bus
        ((loopMachine F E I T).final s₀ pre)).2.cmd = Cmd.zero
      ↔ 200 ≤ (t - t') % 2 ^ 32 ∨ c = Cmd.zero := by
  obtain ⟨hcmd, hms⟩ := final_of_lastSet T s₀ hset
  have hpassed : (controlLoopTick T t inp bus
      ((loopMachine F E I T).final s₀ pre)).2.cmd
      = deadman (linoMillis t) (linoMillis t') c := by
    rw [← hcmd, ← hms]
    rfl
  rw [hpassed, deadman_eq_zero_iff, linoMillis, linoMillis,
    Lib.elapsed 32 hle]

/-- A run stops every stale command exactly when no stale tick falls
into the 200 ms after a full turn of the millisecond counter, zero
commands apart. -/
theorem stale_stops_iff (cfg : BoardConfig F) (T : Trig F) (enc : E.State)
    (imu : I.State) (imuOk : Bool) (t₀ : Nat) (calls : List (Call E I)) :
    StaleStops T (controlLoopInit cfg enc imu imuOk t₀) calls
      ↔ StaleSeen calls := by
  constructor
  · intro h pre t inp bus post hcalls t' c hset hstale
    exact (tick_cmd_eq_zero_iff T _ hset (by omega) inp bus).mp
      (h pre t inp bus post hcalls t' c hset hstale)
  · intro h pre t inp bus post hcalls t' c hset hstale
    exact (tick_cmd_eq_zero_iff T _ hset (by omega) inp bus).mpr
      (h pre t inp bus post hcalls t' c hset hstale)

/-- One command of 0.2 m/s at time 0, then a silent agent: a tick every
20 ms for as long as the millisecond counter takes to come round. -/
def longSilence : List (Call (encoders ℚ) (ImuDriver.absent ℚ)) :=
  [.setCmd 0 ⟨1 / 5, 0, 0⟩]
    ++ ((List.range 214748364).map fun k => (20 * k + 16,
        ((BitVec.ofNat 32 (20000 * k + 16000), fun _ => 0), ()))).map
      fun k => .tick k.1 k.2.1 k.2.2

/-- The next tick, 2^32 ms after the command, drives the base again. -/
theorem stale_command_returns :
    ¬ StaleStops Trig.level
      (controlLoopInit f446re (f446re (F := ℚ)).encoders () false 0)
      (longSilence ++ [.tick (2 ^ 32) (0, fun _ => 0) ()]) := by
  intro h
  have hset : lastSet longSilence = some (0, (⟨1 / 5, 0, 0⟩ : Cmd ℚ)) :=
    lastSet_append_ticks [.setCmd 0 ⟨1 / 5, 0, 0⟩] _
  have hzero := h longSilence (2 ^ 32) (0, fun _ => 0) () [] rfl 0 _ hset
    (by norm_num)
  have hage := (tick_cmd_eq_zero_iff _ _ hset (by norm_num) _ _).mp hzero
  rcases hage with hage | hage
  · revert hage
    decide
  · revert hage
    decide +kernel

-- ================================================ fresh commands, stepwise

/-- What the fields of a tick's record say of each other: both stamps
were read no later than the snapshot was taken, and the tick passed on
what the deadman made of them. -/
structure TickRec.Sound (k : TickRec F) : Prop where
  readAt_le : k.readAt ≤ k.snapAt
  cmdAt_le : k.cmdAt ≤ k.snapAt
  cmd_eq : k.cmd
    = deadman (linoMillis k.readAt) (linoMillis k.cmdAt) k.snapshot

/-- A clock reading `control_task` holds is not in the future, and the
record of a tick under way is sound. -/
def CtrlPc.Sound (time : Nat) : CtrlPc F → Prop
  | .initOdom now => now ≤ time
  | .initCmd now => now ≤ time
  | .snap now => now ≤ time
  | .measure _ k => k.Sound
  | _ => True

/-- The same for `uros_task`. -/
def UrosPc.Sound (time : Nat) : UrosPc F → Prop
  | .idle => True
  | .setCmd now _ => now ≤ time

/-- The stamp of the shared command is the residue of `cmdAt`, no clock
reading in use is in the future, and every record is sound. -/
structure System.Stamped (s : System F E I) : Prop where
  stamp : s.loop.prevCmdMs = linoMillis s.cmdAt
  cmdAt_le : s.cmdAt ≤ s.time
  ctrl : s.ctrl.Sound s.time
  uros : s.uros.Sound s.time
  ticks : ∀ k ∈ s.ticks, k.Sound

/-- Time passing invalidates no clock reading. -/
theorem CtrlPc.Sound.later {pc : CtrlPc F} {time : Nat}
    (h : pc.Sound time) : pc.Sound (time + 1) := by
  cases pc with
  | initOdom now => exact Nat.le_succ_of_le h
  | initCmd now => exact Nat.le_succ_of_le h
  | snap now => exact Nat.le_succ_of_le h
  | measure now k => exact h
  | _ => trivial

omit [CFloat F] in
theorem UrosPc.Sound.later {pc : UrosPc F} {time : Nat}
    (h : pc.Sound time) : pc.Sound (time + 1) := by
  cases pc with
  | idle => trivial
  | setCmd now c => exact Nat.le_succ_of_le h

namespace System

/-- No step of `control_task` breaks a stamp. -/
theorem Stamped.ctrlStep {s : System F E I} (h : s.Stamped) (T : Trig F)
    (inp : E.Input) (bus : I.Bus) : (s.ctrlStep T inp bus).Stamped := by
  obtain ⟨time, loop, ctrl, uros, cmdAt, given, ticks, steps, datas, ods,
    ims⟩ := s
  obtain ⟨hstamp, hcmdAt, hctrl, huros, hticks⟩ := h
  cases ctrl with
  | boot => exact ⟨hstamp, hcmdAt, Nat.le_refl _, huros, hticks⟩
  | initOdom now => exact ⟨hstamp, hcmdAt, hctrl, huros, hticks⟩
  | initCmd now => exact ⟨rfl, hctrl, trivial, huros, hticks⟩
  | ready => exact ⟨hstamp, hcmdAt, Nat.le_refl _, huros, hticks⟩
  | snap now =>
      refine ⟨hstamp, hcmdAt, ⟨hctrl, hcmdAt, ?_⟩, huros, hticks⟩
      show deadman (linoMillis now) loop.prevCmdMs loop.cmd = _
      exact congrArg (deadman (linoMillis now) · loop.cmd) hstamp
  | measure now k =>
      refine ⟨hstamp, hcmdAt, trivial, huros, fun k' hk' => ?_⟩
      rcases List.mem_append.mp hk' with hold | hnew
      · exact hticks k' hold
      · exact List.mem_singleton.mp hnew ▸ hctrl
  | publish r =>
      refine ⟨hstamp, hcmdAt, ?_, huros, hticks⟩
      show CtrlPc.Sound time (if loop.imuOk then .imuRead else .ready)
      split <;> trivial
  | _ => exact ⟨hstamp, hcmdAt, trivial, huros, hticks⟩

/-- Every reachable state is stamped. -/
theorem stamped_of_reachable {T : Trig F} {cfg : BoardConfig F}
    {s : System F E I} (h : (tasks E I T cfg).Reachable s) : s.Stamped := by
  refine h.invariant ?_ ?_
  · intro s hs
    obtain ⟨enc, imu, imuOk, t, rfl⟩ := hs
    exact ⟨rfl, Nat.zero_le t, trivial, trivial,
      fun k hk => absurd hk List.not_mem_nil⟩
  · intro s a s' hs happ
    cases moves_of_apply happ with
    | clock =>
        exact ⟨hs.stamp, Nat.le_succ_of_le hs.cmdAt_le, hs.ctrl.later,
          hs.uros.later, hs.ticks⟩
    | ctrl inp bus => exact hs.ctrlStep T inp bus
    | setCmd c hidle =>
        exact ⟨hs.stamp, hs.cmdAt_le, hs.ctrl, Nat.le_refl _, hs.ticks⟩
    | setCmdWrite now c hset =>
        have hnow : now ≤ s.time := by
          have hu := hs.uros
          rw [hset] at hu
          exact hu
        exact ⟨rfl, hnow, hs.ctrl, trivial, hs.ticks⟩
    | getOdom hidle =>
        exact ⟨hs.stamp, hs.cmdAt_le, hs.ctrl, hs.uros, hs.ticks⟩
    | getImu hidle =>
        exact ⟨hs.stamp, hs.cmdAt_le, hs.ctrl, hs.uros, hs.ticks⟩

end System

-- ======================================================== fresh commands

/-- The snapshot was taken less than 200 ms after the command's stamp was
read. -/
def TickRec.Fresh (k : TickRec F) : Prop := k.snapAt < k.cmdAt + 200

/-- The command's stamp was not read after the tick's own clock read; or,
on the 32-bit counter, it is a whole number of turns after it, or less
than 200 short of one. -/
def TickRec.InOrder (k : TickRec F) : Prop :=
  k.cmdAt ≤ k.readAt ∨ (k.cmdAt - k.readAt) % 2 ^ 32 = 0
    ∨ 2 ^ 32 - 200 < (k.cmdAt - k.readAt) % 2 ^ 32

/-- The modular age of a fresh command is below 200 exactly when the two
clock reads are in order. -/
theorem TickRec.Sound.elapsed_lt_iff {k : TickRec F} (h : k.Sound)
    (hf : k.Fresh) :
    (linoMillis k.readAt - linoMillis k.cmdAt).toNat < 200
      ↔ k.InOrder := by
  have hf : k.snapAt < k.cmdAt + 200 := hf
  have hread := h.readAt_le
  unfold TickRec.InOrder linoMillis
  by_cases hle : k.cmdAt ≤ k.readAt
  · -- in order: the true age, which freshness bounds
    rw [Lib.elapsed_of_lt 32 hle (by omega)]
    exact iff_of_true (by omega) (Or.inl hle)
  · -- the stamp is the later one: the complement of its lead
    rw [Lib.elapsed_backward 32 (by omega)]
    omega

/-- A fresh command is passed on exactly when its stamp is not newer than
the tick's `now`, or when it is the zero command. -/
theorem fresh_passes_iff {T : Trig F} {cfg : BoardConfig F}
    {s : System F E I} (h : (tasks E I T cfg).Reachable s) {k : TickRec F}
    (hk : k ∈ s.ticks) (hf : k.Fresh) :
    k.cmd = k.snapshot ↔ k.InOrder ∨ k.snapshot = Cmd.zero := by
  have hsound : k.Sound := (System.stamped_of_reachable h).ticks k hk
  rw [hsound.cmd_eq, deadman_eq_self_iff, hsound.elapsed_lt_iff hf]

/-- `control_loop_init` runs to its end, and a tick reads the clock. One
millisecond passes and `uros_task` delivers a command of 0.2 m/s before
the tick takes its snapshot. -/
def preempted : List (Act (encoders ℚ) (ImuDriver.absent ℚ)) :=
  List.replicate 7 ctrlAct
    ++ [.clock, .setCmd ⟨1 / 5, 0, 0⟩, .setCmdWrite, ctrlAct, ctrlAct]

/-- The same command delivered before the tick reads the clock. -/
def undisturbed : List (Act (encoders ℚ) (ImuDriver.absent ℚ)) :=
  List.replicate 6 ctrlAct
    ++ [.clock, .setCmd ⟨1 / 5, 0, 0⟩, .setCmdWrite]
    ++ List.replicate 3 ctrlAct

/-- The tick that was not disturbed passes its command on. -/
theorem fresh_passes_iff_undisturbed :
    ∃ s, f446reTasks.run undisturbed f446reStart = some s
      ∧ ∃ k ∈ s.ticks, k.cmd = k.snapshot ∧ k.snapshot ≠ Cmd.zero := by
  have hrun : (f446reTasks.run undisturbed f446reStart).map System.ticks
      = some [⟨1, 1, 1, ⟨1 / 5, 0, 0⟩, ⟨1 / 5, 0, 0⟩⟩] := by
    decide +kernel
  obtain ⟨s, hs, hticks⟩ := Option.map_eq_some_iff.mp hrun
  have hmem : ⟨1, 1, 1, ⟨1 / 5, 0, 0⟩, ⟨1 / 5, 0, 0⟩⟩ ∈ s.ticks := by
    rw [hticks]
    exact List.mem_singleton_self _
  refine ⟨s, hs, _, hmem, ?_, by decide +kernel⟩
  exact (fresh_passes_iff (Lib.Machine.reachable_of_run f446reTasks_start hs)
    hmem (show 1 < 1 + 200 by omega)).mpr
      (Or.inl (Or.inl (Nat.le_refl 1)))

/-- The tick that was preempted cancels the newest command, which is not
a millisecond old. -/
theorem fresh_command_cancelled :
    ¬ ∀ s, f446reTasks.Reachable s →
        ∀ k ∈ s.ticks, k.Fresh → k.cmd = k.snapshot := by
  intro hall
  have hrun : (f446reTasks.run preempted f446reStart).map System.ticks
      = some [⟨0, 1, 1, ⟨1 / 5, 0, 0⟩, Cmd.zero⟩] := by
    decide +kernel
  obtain ⟨s, hs, hticks⟩ := Option.map_eq_some_iff.mp hrun
  have hmem : ⟨0, 1, 1, ⟨1 / 5, 0, 0⟩, Cmd.zero⟩ ∈ s.ticks := by
    rw [hticks]
    exact List.mem_singleton_self _
  have hcmd := hall s (Lib.Machine.reachable_of_run f446reTasks_start hs) _
    hmem (show 1 < 1 + 200 by omega)
  revert hcmd
  decide +kernel

end LinoStm32
