/-
The control core under interleaving is the control core alone.

`Tasks.lean` cuts a tick into steps that `uros_task` may run between, and
records each call of `ControlCore::step` with the core it found and the
arguments it was given. However the tasks interleave, these calls are one
run of the sequential machine `ControlCore.mealy` from the board's fresh
core (`steps_are_run`): what is proved of every run of the core holds of
the core inside the two-task system.

Preemption reaches the core through the arguments only: `uros_task` never
writes the core, and of the core `control_task` writes during a step only
the pose, which is whole again when the step is recorded.
-/
import LinoStm32.Proofs.Snapshot

namespace LinoStm32

variable {F : Type} [CFloat F] {E : RpmSource F} {I : ImuDriver F}

-- ================================================================ a run

omit [CFloat F] in
/-- The arguments of a recorded call. -/
def StepRec.input (r : StepRec F) : ControlCore.StepIn F :=
  ⟨r.cmd, r.rpm, r.dt⟩

/-- The core after recorded calls, run one after the other. -/
def coreAfter (T : Trig F) (cfg : BoardConfig F)
    (steps : List (StepRec F)) : ControlCore F :=
  (ControlCore.mealy T).final (ControlCore.fresh cfg)
    (steps.map StepRec.input)

/-- Every recorded call found the core that the ones before it leave. -/
def IsRun (T : Trig F) (cfg : BoardConfig F) (steps : List (StepRec F)) :
    Prop :=
  ∀ pre r post, steps = pre ++ r :: post → r.core = coreAfter T cfg pre

section IsRun

variable {T : Trig F} {cfg : BoardConfig F} {steps : List (StepRec F)}
  {r : StepRec F}

/-- One more call. -/
theorem coreAfter_concat (hr : r.core = coreAfter T cfg steps) :
    coreAfter T cfg (steps ++ [r]) = (r.result T).1 := by
  have hfinal : coreAfter T cfg (steps ++ [r])
      = ((coreAfter T cfg steps).step T r.cmd r.rpm r.dt).1 := by
    rw [coreAfter, List.map_append, Lib.Mealy.final_append]
    rfl
  rw [hfinal, ← hr]
  rfl

theorem IsRun.concat (h : IsRun T cfg steps)
    (hr : r.core = coreAfter T cfg steps) : IsRun T cfg (steps ++ [r]) := by
  intro pre r' post heq
  rcases Lib.Mealy.split_concat heq with ⟨rfl, rfl, -⟩ | ⟨post', hold, -⟩
  · exact hr
  · exact h pre r' post' hold

end IsRun

-- ============================================================ invariant

/-- The core the next call will find, or the call under way has found. -/
def System.base (s : System F E I) : ControlCore F :=
  match s.ctrl with
  | .addX r => r.core
  | .addY r => r.core
  | .addHeading r => r.core
  | _ => s.loop.core

/-- The calls so far are a run, and the core is where it leads. -/
structure System.Sequential (T : Trig F) (cfg : BoardConfig F)
    (s : System F E I) : Prop where
  base : s.base = coreAfter T cfg s.steps
  run : IsRun T cfg s.steps

namespace System

variable {T : Trig F} {cfg : BoardConfig F} {s : System F E I}

/-- No step of `control_task` leaves the run. -/
theorem Sequential.ctrlStep (h : s.Sequential T cfg) (hlive : s.Coherent T)
    (inp : E.Input) (bus : I.Bus) :
    (s.ctrlStep T inp bus).Sequential T cfg := by
  obtain ⟨time, loop, ctrl, uros, cmdAt, given, ticks, steps, datas, ods,
    ims⟩ := s
  obtain ⟨hbase, hrun⟩ := h
  cases ctrl with
  | addHeading r =>
      have hr : r.core = coreAfter T cfg steps := hbase
      -- the third write completes the pose of the call
      have hpublish := (hlive.addHeading rfl inp bus).live.1
      refine ⟨?_, hrun.concat hr⟩
      exact hpublish.trans (coreAfter_concat hr).symm
  | publish r =>
      refine ⟨?_, hrun⟩
      cases hok : loop.imuOk with
      | true =>
          simp only [System.ctrlStep, hok]
          exact hbase
      | false =>
          simp only [System.ctrlStep, hok]
          exact hbase
  | _ => exact ⟨hbase, hrun⟩

theorem sequential_of_reachable (h : (tasks E I T cfg).Reachable s) :
    s.Sequential T cfg := by
  refine h.invariant_given (fun _ => coherent_of_reachable) ?_ ?_
  · intro s hs
    obtain ⟨enc, imu, imuOk, t, rfl⟩ := hs
    refine ⟨rfl, fun pre r post heq => ?_⟩
    change [] = pre ++ r :: post at heq
    simp at heq
  · intro s a s' hlive hs happ
    cases moves_of_apply happ with
    | clock => exact ⟨hs.base, hs.run⟩
    | ctrl inp bus => exact hs.ctrlStep hlive inp bus
    | setCmd c _ => exact ⟨hs.base, hs.run⟩
    | setCmdWrite now c _ => exact ⟨hs.base, hs.run⟩
    | getOdom _ => exact ⟨hs.base, hs.run⟩
    | getImu _ => exact ⟨hs.base, hs.run⟩

end System

-- ============================================================== theorem

/-- Under every interleaving the completed calls of `ControlCore::step`
are one run of the control core from the board's fresh one. -/
theorem steps_are_run {T : Trig F} {cfg : BoardConfig F}
    {s : System F E I} (h : (tasks E I T cfg).Reachable s) :
    IsRun T cfg s.steps :=
  (System.sequential_of_reachable h).run

/-- What a run hands out is what its calls handed out. -/
theorem IsRun.outputs {T : Trig F} {cfg : BoardConfig F}
    {steps : List (StepRec F)} (h : IsRun T cfg steps) :
    (ControlCore.mealy T).outputs (ControlCore.fresh cfg)
        (steps.map StepRec.input)
      = steps.map fun r => (r.result T).2 := by
  induction steps using List.reverseRecOn with
  | nil => rfl
  | append_singleton steps r ih =>
      have hpre : IsRun T cfg steps := fun pre r' post heq =>
        h pre r' (post ++ [r]) (by rw [heq]; simp)
      have hr : r.core = coreAfter T cfg steps := h steps r [] rfl
      rw [List.map_append, Lib.Mealy.outputs_append, ih hpre,
        List.map_append]
      show _ ++ [((coreAfter T cfg steps).step T r.cmd r.rpm r.dt).2] = _
      rw [← hr]
      rfl

end LinoStm32
