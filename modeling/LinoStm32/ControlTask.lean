/-
`control_task` of `Src/main.c`: `control_loop_init`, then a tick every 20
ms by `vTaskDelayUntil`, beside `uros_task` and the millisecond tick.

Inside the functions of the control loop a step of the task is a step of
the two-task system of `Tasks.lean`; between them it is one of its own two
calls into FreeRTOS, which leave that system alone
(`ControlTask.reachable_sys`).

# FreeRTOS

`vTaskDelayUntil` adds the period to `last` and does not return before
then. How long after then a tick is done depends on what else runs, and so
on the priorities: `uros_task` has the higher one. `Timely D` is a run in
which no tick is done later than `D` ms after it was due.
-/
import LinoStm32.Tasks

namespace LinoStm32

/-- Where `control_task` is. -/
inductive TaskPc
  /-- in `control_loop_init` -/
  | init
  /-- at `last = xTaskGetTickCount()` -/
  | start
  /-- in `control_loop_tick` -/
  | tick
  /-- in `vTaskDelayUntil` -/
  | delay
  deriving DecidableEq

/-- The two-task system, and what `control_task` keeps of its own: `last`,
in true time. -/
structure ControlTask (F : Type) (E : RpmSource F) (I : ImuDriver F) where
  sys : System F E I
  pc : TaskPc
  last : Nat
  /-- what `last` was before the loop -/
  began : Nat
  /-- when the shared command was last written -/
  acceptedAt : Nat

/-- `pdMS_TO_TICKS(20)`. -/
def controlPeriod : Nat := 20

/-- The control loop's functions have returned. -/
def CtrlPc.returned {F : Type} : CtrlPc F → Bool
  | .ready => true
  | _ => false

namespace ControlTask

variable {F : Type} [CFloat F] {E : RpmSource F} {I : ImuDriver F}

/-- A step of `control_task`. -/
def taskStep (T : Trig F) (inp : E.Input) (bus : I.Bus)
    (s : ControlTask F E I) : Option (ControlTask F E I) :=
  let y := s.sys.ctrlStep T inp bus
  match s.pc with
  | .init =>
      some { s with
        sys := y
        pc := if y.ctrl.returned then .start else .init
        acceptedAt := s.sys.time }
  | .start =>
      some { s with
        pc := .tick
        last := s.sys.time
        began := s.sys.time }
  | .tick =>
      if y.ctrl.returned then
        some { s with sys := y, pc := .delay, last := s.last + controlPeriod }
      else some { s with sys := y }
  | .delay => if s.last ≤ s.sys.time then some { s with pc := .tick } else none

/-- A step of anything else. -/
def otherStep (T : Trig F) (a : Act E I) (s : ControlTask F E I) :
    Option (ControlTask F E I) :=
  (System.apply T a s.sys).map fun y => { s with sys := y }

/-- Take a step, when it is enabled. -/
def apply (T : Trig F) :
    Act E I → ControlTask F E I → Option (ControlTask F E I)
  | .ctrl inp bus, s => s.taskStep T inp bus
  | .setCmdWrite, s =>
      (s.otherStep T .setCmdWrite).map fun s' =>
        { s' with acceptedAt := s.sys.time }
  | a, s => s.otherStep T a

/-- A tick that is due is done before `D` ms have passed. -/
def Timely (D : Nat) (s : ControlTask F E I) : Act E I → Prop
  | .clock =>
      s.pc = .tick ∨ s.pc = .delay → s.sys.time < s.last + D
  | _ => True

instance (D : Nat) (s : ControlTask F E I) :
    ∀ a, Decidable (s.Timely D a)
  | .clock => inferInstanceAs (Decidable (_ → _))
  | .ctrl _ _ => inferInstanceAs (Decidable True)
  | .setCmd _ => inferInstanceAs (Decidable True)
  | .setCmdWrite => inferInstanceAs (Decidable True)
  | .getOdom => inferInstanceAs (Decidable True)
  | .getImu => inferInstanceAs (Decidable True)

/-- Both tasks, from the start of the scheduler on. -/
def machine (E : RpmSource F) (I : ImuDriver F) (T : Trig F)
    (cfg : BoardConfig F) :
    Lib.Machine (ControlTask F E I) (Act E I) where
  start s := ∃ y, (tasks E I T cfg).start y ∧ s = ⟨y, .init, 0, 0, 0⟩
  apply := apply T

-- ================================================== what a step can do

/-- `apply` as a relation. -/
inductive Moves (T : Trig F) (s : ControlTask F E I) :
    Act E I → ControlTask F E I → Prop
  | init (inp : E.Input) (bus : I.Bus) : s.pc = .init →
      Moves T s (.ctrl inp bus)
        { s with
          sys := s.sys.ctrlStep T inp bus
          pc := if (s.sys.ctrlStep T inp bus).ctrl.returned then .start
            else .init
          acceptedAt := s.sys.time }
  | start (inp : E.Input) (bus : I.Bus) : s.pc = .start →
      Moves T s (.ctrl inp bus)
        { s with pc := .tick, last := s.sys.time, began := s.sys.time }
  | tick (inp : E.Input) (bus : I.Bus) : s.pc = .tick →
      (s.sys.ctrlStep T inp bus).ctrl.returned = false →
      Moves T s (.ctrl inp bus) { s with sys := s.sys.ctrlStep T inp bus }
  | done (inp : E.Input) (bus : I.Bus) : s.pc = .tick →
      (s.sys.ctrlStep T inp bus).ctrl.returned = true →
      Moves T s (.ctrl inp bus)
        { s with
          sys := s.sys.ctrlStep T inp bus
          pc := .delay
          last := s.last + controlPeriod }
  | wake (inp : E.Input) (bus : I.Bus) : s.pc = .delay →
      s.last ≤ s.sys.time →
      Moves T s (.ctrl inp bus) { s with pc := .tick }
  | clock : Moves T s .clock
      { s with sys := { s.sys with time := s.sys.time + 1 } }
  | accept (y : System F E I) : System.apply T .setCmdWrite s.sys = some y →
      Moves T s .setCmdWrite { s with sys := y, acceptedAt := s.sys.time }
  | setCmd (c : Cmd F) (y : System F E I) :
      System.apply T (.setCmd c) s.sys = some y →
      Moves T s (.setCmd c) { s with sys := y }
  | getOdom (y : System F E I) : System.apply T .getOdom s.sys = some y →
      Moves T s .getOdom { s with sys := y }
  | getImu (y : System F E I) : System.apply T .getImu s.sys = some y →
      Moves T s .getImu { s with sys := y }

theorem moves_of_apply {T : Trig F} {a : Act E I} {s s' : ControlTask F E I}
    (h : apply T a s = some s') : Moves T s a s' := by
  cases a with
  | clock =>
      cases h
      exact .clock
  | ctrl inp bus =>
      simp only [apply, taskStep] at h
      split at h
      · next hpc => cases h; exact .init inp bus hpc
      · next hpc => cases h; exact .start inp bus hpc
      · next hpc =>
          split at h
          · next hret => cases h; exact .done inp bus hpc hret
          · next hret =>
              cases h
              exact .tick inp bus hpc (Bool.eq_false_iff.mpr hret)
      · next hpc =>
          split at h
          · next hdue => cases h; exact .wake inp bus hpc hdue
          · cases h
  | setCmd c =>
      obtain ⟨y, hy, rfl⟩ := Option.map_eq_some_iff.mp h
      exact .setCmd c y hy
  | setCmdWrite =>
      obtain ⟨u, hu, rfl⟩ := Option.map_eq_some_iff.mp h
      obtain ⟨y, hy, rfl⟩ := Option.map_eq_some_iff.mp hu
      exact .accept y hy
  | getOdom =>
      obtain ⟨y, hy, rfl⟩ := Option.map_eq_some_iff.mp h
      exact .getOdom y hy
  | getImu =>
      obtain ⟨y, hy, rfl⟩ := Option.map_eq_some_iff.mp h
      exact .getImu y hy

/-- Its control loop is that of the two-task system. -/
theorem reachable_sys {T : Trig F} {cfg : BoardConfig F}
    {s : ControlTask F E I} (h : (machine E I T cfg).Reachable s) :
    (tasks E I T cfg).Reachable s.sys := by
  refine h.refines (f := ControlTask.sys) ?_ ?_
  · rintro s ⟨y, hy, rfl⟩
    exact hy
  · intro s a s' happ
    cases moves_of_apply happ with
    | init inp bus _ => exact Or.inr ⟨.ctrl inp bus, rfl⟩
    | start inp bus _ => exact Or.inl rfl
    | tick inp bus _ _ => exact Or.inr ⟨.ctrl inp bus, rfl⟩
    | done inp bus _ _ => exact Or.inr ⟨.ctrl inp bus, rfl⟩
    | wake inp bus _ _ => exact Or.inl rfl
    | clock => exact Or.inr ⟨.clock, rfl⟩
    | accept y hy => exact Or.inr ⟨.setCmdWrite, hy⟩
    | setCmd c y hy => exact Or.inr ⟨.setCmd c, hy⟩
    | getOdom y hy => exact Or.inr ⟨.getOdom, hy⟩
    | getImu y hy => exact Or.inr ⟨.getImu, hy⟩

end ControlTask

end LinoStm32
