/-
The firmware with the loop of `control_task`: `Uros.lean` and
`ControlTask.lean` over one two-task system.

The steps of `uros_task` are those of `Uros`, the steps of `control_task`
those of `ControlTask`, so each of the two is in a state it reaches by
itself (`Board.reachable_uros`, `Board.reachable_control`).

Next to these a state keeps when three things last happened, which no step
reads: a ping that succeeded returned, `rclc_executor_spin_some` was
called, `twistCallback` wrote the shared command.
-/
import LinoStm32.ControlTask
import LinoStm32.Uros

namespace LinoStm32

/-- The whole firmware. -/
structure Board (R : Rcl) (F : Type) (E : RpmSource F) (I : ImuDriver F)
    where
  uros : Uros R F E I
  pc : TaskPc
  last : Nat
  began : Nat
  acceptedAt : Nat
  /-- when a ping last succeeded -/
  heardAt : Nat
  /-- when the executor was last spun -/
  spunAt : Nat
  /-- when `twistCallback` last wrote -/
  twistAt : Nat

/-- The return of a ping that succeeds. -/
def UrosAct.hears {R : Rcl} {F : Type} {E : RpmSource F} {I : ImuDriver F} :
    UrosAct R E I → Bool
  | .ping ok => ok
  | _ => false

/-- The write of `twistCallback`. -/
def UrosAct.twists {R : Rcl} {F : Type} {E : RpmSource F}
    {I : ImuDriver F} : UrosAct R E I → Bool
  | .callback .twistWrite => true
  | _ => false

/-- `uros_task` has finished a `control_set_cmd`. -/
def UrosPc.wrote {F : Type} : UrosPc F → UrosPc F → Bool
  | .setCmd _ _, .idle => true
  | _, _ => false

namespace Board

variable {R : Rcl} {F : Type} {E : RpmSource F} {I : ImuDriver F}

/-- `control_task`. -/
def control (s : Board R F E I) : ControlTask F E I :=
  ⟨s.uros.sys, s.pc, s.last, s.began, s.acceptedAt⟩

/-- A step of `control_task` has led to `c`. -/
def withControl (s : Board R F E I) (c : ControlTask F E I) :
    Board R F E I :=
  { s with
    uros := { s.uros with sys := c.sys }
    pc := c.pc
    last := c.last
    began := c.began
    acceptedAt := c.acceptedAt }

/-- Any other step has led to `u`. -/
def withUros (s : Board R F E I) (a : UrosAct R E I) (u : Uros R F E I) :
    Board R F E I :=
  let now := s.uros.sys.time
  { s with
    uros := u
    acceptedAt :=
      if s.uros.sys.uros.wrote u.sys.uros then now else s.acceptedAt
    heardAt := if a.hears then now else s.heardAt
    spunAt := if u.pc = .spin ∧ s.uros.pc ≠ .spin then now else s.spunAt
    twistAt := if a.twists then now else s.twistAt }

variable [CFloat F]

/-- Take a step, when it is enabled. -/
def apply (T : Trig F) :
    UrosAct R E I → Board R F E I → Option (Board R F E I)
  | .ctrl inp bus, s => (s.control.taskStep T inp bus).map s.withControl
  | a, s => (Uros.apply T a s.uros).map (s.withUros a)

/-- A tick that is due is done before `D` ms have passed, and a spin before
`S` ms have. -/
def Timely (D S : Nat) (s : Board R F E I) : UrosAct R E I → Prop
  | .clock =>
      s.control.Timely D .clock
        ∧ (s.uros.pc = .spin → s.uros.sys.time < s.spunAt + S)
  | _ => True

instance (D S : Nat) (s : Board R F E I) : ∀ a, Decidable (s.Timely D S a)
  | .clock => inferInstanceAs (Decidable (_ ∧ _))
  | .ctrl _ _ => inferInstanceAs (Decidable True)
  | .task => inferInstanceAs (Decidable True)
  | .ping _ => inferInstanceAs (Decidable True)
  | .rcl _ => inferInstanceAs (Decidable True)
  | .sync _ => inferInstanceAs (Decidable True)
  | .callback _ => inferInstanceAs (Decidable True)

/-- The board from the start of the scheduler on. -/
def machine (R : Rcl) (E : RpmSource F) (I : ImuDriver F) (T : Trig F)
    (cfg : BoardConfig F) :
    Lib.Machine (Board R F E I) (UrosAct R E I) where
  start s := ∃ u, (firmware R E I T cfg).start u
    ∧ s = ⟨u, .init, 0, 0, 0, 0, 0, 0⟩
  apply := apply T

-- ================================================== what a step can do

/-- `apply` as a relation. -/
inductive Moves (T : Trig F) (s : Board R F E I) :
    UrosAct R E I → Board R F E I → Prop
  | ctrl (inp : E.Input) (bus : I.Bus) (c : ControlTask F E I) :
      s.control.taskStep T inp bus = some c →
      Moves T s (.ctrl inp bus) (s.withControl c)
  | uros (a : UrosAct R E I) (u : Uros R F E I) :
      (∀ inp bus, a ≠ .ctrl inp bus) → Uros.apply T a s.uros = some u →
      Moves T s a (s.withUros a u)

variable {T : Trig F} {cfg : BoardConfig F} {s s' : Board R F E I}
  {a : UrosAct R E I}

theorem moves_of_apply (h : apply T a s = some s') : Moves T s a s' := by
  cases a with
  | ctrl inp bus =>
      obtain ⟨c, hc, rfl⟩ := Option.map_eq_some_iff.mp h
      exact .ctrl inp bus c hc
  | clock | task | ping _ | rcl _ | sync _ | callback _ =>
      simp only [apply] at h
      obtain ⟨u, hu, rfl⟩ := Option.map_eq_some_iff.mp h
      exact .uros _ u (fun _ _ => nofun) hu

end Board

/-- Whatever of its calls into FreeRTOS it makes, `control_task` leaves the
two-task system alone or takes it a step further. -/
theorem ControlTask.taskStep_sys {F : Type} [CFloat F] {E : RpmSource F}
    {I : ImuDriver F} {T : Trig F} {inp : E.Input} {bus : I.Bus}
    {s c : ControlTask F E I} (h : s.taskStep T inp bus = some c) :
    c.sys = s.sys ∨ c.sys = s.sys.ctrlStep T inp bus := by
  have happ : ControlTask.apply T (.ctrl inp bus) s = some c := h
  cases ControlTask.moves_of_apply happ with
  | init _ _ _ => exact Or.inr rfl
  | start _ _ _ => exact Or.inl rfl
  | tick _ _ _ _ => exact Or.inr rfl
  | done _ _ _ _ => exact Or.inr rfl
  | wake _ _ _ _ => exact Or.inl rfl

section Projections

variable {R : Rcl} {F : Type} [CFloat F] {E : RpmSource F}
  {I : ImuDriver F} {T : Trig F} {cfg : BoardConfig F}

theorem System.time_of_apply {b : Act E I} {s y : System F E I}
    (h : System.apply T b s = some y) (hb : b ≠ .clock) :
    y.time = s.time := by
  cases moves_of_apply h with
  | clock => exact absurd rfl hb
  | ctrl inp bus => exact ctrlStep_time T inp bus s
  | _ => rfl

/-- So only the tick takes time. -/
theorem Uros.time_of_apply {a : UrosAct R E I} {s s' : Uros R F E I}
    (h : Uros.apply T a s = some s') (hclock : a ≠ .clock) :
    s'.sys.time = s.sys.time := by
  by_cases hctrl : ∀ inp bus, a ≠ .ctrl inp bus
  · rcases Uros.calls_of_apply h hclock hctrl with hsame | ⟨b, hb, hy⟩
    · rw [hsame]
    · exact System.time_of_apply hy hb.ne_clock
  · push Not at hctrl
    obtain ⟨inp, bus, rfl⟩ := hctrl
    cases h
    exact System.ctrlStep_time T inp bus s.sys

/-- A call of `uros_task` is a step of the system `control_task` is in. -/
theorem ControlTask.apply_of_calls {u : Uros R F E I} {a : UrosAct R E I}
    {b : Act E I} (hb : u.Calls a b) {c : ControlTask F E I}
    {y : System F E I} (hy : System.apply T b c.sys = some y) :
    ControlTask.apply T b c = some { c with
      sys := y
      acceptedAt :=
        if c.sys.uros.wrote y.uros then c.sys.time else c.acceptedAt } := by
  have hother : c.otherStep T b = some { c with sys := y } := by
    rw [otherStep, hy]
    rfl
  cases System.moves_of_apply hy with
  | clock => exact absurd rfl hb.ne_clock
  | ctrl inp bus => exact absurd rfl (hb.ne_ctrl inp bus)
  | setCmdWrite now cmd hset =>
      simp only [apply, hother, hset, UrosPc.wrote]
      rfl
  | setCmd cmd hidle =>
      simp only [apply, hother, hidle, UrosPc.wrote]
      rfl
  | getOdom hidle =>
      simp only [apply, hother, hidle, UrosPc.wrote]
      rfl
  | getImu hidle =>
      simp only [apply, hother, hidle, UrosPc.wrote]
      rfl

namespace Board

variable {s : Board R F E I}

omit [CFloat F] in
theorem wrote_self (p : UrosPc F) : p.wrote p = false := by
  cases p with
  | idle => rfl
  | setCmd now c => rfl

/-- Its `uros_task` is that of `Uros`. -/
theorem reachable_uros (h : (machine R E I T cfg).Reachable s) :
    (firmware R E I T cfg).Reachable s.uros := by
  refine h.refines (f := Board.uros) ?_ ?_
  · rintro s ⟨u, hu, rfl⟩
    exact hu
  · intro s a s' happ
    cases moves_of_apply happ with
    | ctrl inp bus c hc =>
        rcases ControlTask.taskStep_sys hc with hsame | hstep
        · left
          show { s.uros with sys := c.sys } = s.uros
          rw [hsame]
          rfl
        · refine Or.inr ⟨.ctrl inp bus, ?_⟩
          show some { s.uros with sys := s.uros.sys.ctrlStep T inp bus }
            = some { s.uros with sys := c.sys }
          rw [hstep]
          rfl
    | uros a u _ hu => exact Or.inr ⟨a, hu⟩

/-- Its `control_task` is that of `ControlTask`, and no less prompt. -/
theorem reachable_control {D S : Nat}
    (h : (machine R E I T cfg).ReachableUnder (Timely D S) s) :
    (ControlTask.machine E I T cfg).ReachableUnder (ControlTask.Timely D)
      s.control := by
  refine h.refines (f := Board.control) ?_ ?_
  · rintro s ⟨u, ⟨y, hy, rfl⟩, rfl⟩
    exact ⟨y, hy, rfl⟩
  · intro s a s' htimely happ
    cases moves_of_apply happ with
    | ctrl inp bus c hc => exact Or.inr ⟨.ctrl inp bus, trivial, hc⟩
    | uros a u hctrl hu =>
        by_cases hclock : a = .clock
        · subst hclock
          cases hu
          refine Or.inr ⟨.clock, htimely.1, ?_⟩
          simp only [control, withUros, wrote_self]
          rfl
        · rcases Uros.calls_of_apply hu hclock hctrl with
            hsame | ⟨b, hb, hy⟩
          · left
            simp only [control, withUros, hsame, wrote_self]
            rfl
          · refine Or.inr ⟨b, ?_, ControlTask.apply_of_calls hb hy⟩
            cases b with
            | clock => exact absurd rfl hb.ne_clock
            | _ => trivial

end Board

end Projections

end LinoStm32
