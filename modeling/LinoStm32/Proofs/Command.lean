/-
No torn commands: what a write of the shared command during
`control_loop_init` can leave behind.

`control_set_cmd` writes the three components in one critical section
and the tick reads them in one, so after initialisation no tuple can be
torn. The end of `control_loop_init` clears the components one at a
time, outside any critical section, and `uros_task` has the higher
priority: a triple written between two of these writes keeps only the
components that are not cleared after it.

`residue` says what the clears still ahead of `control_task` would leave
of a triple. It is the whole argument: the residue of the shared command
is zero or one given triple in every state, because a clear does not
change it, and a write meets the same demand exactly when it `Spares`.
-/
import LinoStm32.Tasks

namespace LinoStm32

variable {F : Type} [CFloat F] {E : RpmSource F} {I : ImuDriver F}

-- ============================================================ statements

/-- The zero command, or a triple that one call was given. -/
def Whole (given : List (Cmd F)) (c : Cmd F) : Prop :=
  c = Cmd.zero ∨ c ∈ given

/-- What the clears still ahead of `control_task` leave of a command. -/
def CtrlPc.residue (c : Cmd F) : CtrlPc F → Cmd F
  | .boot => Cmd.zero
  | .initOdom _ => Cmd.zero
  | .initCmd _ => Cmd.zero
  | .clearWz => Cmd.zero
  | .clearY => ⟨((0 : Int) : F), ((0 : Int) : F), c.wz⟩
  | .clearX => ⟨((0 : Int) : F), c.y, c.wz⟩
  | _ => c

omit [CFloat F] in
/-- The triple `uros_task` is about to write. -/
def UrosPc.pending : UrosPc F → Option (Cmd F)
  | .idle => none
  | .setCmd _ c => some c

/-- The step is not a write of a triple that the clears still ahead
would leave in part: of what it writes they leave nothing or all. -/
def System.Spares (s : System F E I) : Act E I → Prop
  | .setCmdWrite => ∀ c ∈ s.uros.pending,
      s.ctrl.residue c = Cmd.zero ∨ s.ctrl.residue c = c
  | _ => True

instance [DecidableEq F] (s : System F E I) (a : Act E I) :
    Decidable (s.Spares a) :=
  match a with
  | .setCmdWrite => inferInstanceAs (Decidable (∀ c ∈ s.uros.pending, _))
  | .clock => inferInstanceAs (Decidable True)
  | .ctrl _ _ => inferInstanceAs (Decidable True)
  | .setCmd _ => inferInstanceAs (Decidable True)
  | .getOdom => inferInstanceAs (Decidable True)
  | .getImu => inferInstanceAs (Decidable True)

-- ============================================================= invariant

/-- The record a tick under way has taken. -/
def CtrlPc.taken : CtrlPc F → Option (TickRec F)
  | .measure _ k => some k
  | _ => none

/-- Nothing in the system is torn: not what the shared command will be
once the clears are done, not what a tick holds, not what one passed on;
and what `uros_task` holds, it was given. -/
structure System.Untorn (s : System F E I) : Prop where
  shared : Whole s.given (s.ctrl.residue s.loop.cmd)
  held : ∀ c ∈ s.uros.pending, c ∈ s.given
  taken : ∀ k ∈ s.ctrl.taken, Whole s.given k.cmd
  ticks : ∀ k ∈ s.ticks, Whole s.given k.cmd

/-- A triple given later leaves every command as whole as it was. -/
theorem Whole.append {given : List (Cmd F)} {c : Cmd F}
    (h : Whole given c) (new : List (Cmd F)) : Whole (given ++ new) c := by
  rcases h with hz | hmem
  · exact Or.inl hz
  · exact Or.inr (List.mem_append_left new hmem)

/-- The deadman tears nothing. -/
theorem Whole.deadman {given : List (Cmd F)} {c : Cmd F}
    (h : Whole given c) (now last : UInt32T) :
    Whole given (deadman now last c) := by
  unfold LinoStm32.deadman
  split
  · exact Or.inl rfl
  · exact h

namespace System

/-- A clear leaves the residue alone, and a tick only hands on what it
took. -/
theorem Untorn.ctrlStep {s : System F E I} (h : s.Untorn) (T : Trig F)
    (inp : E.Input) (bus : I.Bus) : (s.ctrlStep T inp bus).Untorn := by
  obtain ⟨time, loop, ctrl, uros, cmdAt, given, ticks, steps, datas, ods,
    ims⟩ := s
  obtain ⟨hshared, hheld, htaken, hticks⟩ := h
  have hnone : ∀ k ∈ (none : Option (TickRec F)), Whole given k.cmd :=
    fun k hk => nomatch hk
  cases ctrl with
  | snap now =>
      refine ⟨hshared, hheld, fun k hk => ?_, hticks⟩
      cases hk
      exact hshared.deadman _ _
  | measure now k =>
      refine ⟨hshared, hheld, hnone, fun k' hk' => ?_⟩
      rcases List.mem_append.mp hk' with hold | hnew
      · exact hticks k' hold
      · exact List.mem_singleton.mp hnew ▸ htaken k rfl
  | publish r =>
      cases hok : loop.imuOk with
      | true =>
          simp only [System.ctrlStep, hok]
          exact ⟨hshared, hheld, hnone, hticks⟩
      | false =>
          simp only [System.ctrlStep, hok]
          exact ⟨hshared, hheld, hnone, hticks⟩
  | _ => exact ⟨hshared, hheld, hnone, hticks⟩

/-- Every step that spares keeps the system untorn. -/
theorem Untorn.step {T : Trig F} {a : Act E I} {s s' : System F E I}
    (h : s.Untorn) (hspares : s.Spares a) (happ : apply T a s = some s') :
    s'.Untorn := by
  cases moves_of_apply happ with
  | clock => exact ⟨h.shared, h.held, h.taken, h.ticks⟩
  | ctrl inp bus => exact h.ctrlStep T inp bus
  | setCmd c hidle =>
      refine ⟨h.shared.append _, fun c' hc' => ?_,
        fun k hk => (h.taken k hk).append _,
        fun k hk => (h.ticks k hk).append _⟩
      cases hc'
      exact List.mem_append_right _ (List.mem_singleton_self c)
  | setCmdWrite now c hset =>
      have hpending : c ∈ s.uros.pending := by
        rw [hset]
        exact rfl
      refine ⟨?_, fun c' hc' => (nomatch hc'), h.taken, h.ticks⟩
      show Whole s.given (s.ctrl.residue c)
      rcases hspares c hpending with hz | hall
      · exact Or.inl hz
      · rw [hall]
        exact Or.inr (h.held c hpending)
  | getOdom hidle => exact ⟨h.shared, h.held, h.taken, h.ticks⟩
  | getImu hidle => exact ⟨h.shared, h.held, h.taken, h.ticks⟩

end System

-- ================================================================= runs

/-- In every run in which no write lands between the clears of
`control_loop_init` and leaves a part of its triple, every tick passes
on zero or one given triple. -/
theorem commands_whole {T : Trig F} {cfg : BoardConfig F}
    {s : System F E I}
    (h : (tasks E I T cfg).ReachableUnder System.Spares s) :
    ∀ k ∈ s.ticks, Whole s.given k.cmd := by
  have huntorn : s.Untorn := by
    refine h.invariant ?_ fun s a s' hs hc happ => hs.step hc happ
    intro s hs
    obtain ⟨enc, imu, imuOk, t, rfl⟩ := hs
    exact ⟨Or.inl rfl, fun c hc => (nomatch hc), fun k hk => (nomatch hk),
      fun k hk => absurd hk List.not_mem_nil⟩
  exact huntorn.ticks

/-- A command delivered after `control_loop_init`, then a tick. -/
def afterInit : List (Act (encoders ℚ) (ImuDriver.absent ℚ)) :=
  List.replicate 6 ctrlAct ++ [.setCmd ⟨1 / 5, 0, 1⟩, .setCmdWrite]
    ++ List.replicate 3 ctrlAct

/-- The same command delivered between `cmd_wz = 0` and `cmd_y = 0`. -/
def duringInit : List (Act (encoders ℚ) (ImuDriver.absent ℚ)) :=
  List.replicate 4 ctrlAct ++ [.setCmd ⟨1 / 5, 0, 1⟩, .setCmdWrite]
    ++ List.replicate 5 ctrlAct

/-- After initialisation the tick passes the triple it was given. -/
theorem commands_whole_afterInit :
    ∃ s, f446reTasks.runUnder System.Spares afterInit f446reStart = some s
      ∧ s.ticks.map TickRec.cmd = [⟨1 / 5, 0, 1⟩]
      ∧ ∀ k ∈ s.ticks, Whole s.given k.cmd := by
  have hrun : (f446reTasks.runUnder System.Spares afterInit
      f446reStart).map (fun s => s.ticks.map TickRec.cmd)
        = some [⟨1 / 5, 0, 1⟩] := by
    decide +kernel
  obtain ⟨s, hs, hticks⟩ := Option.map_eq_some_iff.mp hrun
  have hreach : f446reTasks.ReachableUnder System.Spares s :=
    (Lib.Machine.ReachableUnder.start f446reTasks_start).runUnder hs
  exact ⟨s, hs, hticks, commands_whole hreach⟩

/-- Between the clears the triple is torn: the first tick turns the base
in place, which no call asked for. -/
theorem command_torn :
    ¬ ∀ s, f446reTasks.Reachable s → ∀ k ∈ s.ticks, Whole s.given k.cmd := by
  intro hall
  have hrun : (f446reTasks.run duringInit f446reStart).map
      (fun s => (s.ticks, s.given))
        = some ([⟨0, 0, 0, ⟨0, 0, 1⟩, ⟨0, 0, 1⟩⟩], [⟨1 / 5, 0, 1⟩]) := by
    decide +kernel
  obtain ⟨s, hs, hlogs⟩ := Option.map_eq_some_iff.mp hrun
  obtain ⟨hticks, hgiven⟩ := Prod.mk.injEq .. ▸ hlogs
  have hwhole := hall s (Lib.Machine.reachable_of_run f446reTasks_start hs)
    ⟨0, 0, 0, ⟨0, 0, 1⟩, ⟨0, 0, 1⟩⟩
    (by rw [hticks]; exact List.mem_singleton_self _)
  rw [hgiven] at hwhole
  rcases hwhole with hz | hmem
  · revert hz
    decide +kernel
  · revert hmem
    decide +kernel

end LinoStm32
