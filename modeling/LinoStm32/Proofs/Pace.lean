/-
The pace of `control_task`, and how soon a command governs the motors.

`vTaskDelayUntil` counts from `last`, not from when it was called, so what
a tick took is not added to the next one's release: the `n`-th tick is
released `20 * n` ms after the loop began, and in a `Timely D` run reads
its clock within `D` ms of then, however many ticks came before it
(`ticks_paced`). The pace itself is an invariant of every run (`Placed`);
that a tick is prompt is one of timely runs (`Prompt`).

`20 + D` ms after the shared command was last written the latest tick has
worked from it (`latest_cmd`). So it is obeyed from then until it is 200 ms
old (`command_governs`), and 220 ms and `D` after `uros_task` fell silent
the base is stopped (`stopped_in_time`). There is a latest tick as soon as
the loop has run for longer than `D` (`latest_exists`).
-/
import LinoStm32.ControlTask
import LinoStm32.Proofs.Command
import LinoStm32.Proofs.Deadman

namespace LinoStm32

variable {F : Type} {E : RpmSource F} {I : ImuDriver F}

-- ============================================================ where a tick is

/-- What a control loop function has still to do. -/
inductive Stage
  /-- the initialisation -/
  | setup
  /-- the part of a tick up to its call of `step` -/
  | early
  /-- the rest of a tick -/
  | late

def CtrlPc.stage : CtrlPc F → Stage
  | .boot | .initOdom _ | .initCmd _ | .clearWz | .clearY | .clearX => .setup
  | .ready | .snap _ | .measure _ _ => .early
  | .addX _ | .addY _ | .addHeading _ | .publish _ | .imuRead
  | .imuPublish _ => .late

/-- The clock reading a tick is at work with. -/
def CtrlPc.reading : CtrlPc F → Option Nat
  | .snap now => some now
  | .measure _ k => some k.readAt
  | _ => none

/-- It is at work with none, and has taken no command. -/
def CtrlPc.Bare (pc : CtrlPc F) : Prop :=
  pc.reading = none ∧ pc.taken = none

theorem CtrlPc.reading_of_taken {pc : CtrlPc F} {k : TickRec F}
    (h : k ∈ pc.taken) : k.readAt ∈ pc.reading := by
  cases pc with
  | measure now k' =>
      cases h
      rfl
  | _ => cases h

/-- What a step of the control loop is to its pace. -/
inductive Stride (s y : System F E I) : Prop
  | setup : s.ctrl.stage = .setup → y.ticks = s.ticks → y.ctrl.Bare →
      y.ctrl.stage = .setup ∨ y.ctrl = .ready → Stride s y
  | read : s.ctrl = .ready → y.ctrl = .snap s.time →
      y.ticks = s.ticks → Stride s y
  | snap (now : Nat) (k : TickRec F) : s.ctrl = .snap now →
      y.ctrl = .measure now k → k.readAt = now →
      k.cmdAt = s.cmdAt ∧ k.snapshot = s.loop.cmd →
      y.ticks = s.ticks → Stride s y
  | count (now : Nat) (k : TickRec F) : s.ctrl = .measure now k →
      y.ctrl.stage = .late → y.ctrl.Bare → y.ticks = s.ticks ++ [k] →
      Stride s y
  | rest : s.ctrl.stage = .late → y.ticks = s.ticks → y.ctrl.Bare →
      y.ctrl.stage = .late ∨ y.ctrl = .ready → Stride s y

variable [CFloat F]

theorem System.stride (T : Trig F) (inp : E.Input) (bus : I.Bus)
    (s : System F E I) : Stride s (s.ctrlStep T inp bus) := by
  obtain ⟨time, loop, ctrl, uros, cmdAt, given, ticks, steps, datas, ods,
    ims⟩ := s
  cases ctrl with
  | boot => exact .setup rfl rfl ⟨rfl, rfl⟩ (Or.inl rfl)
  | initOdom now => exact .setup rfl rfl ⟨rfl, rfl⟩ (Or.inl rfl)
  | initCmd now => exact .setup rfl rfl ⟨rfl, rfl⟩ (Or.inl rfl)
  | clearWz => exact .setup rfl rfl ⟨rfl, rfl⟩ (Or.inl rfl)
  | clearY => exact .setup rfl rfl ⟨rfl, rfl⟩ (Or.inl rfl)
  | clearX => exact .setup rfl rfl ⟨rfl, rfl⟩ (Or.inr rfl)
  | ready => exact .read rfl rfl rfl
  | snap now => exact .snap now _ rfl rfl rfl ⟨rfl, rfl⟩ rfl
  | measure now k => exact .count now k rfl rfl ⟨rfl, rfl⟩ rfl
  | addX r => exact .rest rfl rfl ⟨rfl, rfl⟩ (Or.inl rfl)
  | addY r => exact .rest rfl rfl ⟨rfl, rfl⟩ (Or.inl rfl)
  | addHeading r => exact .rest rfl rfl ⟨rfl, rfl⟩ (Or.inl rfl)
  | publish r =>
      cases hok : loop.imuOk with
      | true =>
          simp only [System.ctrlStep, hok]
          exact .rest rfl rfl ⟨rfl, rfl⟩ (Or.inl rfl)
      | false =>
          simp only [System.ctrlStep, hok]
          exact .rest rfl rfl ⟨rfl, rfl⟩ (Or.inr rfl)
  | imuRead => exact .rest rfl rfl ⟨rfl, rfl⟩ (Or.inl rfl)
  | imuPublish im => exact .rest rfl rfl ⟨rfl, rfl⟩ (Or.inr rfl)

section Strides

omit [CFloat F]

variable {s y : System F E I}

theorem CtrlPc.returned_of_late {pc : CtrlPc F} (h : pc.stage = .late) :
    pc.returned = false := by
  cases pc with
  | ready => cases h
  | _ => rfl

theorem CtrlPc.returned_of_setup {pc : CtrlPc F} (h : pc.stage = .setup) :
    pc.returned = false := by
  cases pc with
  | ready => cases h
  | _ => rfl

theorem Stride.of_setup (h : Stride s y) (hs : s.ctrl.stage = .setup) :
    y.ticks = s.ticks ∧ y.ctrl.Bare
      ∧ (y.ctrl.stage = .setup ∨ y.ctrl = .ready) := by
  cases h with
  | setup _ hticks hbare hctrl => exact ⟨hticks, hbare, hctrl⟩
  | read hctrl | snap _ _ hctrl | count _ _ hctrl =>
      rw [hctrl] at hs
      cases hs
  | rest hstage =>
      rw [hstage] at hs
      cases hs

theorem Stride.of_early (h : Stride s y) (hs : s.ctrl.stage = .early) :
    y.ctrl.returned = false
      ∧ (y.ctrl.stage = .early ∧ y.ticks = s.ticks
        ∨ y.ctrl.stage = .late
          ∧ y.ticks.length = s.ticks.length + 1) := by
  cases h with
  | read _ hsnap hticks =>
      rw [hsnap]
      exact ⟨rfl, Or.inl ⟨rfl, hticks⟩⟩
  | snap now k _ hmeas _ _ hticks =>
      rw [hmeas]
      exact ⟨rfl, Or.inl ⟨rfl, hticks⟩⟩
  | count now k _ hlate _ hticks =>
      rw [hticks, List.length_append]
      exact ⟨CtrlPc.returned_of_late hlate, Or.inr ⟨hlate, rfl⟩⟩
  | setup hstage | rest hstage =>
      rw [hstage] at hs
      cases hs

theorem Stride.of_late (h : Stride s y) (hs : s.ctrl.stage = .late) :
    y.ticks = s.ticks ∧ (y.ctrl.stage = .late ∨ y.ctrl = .ready) := by
  cases h with
  | rest _ hticks _ hctrl => exact ⟨hticks, hctrl⟩
  | read hctrl | snap _ _ hctrl | count _ _ hctrl =>
      rw [hctrl] at hs
      cases hs
  | setup hstage =>
      rw [hstage] at hs
      cases hs

/-- A reading in use was read by this step, or in use before it. -/
theorem Stride.reading (h : Stride s y) {t : Nat}
    (ht : t ∈ y.ctrl.reading) : t = s.time ∨ t ∈ s.ctrl.reading := by
  cases h with
  | read _ hsnap =>
      rw [hsnap] at ht
      cases ht
      exact Or.inl rfl
  | snap now k hctrl hmeas hread =>
      rw [hmeas] at ht
      cases ht
      rw [hctrl, hread]
      exact Or.inr rfl
  | setup _ _ hbare | count _ _ _ _ hbare | rest _ _ hbare =>
      rw [hbare.1] at ht
      cases ht

/-- A tick that a step starts on takes the shared command as it is. -/
theorem Stride.taken (h : Stride s y) {k : TickRec F}
    (hk : k ∈ y.ctrl.taken) :
    k.cmdAt = s.cmdAt ∧ k.snapshot = s.loop.cmd := by
  cases h with
  | read _ hsnap =>
      rw [hsnap] at hk
      cases hk
  | snap now k' _ hmeas _ htakes =>
      rw [hmeas] at hk
      cases hk
      exact htakes
  | setup _ _ hbare | count _ _ _ _ hbare | rest _ _ hbare =>
      rw [hbare.2] at hk
      cases hk

/-- A tick that a step counts was at work before it. -/
theorem Stride.counted (h : Stride s y) {i : Nat} {k : TickRec F}
    (hk : y.ticks[i]? = some k) :
    s.ticks[i]? = some k
      ∨ i = s.ticks.length ∧ ∃ now, s.ctrl = .measure now k := by
  cases h with
  | setup _ hticks | read _ _ hticks | snap _ _ _ _ _ _ hticks
  | rest _ hticks =>
      rw [hticks] at hk
      exact Or.inl hk
  | count now k' hctrl _ _ hticks =>
      rw [hticks, List.getElem?_append] at hk
      split_ifs at hk with hlt
      · exact Or.inl hk
      · rw [List.getElem?_singleton] at hk
        split_ifs at hk with hi
        cases hk
        exact Or.inr ⟨by omega, now, hctrl⟩

end Strides

/-- After its initialisation the task leaves the shared command alone. -/
theorem System.ctrlStep_shared (T : Trig F) (inp : E.Input) (bus : I.Bus)
    {s : System F E I} (h : s.ctrl.stage ≠ .setup) :
    (s.ctrlStep T inp bus).cmdAt = s.cmdAt
      ∧ (s.ctrlStep T inp bus).loop.cmd = s.loop.cmd := by
  obtain ⟨time, loop, ctrl, uros, cmdAt, given, ticks, steps, datas, ods,
    ims⟩ := s
  cases ctrl with
  | boot | initOdom _ | initCmd _ | clearWz | clearY | clearX =>
      exact absurd rfl h
  | _ => exact ⟨rfl, rfl⟩

namespace ControlTask

-- ============================================================= the release

/-- When the first tick that has not called `step` is released. -/
def release (s : ControlTask F E I) : Nat :=
  s.began + controlPeriod * s.sys.ticks.length

/-- Where the task is, where in the control loop, and when its next tick
is due. -/
def Place (s : ControlTask F E I) : Prop :=
  match s.pc with
  | .init => s.sys.ctrl.stage = .setup ∧ s.sys.ticks = []
  | .start => s.sys.ctrl = .ready ∧ s.sys.ticks = []
  | .tick => s.sys.ctrl.stage = .early ∧ s.last = s.release
      ∨ s.sys.ctrl.stage = .late ∧ s.last + controlPeriod = s.release
  | .delay => s.sys.ctrl = .ready ∧ s.last = s.release

/-- No tick is ahead of its release. -/
structure Placed (s : ControlTask F E I) : Prop where
  place : s.Place
  due : s.pc = .tick → s.last ≤ s.sys.time
  reading : ∀ t ∈ s.sys.ctrl.reading, s.last ≤ t
  ticks : ∀ i k, s.sys.ticks[i]? = some k →
    s.began + controlPeriod * i ≤ k.readAt

variable {T : Trig F} {s s' : ControlTask F E I}

omit [CFloat F] in
theorem place_setup (h : s.Place) (hpc : s.pc = .init) :
    s.sys.ctrl.stage = .setup ∧ s.sys.ticks = [] := by
  rwa [Place, hpc] at h

omit [CFloat F] in
theorem place_tick (h : s.Place) (hpc : s.pc = .tick) :
    s.sys.ctrl.stage = .early ∧ s.last = s.release
      ∨ s.sys.ctrl.stage = .late
        ∧ s.last + controlPeriod = s.release := by
  rwa [Place, hpc] at h

omit [CFloat F] in
/-- A tick at work with a reading is the first not counted. -/
theorem place_measure (h : s.Place) (hpc : s.pc = .tick) {now : Nat}
    {k : TickRec F} (hctrl : s.sys.ctrl = .measure now k) :
    s.last = s.release := by
  rcases place_tick h hpc with ⟨-, hlast⟩ | ⟨hs, -⟩
  · exact hlast
  · rw [hctrl] at hs
    cases hs

omit [CFloat F] in
/-- Steps of the other task and of the clock leave the pace alone. -/
theorem Placed.frame (h : s.Placed) {y : System F E I} {t : Nat}
    (hctrl : y.ctrl = s.sys.ctrl) (hticks : y.ticks = s.sys.ticks)
    (htime : s.sys.time ≤ y.time) :
    Placed { s with sys := y, acceptedAt := t } := by
  obtain ⟨hplace, hdue, hreading, hpast⟩ := h
  refine ⟨?_, fun hpc => (hdue hpc).trans htime, ?_, ?_⟩
  · simpa only [Place, release, hctrl, hticks] using hplace
  · simpa only [hctrl] using hreading
  · simpa only [hticks] using hpast

/-- Nor does it fall behind by a step of its own. -/
theorem Placed.reading_step (h : s.Placed) (hpc : s.pc = .tick)
    (inp : E.Input) (bus : I.Bus) :
    ∀ t ∈ (s.sys.ctrlStep T inp bus).ctrl.reading, s.last ≤ t := by
  intro t ht
  rcases (s.sys.stride T inp bus).reading ht with rfl | hold
  · exact h.due hpc
  · exact h.reading t hold

theorem Placed.ticks_step (h : s.Placed) (hpc : s.pc = .tick)
    (inp : E.Input) (bus : I.Bus) :
    ∀ i k, (s.sys.ctrlStep T inp bus).ticks[i]? = some k →
      s.began + controlPeriod * i ≤ k.readAt := by
  intro i k hk
  rcases (s.sys.stride T inp bus).counted hk with
    hold | ⟨rfl, now, hmeas⟩
  · exact h.ticks i k hold
  · have hlast := place_measure h.place hpc hmeas
    rw [release] at hlast
    rw [← hlast]
    exact h.reading k.readAt (by rw [hmeas]; rfl)

/-- A step of `control_loop_init`. -/
theorem Placed.init (h : s.Placed) (hpc : s.pc = .init) (inp : E.Input)
    (bus : I.Bus) :
    Placed { s with
      sys := s.sys.ctrlStep T inp bus
      pc := if (s.sys.ctrlStep T inp bus).ctrl.returned then .start
        else .init
      acceptedAt := s.sys.time } := by
  obtain ⟨hstage, hnil⟩ := place_setup h.place hpc
  obtain ⟨hticks, hbare, hctrl⟩ :=
    (s.sys.stride T inp bus).of_setup hstage
  rw [hnil] at hticks
  refine ⟨?_, ?_, ?_, ?_⟩
  · rcases hctrl with hset | hready
    · simp only [Place, CtrlPc.returned_of_setup hset, Bool.false_eq_true,
        if_false]
      exact ⟨hset, hticks⟩
    · simp only [Place, hready, CtrlPc.returned, if_true]
      exact ⟨trivial, hticks⟩
  · intro hpc'
    dsimp only at hpc'
    split at hpc' <;> cases hpc'
  · rw [hbare.1]
    intro t ht
    cases ht
  · rw [hticks]
    intro i k hk
    cases hk

/-- A step of a tick that is not its last. -/
theorem Placed.tick (h : s.Placed) (hpc : s.pc = .tick) (inp : E.Input)
    (bus : I.Bus)
    (hret : (s.sys.ctrlStep T inp bus).ctrl.returned = false) :
    Placed { s with sys := s.sys.ctrlStep T inp bus } := by
  refine ⟨?_, ?_, h.reading_step hpc inp bus, h.ticks_step hpc inp bus⟩
  · simp only [Place, hpc, release]
    rcases place_tick h.place hpc with ⟨hs, hlast⟩ | ⟨hs, hlast⟩
    · rcases ((s.sys.stride T inp bus).of_early hs).2 with
        ⟨hearly, hticks⟩ | ⟨hlate, hlength⟩
      · rw [hticks]
        exact Or.inl ⟨hearly, hlast⟩
      · rw [hlength, hlast]
        exact Or.inr ⟨hlate, rfl⟩
    · obtain ⟨hticks, hctrl⟩ := (s.sys.stride T inp bus).of_late hs
      rw [hticks]
      refine Or.inr ⟨hctrl.resolve_right fun hr => ?_, hlast⟩
      rw [hr] at hret
      cases hret
  · intro _
    rw [System.ctrlStep_time]
    exact h.due hpc

/-- The last step of a tick, and the call of `vTaskDelayUntil`. -/
theorem Placed.done (h : s.Placed) (hpc : s.pc = .tick) (inp : E.Input)
    (bus : I.Bus)
    (hret : (s.sys.ctrlStep T inp bus).ctrl.returned = true) :
    Placed { s with
      sys := s.sys.ctrlStep T inp bus
      pc := .delay
      last := s.last + controlPeriod } := by
  rcases place_tick h.place hpc with ⟨hs, -⟩ | ⟨hs, hlast⟩
  · rw [((s.sys.stride T inp bus).of_early hs).1] at hret
    cases hret
  obtain ⟨hticks, hctrl⟩ := (s.sys.stride T inp bus).of_late hs
  have hready : (s.sys.ctrlStep T inp bus).ctrl = .ready := by
    refine hctrl.resolve_left fun hlate => ?_
    rw [CtrlPc.returned_of_late hlate] at hret
    cases hret
  refine ⟨?_, nofun, ?_, h.ticks_step hpc inp bus⟩
  · simp only [Place, release, hticks]
    exact ⟨hready, hlast⟩
  · rw [hready]
    intro t ht
    cases ht

theorem Placed.step {a : Act E I} (h : s.Placed)
    (happ : apply T a s = some s') : s'.Placed := by
  have hready : s.sys.ctrl = .ready → s.sys.ctrl.reading = none := by
    intro hr
    rw [hr]
    rfl
  cases moves_of_apply happ with
  | init inp bus hpc => exact h.init hpc inp bus
  | start inp bus hpc =>
      have hplace := h.place
      rw [Place, hpc] at hplace
      obtain ⟨hctrl, hnil⟩ := hplace
      refine ⟨?_, fun _ => le_rfl, ?_, ?_⟩
      · simp only [Place, release, hctrl, hnil]
        exact Or.inl ⟨rfl, rfl⟩
      · rw [hready hctrl]
        exact fun t ht => nomatch ht
      · rw [hnil]
        exact fun i k hk => nomatch hk
  | tick inp bus hpc hret => exact h.tick hpc inp bus hret
  | done inp bus hpc hret => exact h.done hpc inp bus hret
  | wake inp bus hpc hdue =>
      have hplace := h.place
      rw [Place, hpc] at hplace
      obtain ⟨hctrl, hlast⟩ := hplace
      refine ⟨?_, fun _ => hdue, h.reading, h.ticks⟩
      simp only [Place, hctrl]
      exact Or.inl ⟨rfl, hlast⟩
  | clock => exact h.frame rfl rfl (Nat.le_succ _)
  | accept y hy =>
      cases System.moves_of_apply hy with
      | setCmdWrite now c hset => exact h.frame rfl rfl le_rfl
  | setCmd c y hy =>
      cases System.moves_of_apply hy with
      | setCmd _ hidle => exact h.frame rfl rfl le_rfl
  | getOdom y hy =>
      cases System.moves_of_apply hy with
      | getOdom hidle => exact h.frame rfl rfl le_rfl
  | getImu y hy =>
      cases System.moves_of_apply hy with
      | getImu hidle => exact h.frame rfl rfl le_rfl

theorem placed_of_reachable {cfg : BoardConfig F}
    (h : (machine E I T cfg).Reachable s) : s.Placed := by
  refine h.invariant ?_ fun s a s' hs happ => hs.step happ
  rintro s ⟨y, ⟨enc, imu, imuOk, t, rfl⟩, rfl⟩
  refine ⟨⟨rfl, rfl⟩, nofun, ?_, ?_⟩
  · intro t ht
    cases ht
  · intro i k hk
    cases hk

-- ========================================================== timely runs

/-- Every tick is within `D` ms of its release. -/
structure Prompt (D : Nat) (s : ControlTask F E I) : Prop where
  time : s.pc = .tick ∨ s.pc = .delay → s.sys.time ≤ s.last + D
  reading : ∀ t ∈ s.sys.ctrl.reading, t ≤ s.last + D
  ticks : ∀ i k, s.sys.ticks[i]? = some k →
    k.readAt ≤ s.began + controlPeriod * i + D

omit [CFloat F] in
theorem Prompt.frame {D : Nat} (h : s.Prompt D) {y : System F E I} {t : Nat}
    (hctrl : y.ctrl = s.sys.ctrl) (hticks : y.ticks = s.sys.ticks)
    (htime : y.time = s.sys.time) :
    Prompt D { s with sys := y, acceptedAt := t } := by
  obtain ⟨hlate, hreading, hpast⟩ := h
  refine ⟨?_, ?_, ?_⟩
  · simpa only [htime] using hlate
  · simpa only [hctrl] using hreading
  · simpa only [hticks] using hpast

/-- Whatever a step of a tick reads, it reads now. -/
theorem Prompt.ctrlStep {D : Nat} (h : s.Prompt D) (hp : s.Placed)
    (hpc : s.pc = .tick) (inp : E.Input) (bus : I.Bus) :
    Prompt D { s with sys := s.sys.ctrlStep T inp bus } := by
  have htime : s.sys.time ≤ s.last + D := h.time (Or.inl hpc)
  refine ⟨fun _ => ?_, fun t ht => ?_, fun i k hk => ?_⟩
  · rw [System.ctrlStep_time]
    exact htime
  · rcases (s.sys.stride T inp bus).reading ht with rfl | hold
    · exact htime
    · exact h.reading t hold
  · rcases (s.sys.stride T inp bus).counted hk with
      hold | ⟨rfl, now, hmeas⟩
    · exact h.ticks i k hold
    · have hlast := place_measure hp.place hpc hmeas
      rw [release] at hlast
      rw [← hlast]
      exact h.reading k.readAt (by rw [hmeas]; rfl)

theorem Prompt.step {D : Nat} {a : Act E I} (h : s.Prompt D)
    (hp : s.Placed) (htimely : Timely D s a)
    (happ : apply T a s = some s') : s'.Prompt D := by
  cases moves_of_apply happ with
  | init inp bus hpc =>
      obtain ⟨hstage, hnil⟩ := place_setup hp.place hpc
      obtain ⟨hticks, hbare, -⟩ :=
        (s.sys.stride T inp bus).of_setup hstage
      refine ⟨?_, ?_, ?_⟩
      · dsimp only
        split <;> simp
      · rw [hbare.1]
        intro t ht
        cases ht
      · rw [hticks, hnil]
        intro i k hk
        cases hk
  | start inp bus hpc =>
      have hplace := hp.place
      rw [Place, hpc] at hplace
      obtain ⟨hctrl, hnil⟩ := hplace
      refine ⟨fun _ => Nat.le_add_right _ _, ?_, ?_⟩
      · rw [hctrl]
        intro t ht
        cases ht
      · rw [hnil]
        intro i k hk
        cases hk
  | tick inp bus hpc hret => exact h.ctrlStep hp hpc inp bus
  | done inp bus hpc hret =>
      obtain ⟨htime, hreading, hticks⟩ := h.ctrlStep (T := T) hp hpc inp bus
      refine ⟨fun _ => ?_, fun t ht => ?_, hticks⟩
      · have := htime (Or.inl hpc)
        dsimp only at this ⊢
        omega
      · have := hreading t ht
        dsimp only at this ⊢
        omega
  | wake inp bus hpc hdue =>
      exact ⟨fun _ => h.time (Or.inr hpc), h.reading, h.ticks⟩
  | clock =>
      exact ⟨fun hpc => htimely hpc, h.reading, h.ticks⟩
  | accept y hy =>
      cases System.moves_of_apply hy with
      | setCmdWrite now c hset => exact h.frame rfl rfl rfl
  | setCmd c y hy =>
      cases System.moves_of_apply hy with
      | setCmd _ hidle => exact h.frame rfl rfl rfl
  | getOdom y hy =>
      cases System.moves_of_apply hy with
      | getOdom hidle => exact h.frame rfl rfl rfl
  | getImu y hy =>
      cases System.moves_of_apply hy with
      | getImu hidle => exact h.frame rfl rfl rfl

theorem prompt_of_reachable {D : Nat} {cfg : BoardConfig F}
    (h : (machine E I T cfg).ReachableUnder (Timely D) s) :
    s.Prompt D := by
  refine h.invariant_given (fun s hs => placed_of_reachable hs) ?_
    fun s a s' hp hs htimely happ => hs.step hp htimely happ
  rintro s ⟨y, ⟨enc, imu, imuOk, t, rfl⟩, rfl⟩
  refine ⟨?_, ?_, ?_⟩
  · rintro (hpc | hpc) <;> cases hpc
  · intro t ht
    cases ht
  · intro i k hk
    cases hk

/-- In a run in which every tick is done within `D` ms of its release, the
`n`-th tick reads its clock within `D` ms of `20 * n` ms after the loop
began: lateness does not add up. -/
theorem ticks_paced {D : Nat} {cfg : BoardConfig F}
    (h : (machine E I T cfg).ReachableUnder (Timely D) s) {n : Nat}
    {k : TickRec F} (hk : s.sys.ticks[n]? = some k) :
    s.began + 20 * n ≤ k.readAt ∧ k.readAt ≤ s.began + 20 * n + D :=
  ⟨(placed_of_reachable h.reachable).ticks n k hk,
    (prompt_of_reachable h).ticks n k hk⟩

/-- The tasks of the configured board, and `control_task` in its loop. -/
def f446reControl :
    Lib.Machine (ControlTask ℚ (encoders ℚ) (ImuDriver.absent ℚ))
      (Act (encoders ℚ) (ImuDriver.absent ℚ)) :=
  machine _ _ Trig.level f446re

/-- As the scheduler starts. -/
def f446reBoot : ControlTask ℚ (encoders ℚ) (ImuDriver.absent ℚ) :=
  ⟨f446reStart, .init, 0, 0, 0⟩

theorem f446reControl_start : f446reControl.start f446reBoot :=
  ⟨_, f446reTasks_start, rfl⟩

/-- A tick, its call of `vTaskDelayUntil` included. -/
def tickActs : List (Act (encoders ℚ) (ImuDriver.absent ℚ)) :=
  List.replicate 7 ctrlAct

/-- The initialisation, a tick on time, one 3 ms late and one on time. -/
def oneLate : List (Act (encoders ℚ) (ImuDriver.absent ℚ)) :=
  List.flatten [List.replicate 7 ctrlAct, tickActs,
    List.replicate 23 .clock, [ctrlAct], tickActs,
    List.replicate 17 .clock, [ctrlAct], tickActs]

theorem ticks_paced_oneLate :
    ∃ s, f446reControl.runUnder (Timely 5) oneLate f446reBoot = some s
      ∧ s.sys.ticks.map TickRec.readAt = [0, 23, 40]
      ∧ ∀ (n : Nat) (k : TickRec ℚ), s.sys.ticks[n]? = some k →
          s.began + 20 * n ≤ k.readAt ∧ k.readAt ≤ s.began + 20 * n + 5 := by
  have hrun : (f446reControl.runUnder (Timely 5) oneLate f446reBoot).map
        (fun s => s.sys.ticks.map TickRec.readAt) = some [0, 23, 40] := by
    decide +kernel
  obtain ⟨s, hs, hticks⟩ := Option.map_eq_some_iff.mp hrun
  have hreach := (Lib.Machine.ReachableUnder.start
    f446reControl_start).runUnder hs
  exact ⟨s, hs, hticks, fun n k hk => ticks_paced hreach hk⟩

-- ====================================================== the last command

/-- The tick took the command as it is now, stamp and all. -/
def Takes (s : ControlTask F E I) (k : TickRec F) : Prop :=
  k.cmdAt = s.sys.cmdAt ∧ k.snapshot = s.sys.loop.cmd

/-- Ticks that read their clock after the last write of the shared command
took what it wrote. -/
structure Governed (s : ControlTask F E I) : Prop where
  cmdAt_le : s.sys.cmdAt ≤ s.acceptedAt
  accepted_le : s.acceptedAt ≤ s.sys.time
  reading : ∀ t ∈ s.sys.ctrl.reading, t ≤ s.sys.time
  past : ∀ k ∈ s.sys.ticks, k.readAt ≤ s.sys.time
  taken : ∀ k ∈ s.sys.ctrl.taken, s.acceptedAt < k.readAt → s.Takes k
  ticks : ∀ k ∈ s.sys.ticks, s.acceptedAt < k.readAt → s.Takes k

theorem Governed.ctrlStep (h : s.Governed) (hp : s.Placed)
    (hpc : s.pc = .tick) (inp : E.Input) (bus : I.Bus) :
    Governed { s with sys := s.sys.ctrlStep T inp bus } := by
  have hstage : s.sys.ctrl.stage ≠ .setup := by
    rcases place_tick hp.place hpc with ⟨hs, -⟩ | ⟨hs, -⟩ <;>
      · rw [hs]
        exact nofun
  obtain ⟨hcmdAt, hcmd⟩ := System.ctrlStep_shared T inp bus hstage
  have hstride := s.sys.stride T inp bus
  have hnew : ∀ k ∈ (s.sys.ctrlStep T inp bus).ticks,
      k ∈ s.sys.ticks ∨ ∃ now, s.sys.ctrl = .measure now k := by
    intro k hk
    obtain ⟨i, hi⟩ := List.mem_iff_getElem?.mp hk
    rcases hstride.counted hi with hold | ⟨-, hmeas⟩
    · exact Or.inl (List.mem_of_getElem? hold)
    · exact Or.inr hmeas
  refine ⟨?_, ?_, fun t ht => ?_, fun k hk => ?_, fun k hk _ => ?_,
    fun k hk hlt => ?_⟩
  · rw [hcmdAt]
    exact h.cmdAt_le
  · rw [System.ctrlStep_time]
    exact h.accepted_le
  · rw [System.ctrlStep_time]
    rcases hstride.reading ht with rfl | hold
    · exact le_rfl
    · exact h.reading t hold
  · rw [System.ctrlStep_time]
    rcases hnew k hk with hold | ⟨now, hmeas⟩
    · exact h.past k hold
    · exact h.reading k.readAt (by rw [hmeas]; rfl)
  · rw [Takes, hcmdAt, hcmd]
    exact hstride.taken hk
  · rw [Takes, hcmdAt, hcmd]
    rcases hnew k hk with hold | ⟨now, hmeas⟩
    · exact h.ticks k hold hlt
    · exact h.taken k (by rw [hmeas]; rfl) hlt

theorem Governed.step {a : Act E I} (h : s.Governed) (hp : s.Placed)
    (hs : s.sys.Stamped) (happ : apply T a s = some s') : s'.Governed := by
  have ⟨hcmdAt, haccepted, hreading, hpast, htaken, hticks⟩ := h
  cases moves_of_apply happ with
  | init inp bus hpc =>
      obtain ⟨hstage, hnil⟩ := place_setup hp.place hpc
      obtain ⟨hsame, hbare, -⟩ :=
        (s.sys.stride T inp bus).of_setup hstage
      rw [hnil] at hsame
      refine ⟨?_, ?_, ?_, ?_, ?_, ?_⟩
      · have hle := (hs.ctrlStep T inp bus).cmdAt_le
        rwa [System.ctrlStep_time] at hle
      · exact (System.ctrlStep_time T inp bus s.sys).ge
      · rw [hbare.1]
        intro t ht
        cases ht
      · rw [hsame]
        intro k hk
        cases hk
      · rw [hbare.2]
        intro k hk
        cases hk
      · rw [hsame]
        intro k hk
        cases hk
  | start | wake =>
      exact ⟨hcmdAt, haccepted, hreading, hpast, htaken, hticks⟩
  | tick inp bus hpc hret => exact h.ctrlStep hp hpc inp bus
  | done inp bus hpc hret =>
      have := h.ctrlStep (T := T) hp hpc inp bus
      exact ⟨this.cmdAt_le, this.accepted_le, this.reading, this.past,
        this.taken, this.ticks⟩
  | clock =>
      exact ⟨hcmdAt, Nat.le_succ_of_le haccepted,
        fun t ht => Nat.le_succ_of_le (hreading t ht),
        fun k hk => Nat.le_succ_of_le (hpast k hk), htaken, hticks⟩
  | accept y hy =>
      cases System.moves_of_apply hy with
      | setCmdWrite now c hset =>
          have hnow : now ≤ s.sys.time := by
            have hu := hs.uros
            rw [hset] at hu
            exact hu
          -- no tick has read the clock after now
          refine ⟨hnow, le_rfl, hreading, hpast, fun k hk hlt => ?_,
            fun k hk hlt => absurd (hpast k hk) (not_le.mpr hlt)⟩
          exact absurd (hreading k.readAt (CtrlPc.reading_of_taken hk))
            (not_le.mpr hlt)
  | setCmd c y hy =>
      cases System.moves_of_apply hy with
      | setCmd _ hidle =>
          exact ⟨hcmdAt, haccepted, hreading, hpast, htaken, hticks⟩
  | getOdom y hy =>
      cases System.moves_of_apply hy with
      | getOdom hidle =>
          exact ⟨hcmdAt, haccepted, hreading, hpast, htaken, hticks⟩
  | getImu y hy =>
      cases System.moves_of_apply hy with
      | getImu hidle =>
          exact ⟨hcmdAt, haccepted, hreading, hpast, htaken, hticks⟩

theorem governed_of_reachable {cfg : BoardConfig F}
    (h : (machine E I T cfg).Reachable s) : s.Governed := by
  refine h.invariant_given (J := fun s => s.Placed ∧ s.sys.Stamped)
    (fun s hs => ⟨placed_of_reachable hs,
      System.stamped_of_reachable (reachable_sys hs)⟩) ?_
    fun s a s' hJ hs happ => hs.step hJ.1 hJ.2 happ
  rintro s ⟨y, ⟨enc, imu, imuOk, t, rfl⟩, rfl⟩
  refine ⟨le_rfl, Nat.zero_le _, ?_, ?_, ?_, ?_⟩
  · intro t ht
    cases ht
  · intro k hk
    cases hk
  · intro k hk
    cases hk
  · intro k hk
    cases hk

/-- The loop of `control_task` has run for longer than `D` ms. -/
def Looping (D : Nat) (s : ControlTask F E I) : Prop :=
  (s.pc = .tick ∨ s.pc = .delay) ∧ s.began + D < s.sys.time

/-- Then a tick has called `step`: the first was due when the loop
began. -/
theorem latest_exists {D : Nat} {cfg : BoardConfig F}
    (h : (machine E I T cfg).ReachableUnder (Timely D) s)
    (hloop : s.Looping D) : ∃ k, s.sys.ticks.getLast? = some k := by
  obtain ⟨hpc, hlater⟩ := hloop
  have hplace := (placed_of_reachable h.reachable).place
  have htime := (prompt_of_reachable h).time hpc
  suffices hne : s.sys.ticks ≠ [] from
    ⟨_, List.getLast?_eq_some_getLast hne⟩
  intro hnil
  have hfirst : s.release = s.began := by
    rw [release, hnil]
    rfl
  rcases hpc with hpc | hpc
  · rcases place_tick hplace hpc with ⟨-, hlast⟩ | ⟨-, hlast⟩
    · omega
    · omega
  · rw [Place, hpc] at hplace
    have hlast := hplace.2
    omega

/-- What is known of the latest tick, when there must be one. -/
theorem latest_eq {D : Nat} {cfg : BoardConfig F}
    (h : (machine E I T cfg).ReachableUnder (Timely D) s)
    (hloop : s.Looping D) {c : Cmd F}
    (hall : ∀ k ∈ s.sys.ticks.getLast?, k.cmd = c) :
    s.sys.ticks.getLast?.map TickRec.cmd = some c := by
  obtain ⟨k, hk⟩ := latest_exists h hloop
  rw [hk, Option.map_some, hall k hk]

/-- The latest tick read its clock no longer than `20 + D` ms ago. -/
theorem latest_read {D : Nat} {cfg : BoardConfig F}
    (h : (machine E I T cfg).ReachableUnder (Timely D) s) {k : TickRec F}
    (hk : k ∈ s.sys.ticks.getLast?) :
    s.sys.time ≤ k.readAt + 20 + D := by
  have hp := placed_of_reachable h.reachable
  rw [List.getLast?_eq_getElem?] at hk
  have hread := hp.ticks _ _ hk
  have hsome : s.sys.ticks.length - 1 < s.sys.ticks.length := by
    rcases List.getElem?_eq_some_iff.mp hk with ⟨hlt, -⟩
    exact hlt
  have hne : s.sys.ticks ≠ [] := by
    intro hnil
    rw [hnil] at hsome
    exact Nat.lt_irrefl _ hsome
  have hplace := hp.place
  have htime := (prompt_of_reachable h).time
  rw [controlPeriod] at hread
  cases hpc : s.pc with
  | init | start =>
      rw [Place, hpc] at hplace
      exact absurd hplace.2 hne
  | tick =>
      have hle := htime (Or.inl hpc)
      rcases place_tick hplace hpc with ⟨-, hlast⟩ | ⟨-, hlast⟩
      · rw [release, controlPeriod] at hlast
        omega
      · rw [release, controlPeriod] at hlast
        omega
  | delay =>
      have hle := htime (Or.inr hpc)
      rw [Place, hpc] at hplace
      have hlast := hplace.2
      rw [release, controlPeriod] at hlast
      omega

/-- What the latest tick passed on, once it has taken the last write. -/
theorem latest_cmd {D : Nat} {cfg : BoardConfig F}
    (h : (machine E I T cfg).ReachableUnder (Timely D) s)
    (hold : s.acceptedAt + 20 + D < s.sys.time) {k : TickRec F}
    (hk : k ∈ s.sys.ticks.getLast?) :
    k.cmd = deadman (linoMillis k.readAt) (linoMillis s.sys.cmdAt)
        s.sys.loop.cmd
      ∧ s.sys.cmdAt ≤ s.acceptedAt ∧ s.sys.cmdAt ≤ k.readAt
      ∧ k.readAt ≤ s.sys.time := by
  have hmem : k ∈ s.sys.ticks := List.mem_of_getLast? hk
  have hg := governed_of_reachable h.reachable
  have hsound := (System.stamped_of_reachable
    (reachable_sys h.reachable)).ticks k hmem
  have hread := latest_read h hk
  have hstamp := hg.cmdAt_le
  obtain ⟨hcmdAt, hsnapshot⟩ := hg.ticks k hmem (by omega)
  rw [← hcmdAt, ← hsnapshot]
  exact ⟨hsound.cmd_eq, by omega, by omega, hg.past k hmem⟩

/-- From `20 + D` ms after the shared command was last written to 200 ms
after its stamp, the latest tick has passed it on; and there is one, once
the loop has run for longer than `D`. -/
theorem command_governs {D : Nat} {cfg : BoardConfig F}
    (h : (machine E I T cfg).ReachableUnder (Timely D) s)
    (hold : s.acceptedAt + 20 + D < s.sys.time)
    (hfresh : s.sys.time < s.sys.cmdAt + 200) :
    (∀ k ∈ s.sys.ticks.getLast?, k.cmd = s.sys.loop.cmd)
      ∧ (s.Looping D →
        s.sys.ticks.getLast?.map TickRec.cmd = some s.sys.loop.cmd) := by
  have hall : ∀ k ∈ s.sys.ticks.getLast?, k.cmd = s.sys.loop.cmd := by
    intro k hk
    obtain ⟨hcmd, -, hle, hpast⟩ := latest_cmd h hold hk
    rw [hcmd, deadman_eq_self_iff, linoMillis, linoMillis,
      Lib.elapsed_of_lt 32 hle (by omega)]
    exact Or.inl (by omega)
  exact ⟨hall, fun hloop => latest_eq h hloop hall⟩

/-- A command after the first tick, and the second tick. -/
def commanded : List (Act (encoders ℚ) (ImuDriver.absent ℚ)) :=
  List.flatten [List.replicate 7 ctrlAct, tickActs,
    [.clock, .setCmd ⟨1 / 5, 0, 0⟩, .setCmdWrite],
    List.replicate 19 .clock, [ctrlAct], tickActs]

/-- Until the command is 26 ms old. -/
def commandedLater : List (Act (encoders ℚ) (ImuDriver.absent ℚ)) :=
  commanded ++ List.replicate 7 .clock

theorem command_governs_commanded :
    ∃ s, f446reControl.runUnder (Timely 5) commandedLater f446reBoot = some s
      ∧ s.sys.loop.cmd = ⟨1 / 5, 0, 0⟩
      ∧ s.sys.ticks.getLast?.map TickRec.cmd = some s.sys.loop.cmd := by
  have hrun : (f446reControl.runUnder (Timely 5) commandedLater
        f446reBoot).map (fun s => ((s.acceptedAt, s.sys.cmdAt, s.began,
          s.sys.time), s.pc, s.sys.loop.cmd))
      = some ((1, 1, 0, 27), .delay, ⟨1 / 5, 0, 0⟩) := by
    decide +kernel
  obtain ⟨s, hs, hrest⟩ := Option.map_eq_some_iff.mp hrun
  simp only [Prod.mk.injEq] at hrest
  obtain ⟨⟨haccepted, hcmdAt, hbegan, htime⟩, hpc, hcmd⟩ := hrest
  have hreach := (Lib.Machine.ReachableUnder.start
    f446reControl_start).runUnder hs
  exact ⟨s, hs, hcmd, (command_governs hreach (by omega) (by omega)).2
    ⟨Or.inr hpc, by omega⟩⟩

/-- As long as the millisecond counter has not wrapped: 220 ms and `D`
after the shared command was last written, and until it is written again,
the latest tick has stopped the base; and there is one, once the loop has
run for longer than `D`. -/
theorem stopped_in_time {D : Nat} {cfg : BoardConfig F}
    (h : (machine E I T cfg).ReachableUnder (Timely D) s)
    (hwrap : s.sys.time < 2 ^ 32)
    (hsilent : s.acceptedAt + 220 + D ≤ s.sys.time) :
    (∀ k ∈ s.sys.ticks.getLast?, k.cmd = Cmd.zero)
      ∧ (s.Looping D →
        s.sys.ticks.getLast?.map TickRec.cmd = some Cmd.zero) := by
  have hall : ∀ k ∈ s.sys.ticks.getLast?, k.cmd = Cmd.zero := by
    intro k hk
    obtain ⟨hcmd, hstamp, hle, hpast⟩ := latest_cmd h (by omega) hk
    have hread := latest_read h hk
    rw [hcmd, deadman_eq_zero_iff, linoMillis, linoMillis,
      Lib.elapsed_of_lt 32 hle (by omega)]
    exact Or.inl (by omega)
  exact ⟨hall, fun hloop => latest_eq h hloop hall⟩

/-- The command, and then ticks alone. -/
def silence : List (Act (encoders ℚ) (ImuDriver.absent ℚ)) :=
  commanded ++ List.flatten (List.replicate 11
    (List.flatten [List.replicate 20 .clock, [ctrlAct], tickActs]))

theorem stopped_in_time_silence :
    ∃ s, f446reControl.runUnder (Timely 5) silence f446reBoot = some s
      ∧ s.sys.ticks.length = 13
      ∧ s.sys.ticks.getLast?.map TickRec.cmd = some Cmd.zero := by
  have hrun : (f446reControl.runUnder (Timely 5) silence f446reBoot).map
        (fun s => (s.acceptedAt, s.sys.time, s.sys.ticks.length, s.pc,
          s.began))
      = some (1, 240, 13, .delay, 0) := by
    decide +kernel
  obtain ⟨s, hs, hrest⟩ := Option.map_eq_some_iff.mp hrun
  simp only [Prod.mk.injEq] at hrest
  obtain ⟨haccepted, htime, hlength, hpc, hbegan⟩ := hrest
  have hreach := (Lib.Machine.ReachableUnder.start
    f446reControl_start).runUnder hs
  exact ⟨s, hs, hlength, (stopped_in_time hreach (by omega) (by omega)).2
    ⟨Or.inr hpc, by omega⟩⟩

end ControlTask

end LinoStm32
