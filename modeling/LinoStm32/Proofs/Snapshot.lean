/-
Coherent snapshots: what `control_get_odom` and `control_get_imu` can
return under any interleaving.

The published tuple and the published sample are two values that
`control_task` replaces, each in one critical section, and that readers
copy, each in one critical section. Version `n` of either is what tick
`n` published, version 0 what the static initialisers left. The live
pose is not such a value: the integrator rewrites it member by member,
and `CtrlPc.Live` says how far it has got at each step.

# The invariant

- the live core is that of a step under way, advanced as far as the
  program counter says, so that the publish finds the whole new pose;
- the published tuple is the version of the last tick that has left its
  publish, and the tuples read so far ascend to it;
- the published sample is some version up to the last completed step,
  and the samples read so far ascend to it.
-/
import LinoStm32.Tasks
import LinoStm32.Lib.Versions

namespace LinoStm32

variable {F : Type} [CFloat F] {E : RpmSource F} {I : ImuDriver F}

-- ============================================================= versions

/-- Version `n` of the published tuple: all zero at first, then the pose
and body velocity the `n`-th completed step produced. -/
def OdomVersion (T : Trig F) (steps : List (StepRec F)) :
    Nat → Odom6 F → Prop
  | 0, v => v = Odom6.zero
  | n + 1, v => ∃ r, steps[n]? = some r ∧ v = r.tuple T

/-- Version `n` of the published sample: all zero at first, then what one
`getData` call of tick `n` returned, under the fake IMU with its z rate
replaced by that tick's yaw rate. -/
def ImuVersion (I : ImuDriver F) (T : Trig F) (steps : List (StepRec F))
    (datas : List (ImuRec F)) : Nat → ImuMsg F → Prop
  | 0, m => m = ImuMsg.zero
  | n + 1, m => ∃ r, steps[n]? = some r
      ∧ ∃ d ∈ datas, d.tick = n + 1
        ∧ m = imuSample I (r.tuple T).wz d.msg

omit [CFloat F] in
/-- One more completed step renumbers no earlier one. -/
theorem getElem?_of_append {steps : List (StepRec F)} {n : Nat}
    {r : StepRec F} (h : steps[n]? = some r) (new : List (StepRec F)) :
    (steps ++ new)[n]? = some r := by
  obtain ⟨hlt, -⟩ := List.getElem?_eq_some_iff.mp h
  rw [List.getElem?_append_left hlt]
  exact h

/-- A completed step leaves every version of the tuple alone. -/
theorem OdomVersion.append {T : Trig F} {steps : List (StepRec F)}
    {n : Nat} {v : Odom6 F} (h : OdomVersion T steps n v)
    (new : List (StepRec F)) : OdomVersion T (steps ++ new) n v := by
  cases n with
  | zero => exact h
  | succ n =>
      obtain ⟨r, hr, hv⟩ := h
      exact ⟨r, getElem?_of_append hr new, hv⟩

section ImuVersion

variable {T : Trig F} {steps : List (StepRec F)} {datas : List (ImuRec F)}
  {n : Nat} {m : ImuMsg F}

/-- A completed step leaves every version of the sample alone. -/
theorem ImuVersion.appendStep (h : ImuVersion I T steps datas n m)
    (new : List (StepRec F)) : ImuVersion I T (steps ++ new) datas n m := by
  cases n with
  | zero => exact h
  | succ n =>
      obtain ⟨r, hr, hdata⟩ := h
      exact ⟨r, getElem?_of_append hr new, hdata⟩

/-- So does a call of `getData`. -/
theorem ImuVersion.appendData (h : ImuVersion I T steps datas n m)
    (new : List (ImuRec F)) : ImuVersion I T steps (datas ++ new) n m := by
  cases n with
  | zero => exact h
  | succ n =>
      obtain ⟨r, hr, d, hd, htick, hm⟩ := h
      exact ⟨r, hr, d, List.mem_append_left new hd, htick, hm⟩

end ImuVersion

-- ============================================================ invariant

/-- How far the step under way has got, as the program counter has it:
the live core between the integrator's writes, the completed step to be
published, and the sample to be published. -/
def CtrlPc.Live (I : ImuDriver F) (T : Trig F) (core : ControlCore F)
    (steps : List (StepRec F)) (datas : List (ImuRec F)) :
    CtrlPc F → Prop
  | .addX r => core = r.core.drive r.cmd r.rpm
  | .addY r => core = { r.core.drive r.cmd r.rpm with
      odom := r.core.odom.addX (r.delta T) }
  | .addHeading r => core = { r.core.drive r.cmd r.rpm with
      odom := (r.core.odom.addX (r.delta T)).addY (r.delta T) }
  | .publish r => core = (r.result T).1
      ∧ ∃ n, steps.length = n + 1 ∧ steps[n]? = some r
  | .imuRead => ∃ n, steps.length = n + 1
  | .imuPublish im => ImuVersion I T steps datas steps.length im
  | _ => True

/-- The tick whose tuple is the published one. -/
def System.published (s : System F E I) : Nat :=
  match s.ctrl with
  | .publish _ => s.steps.length - 1
  | _ => s.steps.length

/-- The invariant of the two published values and of their readers. -/
structure System.Coherent (T : Trig F) (s : System F E I) : Prop where
  live : s.ctrl.Live I T s.loop.core s.steps s.datas
  last : OdomVersion T s.steps s.published s.loop.last
  odomReads : Lib.AscendsTo (OdomVersion T s.steps) s.published s.odomReads
  imu : ∃ n ≤ s.steps.length,
    ImuVersion I T s.steps s.datas n s.loop.imuSnap
      ∧ Lib.AscendsTo (ImuVersion I T s.steps s.datas) n s.imuReads

namespace System

variable {T : Trig F} {s : System F E I}

/-- The integrator's last write: the step is complete and becomes the
next version; what is published keeps its number. -/
theorem Coherent.addHeading (h : s.Coherent T) {r : StepRec F}
    (hpc : s.ctrl = .addHeading r) (inp : E.Input) (bus : I.Bus) :
    (s.ctrlStep T inp bus).Coherent T := by
  obtain ⟨time, loop, ctrl, uros, cmdAt, given, ticks, steps, datas, ods,
    ims⟩ := s
  change ctrl = .addHeading r at hpc
  subst hpc
  obtain ⟨hlive, hlast, hods, n, hn, hsnap, hims⟩ := h
  have hlen : (steps ++ [r]).length = steps.length + 1 := List.length_append
  have hpublished : (steps ++ [r]).length - 1 = steps.length := by omega
  have hn' : n ≤ steps.length := hn
  have hlater : n ≤ (steps ++ [r]).length := by omega
  refine ⟨⟨?_, steps.length, hlen, List.getElem?_concat_length⟩, ?_, ?_,
    n, hlater, hsnap.appendStep [r], ?_⟩
  · -- the third write completes the pose
    show { loop.core with odom := loop.core.odom.addHeading (r.delta T) } = _
    rw [show loop.core = _ from hlive]
    rfl
  · show OdomVersion T (steps ++ [r]) ((steps ++ [r]).length - 1) loop.last
    rw [hpublished]
    exact hlast.append [r]
  · show Lib.AscendsTo _ ((steps ++ [r]).length - 1) ods
    rw [hpublished]
    exact hods.mono (Nat.le_refl _) fun k _ v hv => hv.append [r]
  · exact hims.mono (Nat.le_refl _) fun k _ v hv => hv.appendStep [r]

/-- The publish of the tuple: the whole new pose with the velocity of the
same step. -/
theorem Coherent.publish (h : s.Coherent T) {r : StepRec F}
    (hpc : s.ctrl = .publish r) (inp : E.Input) (bus : I.Bus) :
    (s.ctrlStep T inp bus).Coherent T := by
  obtain ⟨time, ⟨cmd, cmdMs, odomMs, last, enc, core, imu, ok, readOk, snap⟩,
    ctrl, uros, cmdAt, given, ticks, steps, datas, ods, ims⟩ := s
  change ctrl = .publish r at hpc
  subst hpc
  obtain ⟨⟨hcore, n, hlen, hr⟩, hlast, hods, himu⟩ := h
  have hversion : OdomVersion T steps steps.length
      (Odom6.of core.odom r.vel) := by
    rw [hlen, show core = (r.result T).1 from hcore]
    exact ⟨r, hr, rfl⟩
  have hreads : Lib.AscendsTo (OdomVersion T steps) steps.length ods :=
    hods.mono (Nat.sub_le _ _) fun k _ v hv => hv
  cases ok with
  | false => exact ⟨trivial, hversion, hreads, himu⟩
  | true => exact ⟨⟨n, hlen⟩, hversion, hreads, himu⟩

/-- The IMU read: the sample to be published is this tick's. -/
theorem Coherent.imuRead (h : s.Coherent T) (hpc : s.ctrl = .imuRead)
    (inp : E.Input) (bus : I.Bus) : (s.ctrlStep T inp bus).Coherent T := by
  obtain ⟨time, loop, ctrl, uros, cmdAt, given, ticks, steps, datas, ods,
    ims⟩ := s
  change ctrl = .imuRead at hpc
  subst hpc
  obtain ⟨⟨k, hlen⟩, hlast, hods, n, hn, hsnap, hims⟩ := h
  refine ⟨?_, hlast, hods, n, hn, hsnap.appendData _,
    hims.mono (Nat.le_refl _) fun k _ v hv => hv.appendData _⟩
  show ImuVersion I T steps (datas ++ [_]) steps.length
    (imuSample I loop.last.wz (I.getData loop.imu bus).1)
  have hlast' : OdomVersion T steps steps.length loop.last := hlast
  rw [hlen] at hlast' ⊢
  obtain ⟨r, hr, hv⟩ := hlast'
  exact ⟨r, hr, _, List.mem_append_right _ (List.mem_singleton_self _),
    rfl, by rw [hv]⟩

/-- The publish of the sample. -/
theorem Coherent.imuPublish (h : s.Coherent T) {im : ImuMsg F}
    (hpc : s.ctrl = .imuPublish im) (inp : E.Input) (bus : I.Bus) :
    (s.ctrlStep T inp bus).Coherent T := by
  obtain ⟨time, loop, ctrl, uros, cmdAt, given, ticks, steps, datas, ods,
    ims⟩ := s
  change ctrl = .imuPublish im at hpc
  subst hpc
  obtain ⟨hlive, hlast, hods, n, hn, hsnap, hims⟩ := h
  exact ⟨trivial, hlast, hods, steps.length, Nat.le_refl _, hlive,
    hims.mono hn fun k _ v hv => hv⟩

/-- Every step of `control_task` keeps the published values coherent. -/
theorem Coherent.ctrlStep (h : s.Coherent T) (inp : E.Input)
    (bus : I.Bus) : (s.ctrlStep T inp bus).Coherent T := by
  obtain ⟨time, loop, ctrl, uros, cmdAt, given, ticks, steps, datas, ods,
    ims⟩ := s
  cases ctrl with
  | measure now k => exact ⟨rfl, h.last, h.odomReads, h.imu⟩
  | addX r =>
      have hcore : loop.core = r.core.drive r.cmd r.rpm := h.live
      refine ⟨?_, h.last, h.odomReads, h.imu⟩
      show { loop.core with odom := loop.core.odom.addX (r.delta T) } = _
      rw [hcore]
      rfl
  | addY r =>
      have hcore : loop.core = { r.core.drive r.cmd r.rpm with
        odom := r.core.odom.addX (r.delta T) } := h.live
      refine ⟨?_, h.last, h.odomReads, h.imu⟩
      show { loop.core with odom := loop.core.odom.addY (r.delta T) } = _
      rw [hcore]
  | addHeading r => exact h.addHeading rfl inp bus
  | publish r => exact h.publish rfl inp bus
  | imuRead => exact h.imuRead rfl inp bus
  | imuPublish im => exact h.imuPublish rfl inp bus
  | _ => exact ⟨trivial, h.last, h.odomReads, h.imu⟩

/-- Every reachable state is coherent. -/
theorem coherent_of_reachable {cfg : BoardConfig F}
    (h : (tasks E I T cfg).Reachable s) : s.Coherent T := by
  refine h.invariant ?_ ?_
  · intro s hs
    obtain ⟨enc, imu, imuOk, t, rfl⟩ := hs
    exact ⟨trivial, rfl, .nil, 0, Nat.le_refl 0, rfl, .nil⟩
  · intro s a s' hs happ
    cases moves_of_apply happ with
    | clock => exact ⟨hs.live, hs.last, hs.odomReads, hs.imu⟩
    | ctrl inp bus => exact hs.ctrlStep inp bus
    | setCmd c hidle => exact ⟨hs.live, hs.last, hs.odomReads, hs.imu⟩
    | setCmdWrite now c hset =>
        exact ⟨hs.live, hs.last, hs.odomReads, hs.imu⟩
    | getOdom hidle =>
        exact ⟨hs.live, hs.last, hs.odomReads.read hs.last, hs.imu⟩
    | getImu hidle =>
        obtain ⟨n, hn, hsnap, hims⟩ := hs.imu
        exact ⟨hs.live, hs.last, hs.odomReads, n, hn, hsnap, hims.read hsnap⟩

end System

-- ================================================================= runs

/-- Under every interleaving, the tuples and the samples read are each
versions published by single ticks, in an order that never goes back. -/
theorem reads_coherent {T : Trig F} {cfg : BoardConfig F}
    {s : System F E I} (h : (tasks E I T cfg).Reachable s) :
    Lib.Ascends (OdomVersion T s.steps) s.odomReads
      ∧ Lib.Ascends (ImuVersion I T s.steps s.datas) s.imuReads := by
  have hcoherent : s.Coherent T := System.coherent_of_reachable h
  obtain ⟨n, -, -, hims⟩ := hcoherent.imu
  exact ⟨hcoherent.odomReads.ascends, hims.ascends⟩

/-- What a level sensor reads while the base speeds up at `x`. -/
def speedingUp (x : ℚ) : ImuMsg ℚ :=
  { ImuMsg.zero with linearAcceleration := ⟨x, 0, 981 / 100⟩ }

/-- Two ticks of a board with a fake IMU, 20 ms apart, both wheels turning
at the second. It is read in the middle of its pose update, between its two
publishes, and after both. -/
def readThrough : List (Act (encoders ℚ) (ImuDriver.answering ℚ true)) :=
  let first : Act (encoders ℚ) (ImuDriver.answering ℚ true) :=
    .ctrl (20000, fun _ => 0) (speedingUp 0)
  let second : Act (encoders ℚ) (ImuDriver.answering ℚ true) :=
    .ctrl (40000, ![80, 160, 0, 0]) (speedingUp 1)
  List.replicate 6 first ++ List.replicate 20 .clock
    ++ List.replicate 9 first ++ List.replicate 20 .clock
    ++ List.replicate 4 second ++ [.getOdom, .getImu]
    ++ List.replicate 3 second ++ [.getOdom, .getImu]
    ++ List.replicate 2 second ++ [.getOdom, .getImu]

/-- Three reads of each kind, coherent and in order: the second tick's tuple
from the second on, its sample, with the yaw rate of that tuple, at the
third. -/
theorem reads_coherent_readThrough :
    ∃ s : System ℚ (encoders ℚ) (ImuDriver.answering ℚ true),
      (s.odomReads.map fun v => (decide (0 < v.x), decide (0 < v.wz)))
          = [(false, false), (true, true), (true, true)]
        ∧ (s.imuReads.map fun m => (m.linearAcceleration.x,
            decide (m.angularVelocity.z = s.loop.last.wz)))
          = [(0, false), (0, false), (1, true)]
        ∧ Lib.Ascends (OdomVersion Trig.level s.steps) s.odomReads
        ∧ Lib.Ascends (ImuVersion (ImuDriver.answering ℚ true) Trig.level
            s.steps s.datas) s.imuReads := by
  have hrun : ((tasks _ _ Trig.level f446re).run readThrough
      (System.start f446re (f446re (F := ℚ)).encoders () true 0)).map
        (fun s =>
          (s.odomReads.map fun v => (decide (0 < v.x), decide (0 < v.wz)),
            s.imuReads.map fun m => (m.linearAcceleration.x,
              decide (m.angularVelocity.z = s.loop.last.wz))))
      = some ([(false, false), (true, true), (true, true)],
          [(0, false), (0, false), (1, true)]) := by
    decide +kernel
  obtain ⟨s, hs, hreads⟩ := Option.map_eq_some_iff.mp hrun
  obtain ⟨hodom, himu⟩ := Prod.mk.inj hreads
  exact ⟨s, hodom, himu, reads_coherent
    (Lib.Machine.reachable_of_run ⟨_, _, _, _, rfl⟩ hs)⟩

end LinoStm32
