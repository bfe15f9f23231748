/-
What becomes of the base when the agent falls silent.

The reconnect machine, the executor, the deadman and the control loop each
take a share of the time: the gate of `AGENT_CONNECTED` opens within 200 ms
of the last answer (`Proofs/PingGate.lean`), a spin that is under way may
still deliver a command, the deadman passes that on for 200 ms, and a tick
comes every 20 ms (`Proofs/Pace.lean`). The shares add up, in any
interleaving (`silent_agent_stops`).

The invariant dates the commands: each one the tasks still deal with is the
zero command, or was stamped by the time of `twistCallback`'s last write
(`System.Dated`). The full stops of `AGENT_DISCONNECTED`, whenever they
come, write the zero command and so leave it alone.
-/
import LinoStm32.Board
import LinoStm32.Proofs.Pace
import LinoStm32.Proofs.PingGate

namespace LinoStm32

variable {F : Type} [CFloat F] {E : RpmSource F} {I : ImuDriver F}

-- ================================================================ the dates

/-- What a tick took is the zero command, or was stamped by `t`. -/
def TickRec.Dated (t : Nat) (k : TickRec F) : Prop :=
  k.snapshot = Cmd.zero ∨ k.cmdAt ≤ t

/-- So is what ticks took, and what the clears leave of the shared
command. -/
structure System.Dated (t : Nat) (s : System F E I) : Prop where
  shared : s.ctrl.residue s.loop.cmd = Cmd.zero ∨ s.cmdAt ≤ t
  taken : ∀ k ∈ s.ctrl.taken, k.Dated t
  ticks : ∀ k ∈ s.ticks, k.Dated t

theorem CtrlPc.residue_zero (pc : CtrlPc F) :
    pc.residue Cmd.zero = Cmd.zero := by
  cases pc <;> rfl

namespace System

variable {s y : System F E I} {t t' : Nat}

theorem Dated.mono (h : s.Dated t) (ht : t ≤ t') : s.Dated t' where
  shared := h.shared.imp_right fun hle => hle.trans ht
  taken k hk := (h.taken k hk).imp_right fun hle => hle.trans ht
  ticks k hk := (h.ticks k hk).imp_right fun hle => hle.trans ht

theorem Dated.ctrlStep (h : s.Dated t) (T : Trig F) (inp : E.Input)
    (bus : I.Bus) : (s.ctrlStep T inp bus).Dated t := by
  obtain ⟨time, loop, ctrl, uros, cmdAt, given, ticks, steps, datas, ods,
    ims⟩ := s
  obtain ⟨hshared, htaken, hticks⟩ := h
  have hnone : ∀ k ∈ (none : Option (TickRec F)), k.Dated t :=
    fun k hk => nomatch hk
  cases ctrl with
  | boot | initOdom _ | initCmd _ | clearWz =>
      exact ⟨Or.inl rfl, hnone, hticks⟩
  | snap now =>
      refine ⟨hshared, fun k hk => ?_, hticks⟩
      cases hk
      exact hshared
  | measure now k =>
      refine ⟨hshared, hnone, fun k' hk' => ?_⟩
      rcases List.mem_append.mp hk' with hold | hnew
      · exact hticks k' hold
      · exact List.mem_singleton.mp hnew ▸ htaken k rfl
  | publish r =>
      cases hok : loop.imuOk with
      | true =>
          simp only [System.ctrlStep, hok]
          exact ⟨hshared, hnone, hticks⟩
      | false =>
          simp only [System.ctrlStep, hok]
          exact ⟨hshared, hnone, hticks⟩
  | _ => exact ⟨hshared, hnone, hticks⟩

/-- Of the two tasks only a write that is neither would break it. -/
theorem Dated.step (h : s.Dated t) {T : Trig F} {b : Act E I}
    (hy : System.apply T b s = some y)
    (hwrite : ∀ now c, b = .setCmdWrite → s.uros = .setCmd now c →
      c = Cmd.zero ∨ now ≤ t) : y.Dated t := by
  cases moves_of_apply hy with
  | clock => exact ⟨h.shared, h.taken, h.ticks⟩
  | ctrl inp bus => exact h.ctrlStep T inp bus
  | setCmd c _ => exact ⟨h.shared, h.taken, h.ticks⟩
  | setCmdWrite now c hset =>
      refine ⟨?_, h.taken, h.ticks⟩
      rcases hwrite now c rfl hset with rfl | hle
      · exact Or.inl s.ctrl.residue_zero
      · exact Or.inr hle
  | getOdom _ => exact ⟨h.shared, h.taken, h.ticks⟩
  | getImu _ => exact ⟨h.shared, h.taken, h.ticks⟩

end System

-- ================================================================ the shares

variable {R : Rcl} {T : Trig F} {cfg : BoardConfig F}

namespace Uros

/-- When the agent was last heard, the executor last spun and a command
last written, `u` is within the shares of each. -/
structure Attended (S : Nat) (u : Uros R F E I)
    (heardAt spunAt twistAt : Nat) : Prop where
  heard : Silent heardAt u
  heard_le : heardAt ≤ u.sys.time
  spun_le : spunAt ≤ u.sys.time
  twist_le : twistAt ≤ u.sys.time
  spun : u.sys.time < 2 ^ 32 → spunAt ≤ heardAt + 200
  spin : u.pc = .spin → u.sys.time ≤ spunAt + S
  twist : twistAt ≤ spunAt + S
  pending : u.pc = .spin ∨ ∀ c ∈ u.sys.uros.pending, c = Cmd.zero
  dated : u.sys.Dated twistAt

variable {S : Nat} {u u' : Uros R F E I} {a : UrosAct R E I}
  {heardAt spunAt twistAt : Nat}

/-- Outside the spin `uros_task` has no command in hand but zero. -/
theorem pending_step (happ : apply T a u = some u')
    (h : u.pc = .spin ∨ ∀ c ∈ u.sys.uros.pending, c = Cmd.zero) :
    u'.pc = .spin ∨ ∀ c ∈ u'.sys.uros.pending, c = Cmd.zero := by
  have hkeep : u.pc ≠ .spin → u'.sys = u.sys →
      u'.pc = .spin ∨ ∀ c ∈ u'.sys.uros.pending, c = Cmd.zero := by
    intro hpc hsys
    rw [hsys]
    exact Or.inr (h.resolve_left hpc)
  have hat : ∀ {p : LoopPc}, u.pc = p → p ≠ .spin → u.pc ≠ .spin :=
    fun hp hne => hp ▸ hne
  cases moves_of_apply happ with
  | clock => exact h
  | ctrl inp bus =>
      rw [System.ctrlStep_uros]
      exact h
  | notDue _ _ => exact h
  | spinSome _ _ => exact Or.inl rfl
  | fullStop y _ _ hy =>
      right
      cases System.moves_of_apply hy with
      | setCmd _ _ =>
          rintro c ⟨⟩
          rfl
  | fullStopWrite y _ hy =>
      right
      cases System.moves_of_apply hy with
      | setCmdWrite now c _ =>
          intro c hc
          cases hc
  | spun ans _ hidle =>
      right
      show ∀ c ∈ u.sys.uros.pending, c = Cmd.zero
      rw [hidle]
      intro c hc
      cases hc
  | callback c y hpc _ => exact Or.inl hpc
  | init e rest ans hpc =>
      exact hkeep (hat hpc nofun) (rccheck_sys _ _ _)
  | executor c rest ans hpc =>
      exact hkeep (hat hpc nofun) (rccheck_sys _ _ _)
  | setFrames hpc => exact hkeep (hat hpc nofun) (setFrameIds_sys u)
  | askWaiting hpc _ | createEntities hpc _ | askConnected hpc _
  | destroyed hpc | pongWaiting _ _ hpc | pongConnected _ _ hpc
  | fini _ _ _ hpc | synced _ hpc =>
      exact hkeep (hat hpc nofun) rfl

/-- Only a callback in the spin writes anything but zero. -/
theorem write_step (happ : apply T a u = some u') (hstamped : u.sys.Stamped)
    (hpending : u.pc = .spin ∨ ∀ c ∈ u.sys.uros.pending, c = Cmd.zero)
    (hdated : u.sys.Dated twistAt) (htwist : twistAt ≤ u.sys.time) :
    u'.sys.Dated (if a.twists then u.sys.time else twistAt) := by
  by_cases hctrl : ∀ inp bus, a ≠ .ctrl inp bus
  · by_cases hclock : a = .clock
    · subst hclock
      cases happ
      exact ⟨hdated.shared, hdated.taken, hdated.ticks⟩
    · rcases calls_of_apply happ hclock hctrl with hsame | ⟨b, hb, hy⟩
      · rw [hsame]
        split
        · exact hdated.mono htwist
        · exact hdated
      · cases hb with
        | callback c hpc =>
            cases c with
            | twistWrite =>
                refine (hdated.mono htwist).step hy fun now c _ hset => ?_
                have hu := hstamped.uros
                rw [hset] at hu
                exact Or.inr hu
            | twist _ => exact hdated.step hy fun _ _ => nofun
            | getOdom => exact hdated.step hy fun _ _ => nofun
            | getImu => exact hdated.step hy fun _ _ => nofun
        | fullStop hpc => exact hdated.step hy fun _ _ => nofun
        | fullStopWrite hpc =>
            refine hdated.step hy fun now c _ hset => Or.inl ?_
            have hzero := hpending.resolve_left (by rw [hpc]; exact nofun)
            rw [hset] at hzero
            exact hzero c rfl
  · push Not at hctrl
    obtain ⟨inp, bus, rfl⟩ := hctrl
    cases happ
    exact hdated.ctrlStep T inp bus

/-- The agent is heard, or it is as silent as it was. -/
theorem heard_step (happ : apply T a u = some u')
    (hclocked : Clocked .connected u) (h : Silent heardAt u) :
    Silent (if a.hears then u.sys.time else heardAt) u' := by
  by_cases ha : a = .ping true
  · subst ha
    left
    rcases (moves_of_apply happ).last .connected with
      hkeep | ⟨n, hpc, hwrite, -⟩
    · obtain ⟨L, hL, hlast⟩ := hclocked.last
      exact ⟨L, hL, hkeep.trans hlast⟩
    · exact ⟨n, hclocked.ping n hpc, hwrite⟩
  · have hno : a.hears = false := by
      cases a with
      | ping ok =>
          cases ok with
          | true => exact absurd rfl ha
          | false => rfl
      | _ => rfl
    rw [hno]
    exact h.step ha happ

theorem spin_of_twists (htw : a.twists = true)
    (happ : apply T a u = some u') : u.pc = .spin := by
  cases a with
  | callback c =>
      simp only [apply, callbackStep] at happ
      split at happ
      · next hpc => exact hpc
      · cases happ
  | _ => cases htw

theorem Attended.step (h : u.Attended S heardAt spunAt twistAt)
    (hclocked : Clocked .connected u) (hstamped : u.sys.Stamped)
    (htimely : a = .clock → u.pc = .spin → u.sys.time < spunAt + S)
    (happ : apply T a u = some u') :
    u'.Attended S (if a.hears then u.sys.time else heardAt)
      (if u'.pc = .spin ∧ u.pc ≠ .spin then u.sys.time else spunAt)
      (if a.twists then u.sys.time else twistAt) := by
  have htime := (moves_of_apply happ).time_le
  have hheard := h.heard_le
  have hspun := h.spun_le
  have htwist := h.twist_le
  have hshare := h.twist
  refine ⟨heard_step happ hclocked h.heard, ?_, ?_, ?_, ?_, ?_, ?_,
    pending_step happ h.pending,
    write_step happ hstamped h.pending h.dated h.twist_le⟩
  · split <;> omega
  · split <;> omega
  · split <;> omega
  · intro hwrap
    have hold := h.spun (by omega)
    split
    · next hentry =>
        by_cases ha : a = .ping true
        · subst ha
          exact Nat.le_add_right _ _
        · have hle := h.heard.spin_le hheard happ ha hentry.2 hentry.1
            (by omega)
          split <;> omega
    · split <;> omega
  · intro hpc'
    by_cases hpc : u.pc = .spin
    · rw [if_neg fun hentry => hentry.2 hpc]
      by_cases hclock : a = .clock
      · have hlt := htimely hclock hpc
        subst hclock
        cases happ
        exact hlt
      · rw [time_of_apply happ hclock]
        exact h.spin hpc
    · have hclock : a ≠ .clock := by
        rintro rfl
        cases happ
        exact hpc hpc'
      rw [if_pos ⟨hpc', hpc⟩, time_of_apply happ hclock]
      exact Nat.le_add_right _ _
  · cases htw : a.twists with
    | true =>
        have hpc := spin_of_twists htw happ
        have hle := h.spin hpc
        rw [if_pos rfl, if_neg fun hentry => hentry.2 hpc]
        exact hle
    | false =>
        rw [if_neg Bool.false_ne_true]
        split <;> omega

end Uros

namespace Board

variable {D S : Nat} {s : Board R F E I}

theorem attended_of_reachable
    (h : (machine R E I T cfg).ReachableUnder (Timely D S) s) :
    s.uros.Attended S s.heardAt s.spunAt s.twistAt := by
  refine h.invariant_given
    (I := fun s => s.uros.Attended S s.heardAt s.spunAt s.twistAt)
    (J := fun s => Uros.Clocked .connected s.uros ∧ s.uros.sys.Stamped)
    ?_ ?_ ?_
  · intro s hs
    have hu := reachable_uros hs
    exact ⟨Uros.clocked_of_reachable _ hu,
      System.stamped_of_reachable (Uros.reachable_sys hu)⟩
  · rintro s ⟨u, ⟨y, ⟨enc, imu, imuOk, t, rfl⟩, rfl⟩, rfl⟩
    refine ⟨Or.inl ⟨0, le_rfl, rfl⟩, Nat.zero_le _, Nat.zero_le _,
      Nat.zero_le _, fun _ => Nat.zero_le _, nofun, Nat.zero_le _,
      Or.inr ?_, ⟨Or.inl rfl, ?_, ?_⟩⟩
    · intro c hc
      cases hc
    · intro k hk
      cases hk
    · intro k hk
      cases hk
  · intro s a s' hJ hs htimely happ
    cases moves_of_apply happ with
    | ctrl inp bus c hc =>
        rcases ControlTask.taskStep_sys hc with hsame | hstep
        · show ({ s.uros with sys := c.sys } : Uros R F E I).Attended S
            s.heardAt s.spunAt s.twistAt
          rw [hsame]
          exact hs
        · have happ' : Uros.apply T (.ctrl inp bus) s.uros
              = some { s.uros with sys := c.sys } := by
            rw [hstep]
            rfl
          have hnext : ({ s.uros with sys := c.sys } : Uros R F E I).Attended
              S s.heardAt
              (if s.uros.pc = .spin ∧ s.uros.pc ≠ .spin
                then s.uros.sys.time else s.spunAt) s.twistAt :=
            hs.step hJ.1 hJ.2 (fun hclock => by cases hclock) happ'
          rw [if_neg fun hentry => hentry.2 hentry.1] at hnext
          exact hnext
    | uros a u _ hu =>
        refine hs.step hJ.1 hJ.2 (fun hclock => ?_) hu
        subst hclock
        exact htimely.2

/-- From `420 + S + D` ms after a ping last succeeded, as long as the
millisecond counter has not wrapped, a latest tick has stopped the base. -/
theorem latest_stops
    (h : (machine R E I T cfg).ReachableUnder (Timely D S) s)
    (hwrap : s.uros.sys.time < 2 ^ 32)
    (hsilent : s.heardAt + 420 + S + D ≤ s.uros.sys.time) {k : TickRec F}
    (hk : k ∈ s.uros.sys.ticks.getLast?) : k.cmd = Cmd.zero := by
  have hmem : k ∈ s.uros.sys.ticks := List.mem_of_getLast? hk
  have ha := attended_of_reachable h
  have hsound := (System.stamped_of_reachable (Uros.reachable_sys
    (reachable_uros h.reachable))).ticks k hmem
  have hg := ControlTask.governed_of_reachable
    (reachable_control h).reachable
  have hpast : k.readAt ≤ s.uros.sys.time := hg.past k hmem
  have hread : s.uros.sys.time ≤ k.readAt + 20 + D :=
    ControlTask.latest_read (reachable_control h) hk
  have hspun := ha.spun hwrap
  have htwist := ha.twist
  rw [hsound.cmd_eq, deadman_eq_zero_iff]
  rcases ha.dated.ticks k hmem with hzero | hle
  · exact Or.inr hzero
  · rw [linoMillis, linoMillis,
      Lib.elapsed_of_lt 32 (by omega) (by omega)]
    exact Or.inl (by omega)

/-- So it has in every interleaving in which ticks are done within `D` ms
of their release and spins within `S`; and there is a latest tick, once the
loop of `control_task` has run for longer than `D`. -/
theorem silent_agent_stops
    (h : (machine R E I T cfg).ReachableUnder (Timely D S) s)
    (hwrap : s.uros.sys.time < 2 ^ 32)
    (hsilent : s.heardAt + 420 + S + D ≤ s.uros.sys.time) :
    (∀ k ∈ s.uros.sys.ticks.getLast?, k.cmd = Cmd.zero)
      ∧ (s.control.Looping D →
        s.uros.sys.ticks.getLast?.map TickRec.cmd = some Cmd.zero) := by
  have hall : ∀ k ∈ s.uros.sys.ticks.getLast?, k.cmd = Cmd.zero :=
    fun k hk => latest_stops h hwrap hsilent hk
  exact ⟨hall, fun hloop =>
    ControlTask.latest_eq (reachable_control h) hloop hall⟩

/-- The whole firmware of the configured board, over `boolRcl`. -/
def f446reBoard :
    Lib.Machine (Board Uros.boolRcl ℚ (encoders ℚ) (ImuDriver.absent ℚ))
      (UrosAct Uros.boolRcl (encoders ℚ) (ImuDriver.absent ℚ)) :=
  machine _ _ _ Trig.level f446re

/-- As its scheduler starts. -/
def f446reReset : Board Uros.boolRcl ℚ (encoders ℚ) (ImuDriver.absent ℚ) :=
  ⟨Uros.f446reBoot, .init, 0, 0, 0, 0, 0, 0⟩

theorem f446reBoard_start : f446reBoard.start f446reReset :=
  ⟨_, Uros.f446reFirmware_start, rfl⟩

/-- So many ticks of `control_task`, each on time. -/
def periods (n : Nat) :
    List (UrosAct Uros.boolRcl (encoders ℚ) (ImuDriver.absent ℚ)) :=
  List.flatten (List.replicate n
    (List.replicate 20 .clock
      ++ List.replicate 8 (.ctrl (0, fun _ => 0) ())))

/-- A session in which the agent sends one command and falls silent. A ping
fails 220 ms later, the objects are destroyed, and so does a ping that would
have begun the next session. -/
def oneTwist :
    List (UrosAct Uros.boolRcl (encoders ℚ) (ImuDriver.absent ℚ)) :=
  List.flatten [List.replicate 14 (.ctrl (0, fun _ => 0) ()),
    Uros.connecting,
    [.ping true, .callback (.twist ⟨1 / 5, 0, 0⟩), .callback .twistWrite,
      .rcl true], periods 11,
    [.task, .ping false, .task, .task], List.replicate 7 (.rcl true),
    [.task], periods 15, [.task, .ping false], periods 2]

theorem silent_agent_stops_oneTwist :
    ∃ s, f446reBoard.runUnder (Timely 5 10) oneTwist f446reReset = some s
      ∧ (s.twistAt, s.heardAt, s.uros.sys.time) = (1000, 1000, 1560)
      ∧ (s.uros.lastConnected, s.uros.lastWaiting) = (1220, 1520)
      ∧ s.uros.trace.count (.fini .support true) = 1
      ∧ s.uros.sys.ticks.getLast?.map TickRec.cmd = some Cmd.zero := by
  have hrun : (f446reBoard.runUnder (Timely 5 10) oneTwist f446reReset).map
        (fun s => ((s.twistAt, s.heardAt, s.uros.sys.time),
          (s.uros.lastConnected, s.uros.lastWaiting),
          s.uros.trace.count (.fini .support true), s.pc, s.began))
      = some ((1000, 1000, 1560), (1220, 1520), 1, .delay, 1000) := by
    decide +kernel
  obtain ⟨s, hs, hrest⟩ := Option.map_eq_some_iff.mp hrun
  simp only [Prod.mk.injEq] at hrest
  obtain ⟨⟨htwist, hheard, htime⟩, hpings, hcount, hpc, hbegan⟩ := hrest
  have hreach := (Lib.Machine.ReachableUnder.start
    f446reBoard_start).runUnder hs
  have hlooping : s.control.Looping 5 := by
    refine ⟨Or.inr hpc, ?_⟩
    show s.began + 5 < s.uros.sys.time
    omega
  refine ⟨s, hs, ?_, ?_, hcount,
    (silent_agent_stops hreach (by omega) (by omega)).2 hlooping⟩
  · rw [htwist, hheard, htime]
  · rw [hpings.1, hpings.2]

end Board

end LinoStm32
