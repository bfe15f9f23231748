/-
How soon `uros_task` is connected again.

From wherever a failure left it, the task has a fixed way back: the rest of
`destroyEntities`, one ping, `createEntities`, the time synchronisation.
`toGo` counts the steps of it that are left. While the agent answers and
the calls into rcl succeed, every step the task takes is one of them, save
the ones at the gate of `WAITING_AGENT` that find it shut; so a run in
which it takes 25 others has connected (`recovers`). Nor does it find the
gate shut for long: whatever the run, it opens within 501 ms
(`gate_opens`).

The steps of `control_task` and of the tick are not counted and may come
anywhere.
-/
import LinoStm32.Proofs.PingGate

namespace LinoStm32.Uros

variable {R : Rcl} {F : Type} [CFloat F] {E : RpmSource F}
  {I : ImuDriver F} {T : Trig F} {cfg : BoardConfig F}
  {s s' : Uros R F E I} {a : UrosAct R E I}

-- ================================================================== the way

/-- The steps up to `AGENT_CONNECTED`, if none fails. -/
def toGo (s : Uros R F E I) : Nat :=
  match s.pc with
  | .head =>
      match s.state with
      | .agentDisconnected => 24
      | .waitingAgent => 14
      | .agentAvailable => 12
      | .agentConnected => 0
  | .fullStop => 23
  | .destroy rest => 15 + rest.length
  | .pingWaiting _ => 13
  | .create rest => 2 + rest.length
  | .sync => 1
  | .pingConnected _ => 0
  | .spin => 0

/-- The loop of `uros_task` is the only one that goes on for long: the
lists of calls are short, and it spins and pings a second time only when
connected. -/
structure Orderly (s : Uros R F E I) : Prop where
  create : ∀ rest, s.pc = .create rest → rest.length ≤ 9
  destroy : ∀ rest, s.pc = .destroy rest → rest.length ≤ 7
  spin : s.pc = .spin → s.state = .agentConnected
  ping : ∀ n, s.pc = .pingConnected n → s.state = .agentConnected

omit [CFloat F] in
theorem Orderly.toGo_le (h : s.Orderly) : s.toGo ≤ 24 := by
  unfold toGo
  split
  · split <;> omega
  · omega
  · next rest hpc =>
      have := h.destroy rest hpc
      omega
  · omega
  · next rest hpc =>
      have := h.create rest hpc
      omega
  · omega
  · omega
  · omega

omit [CFloat F] in
/-- In any other place of the loop there is nothing to show. -/
theorem orderly_of_pc (hcreate : ∀ rest, s.pc ≠ .create rest)
    (hdestroy : ∀ rest, s.pc ≠ .destroy rest) (hspin : s.pc ≠ .spin)
    (hping : ∀ n, s.pc ≠ .pingConnected n) : s.Orderly where
  create rest hpc := absurd hpc (hcreate rest)
  destroy rest hpc := absurd hpc (hdestroy rest)
  spin hpc := absurd hpc hspin
  ping n hpc := absurd hpc (hping n)

omit [CFloat F] in
theorem orderly_rccheck {ok : Bool} {rest : List CreateCall}
    (h : rest.length ≤ 9) (u : Uros R F E I) :
    (rccheck ok rest u).Orderly := by
  cases ok with
  | true =>
      refine ⟨fun r hr => ?_, nofun, nofun, nofun⟩
      cases hr
      exact h
  | false =>
      refine ⟨nofun, fun r hr => ?_, nofun, nofun⟩
      cases hr
      exact le_rfl

theorem Orderly.step (h : s.Orderly) (hmoves : Moves T s s') :
    s'.Orderly := by
  cases hmoves with
  | clock | ctrl | notDue | callback =>
      exact ⟨h.create, h.destroy, h.spin, h.ping⟩
  | askWaiting | setFrames | destroyed | pongWaiting | fullStop | spun
  | synced =>
      exact orderly_of_pc (fun _ => nofun) (fun _ => nofun) nofun
        (fun _ => nofun)
  | createEntities =>
      refine ⟨fun rest hr => ?_, nofun, nofun, nofun⟩
      cases hr
      exact le_rfl
  | askConnected hpc hst => exact ⟨nofun, nofun, nofun, fun _ _ => hst⟩
  | spinSome hpc hst => exact ⟨nofun, nofun, fun _ => hst, nofun⟩
  | fullStopWrite =>
      refine ⟨nofun, fun rest hr => ?_, nofun, nofun⟩
      cases hr
      exact le_rfl
  | pongConnected ok n hpc =>
      cases ok with
      | true => exact ⟨nofun, nofun, fun _ => rfl, nofun⟩
      | false => exact ⟨nofun, nofun, nofun, nofun⟩
  | init e rest ans hpc =>
      have := h.create _ hpc
      exact orderly_rccheck (Nat.le_of_succ_le this) _
  | executor c rest ans hpc =>
      have := h.create _ hpc
      exact orderly_rccheck (Nat.le_of_succ_le this) _
  | fini e rest ans hpc =>
      have := h.destroy _ hpc
      refine ⟨nofun, fun r hr => ?_, nofun, nofun⟩
      cases hr
      exact Nat.le_of_succ_le this

theorem orderly_of_reachable (h : (firmware R E I T cfg).Reachable s) :
    s.Orderly := by
  refine h.invariant ?_ fun s a s' hs happ => hs.step (moves_of_apply happ)
  rintro s ⟨y, -, rfl⟩
  exact orderly_of_pc (fun _ => nofun) (fun _ => nofun) nofun
    (fun _ => nofun)

-- ============================================================ a step of it

omit [CFloat F] in
/-- What comes back of the step is no failure. -/
def answered (s : Uros R F E I) : UrosAct R E I → Bool
  | .ping ok => ok
  | .rcl a =>
      match s.pc with
      | .create (.init e :: _) => (R.init e a (s.handles e)).1
      | .create (.executor c :: _) =>
          (R.executorCall c a (s.handles .executor)).1
      | _ => true
  | _ => true

/-- The agent is there, and rcl has what it needs. -/
def Answered (s : Uros R F E I) (a : UrosAct R E I) : Prop :=
  s.answered a = true

instance (s : Uros R F E I) (a : UrosAct R E I) :
    Decidable (s.Answered a) :=
  inferInstanceAs (Decidable (_ = true))

/-- At the gate of `WAITING_AGENT`, which is shut. -/
def idles (s : Uros R F E I) : Bool :=
  s.pc = .head && s.state = .waitingAgent
    && !due 500 (linoMillis s.sys.time) s.lastWaiting

/-- A step of `uros_task` that does not idle. -/
def works (s : Uros R F E I) : UrosAct R E I → Bool
  | .clock => false
  | .ctrl _ _ => false
  | .task => !s.idles
  | _ => true

-- =============================================================== the gate

/-- How many ms ago the gate of `WAITING_AGENT` was last passed, as it
reckons. -/
def waited (s : Uros R F E I) : Nat :=
  (linoMillis s.sys.time - s.lastWaiting).toNat

omit [CFloat F] in
theorem idles_iff : s.idles = true
    ↔ s.pc = .head ∧ s.state = .waitingAgent ∧ s.waited ≤ 500 := by
  have hshut : (!due 500 (linoMillis s.sys.time) s.lastWaiting) = true
      ↔ s.waited ≤ 500 := by
    simp only [due, Bool.not_eq_true', decide_eq_false_iff_not,
      BitVec.not_lt]
    exact Iff.rfl
  rw [idles, Bool.and_eq_true, Bool.and_eq_true, decide_eq_true_iff,
    decide_eq_true_iff, hshut, and_assoc]

/-- At the shut gate time passes, and nothing else changes that it looks
at. -/
theorem waited_step (hidles : s.idles = true)
    (happ : apply T a s = some s') :
    (s'.sys.time = s.sys.time + 1 ∧ s'.waited = s.waited + 1)
      ∨ s'.sys.time = s.sys.time ∧ s'.waited = s.waited := by
  obtain ⟨hpc, hst, hshut⟩ := idles_iff.mp hidles
  cases a with
  | clock =>
      cases happ
      have hms : linoMillis (s.sys.time + 1) = linoMillis s.sys.time + 1 :=
        BitVec.ofNat_add _ _
      refine Or.inl ⟨rfl, ?_⟩
      simp only [waited] at hshut ⊢
      rw [hms]
      bv_omega
  | ctrl inp bus =>
      cases happ
      have htime : (s.sys.ctrlStep T inp bus).time = s.sys.time :=
        System.ctrlStep_time T inp bus s.sys
      refine Or.inr ⟨htime, ?_⟩
      simp only [waited, htime]
  | task =>
      simp only [apply, taskStep, hpc, hst] at happ
      split at happ <;> cases happ <;> exact Or.inr ⟨rfl, rfl⟩
  | ping ok => simp [apply, pingStep, hpc] at happ
  | rcl ans => simp [apply, rclStep, hpc] at happ
  | sync ns => simp [apply, syncStep, hpc] at happ
  | callback c => simp [apply, callbackStep, hpc] at happ

/-- No run idles for longer than 501 ms: by then the gate has opened, if
`uros_task` was at it at all. -/
theorem gate_opens {as : List (UrosAct R E I)}
    (hrun : (firmware R E I T cfg).run as s = some s')
    (hlong : s.sys.time + (501 - s.waited) < s'.sys.time) :
    ∃ pre u, pre <+: as ∧ (firmware R E I T cfg).run pre s = some u
      ∧ u.idles = false := by
  induction as generalizing s with
  | nil =>
      cases hrun
      omega
  | cons a as ih =>
      cases hidles : s.idles with
      | false => exact ⟨[], s, List.nil_prefix, rfl, hidles⟩
      | true =>
          obtain ⟨t, happ, hrest⟩ := Lib.Machine.run_cons.mp hrun
          obtain ⟨-, -, hshut⟩ := idles_iff.mp hidles
          have hleft : t.sys.time + (501 - t.waited) < s'.sys.time := by
            rcases waited_step hidles happ with ⟨htime, hwaited⟩ |
              ⟨htime, hwaited⟩ <;> omega
          obtain ⟨pre, u, hpre, hu, hopen⟩ := ih hrest hleft
          exact ⟨a :: pre, u, List.cons_prefix_cons.mpr ⟨rfl, hpre⟩,
            Lib.Machine.run_cons.mpr ⟨t, happ, hu⟩, hopen⟩

-- ========================================================= the way back

theorem toGo_task (hnot : s.state ≠ .agentConnected)
    (h : s.taskStep T = some s') :
    s'.toGo + (if s.works .task then 1 else 0) ≤ s.toGo := by
  unfold taskStep at h
  split at h
  · next hpc =>
    split at h
    · next hst =>
      split at h
      · cases h
        simp only [toGo, hpc, hst]
        split <;> omega
      · next hshut =>
        cases h
        have hidles : s.idles = true := by
          rw [idles, hpc, hst, Bool.eq_false_of_not_eq_true hshut]
          rfl
        simp [works, hidles]
    · next hst =>
      cases h
      simp only [toGo, hpc, hst, createCalls, List.length]
      split <;> omega
    · next hst => exact absurd hst hnot
    · next hst =>
      obtain ⟨y, -, rfl⟩ := Option.map_eq_some_iff.mp h
      simp only [toGo, hpc, hst]
      split <;> omega
  · next hpc =>
    cases h
    simp only [toGo, hpc, List.length]
    split <;> omega
  · next hpc =>
    obtain ⟨y, -, rfl⟩ := Option.map_eq_some_iff.mp h
    simp only [toGo, hpc, destroyOrder, List.length]
    split <;> omega
  · next hpc =>
    cases h
    simp only [toGo, hpc, List.length]
    split <;> omega
  · cases h

/-- A step takes its share off `toGo`, or connects. -/
theorem toGo_step (ho : s.Orderly) (hnot : s.state ≠ .agentConnected)
    (hans : s.Answered a) (happ : apply T a s = some s') :
    s'.state = .agentConnected
      ∨ s'.toGo + (if s.works a then 1 else 0) ≤ s.toGo := by
  cases a with
  | clock =>
      cases happ
      exact Or.inr le_rfl
  | ctrl inp bus =>
      cases happ
      exact Or.inr le_rfl
  | task => exact Or.inr (toGo_task hnot happ)
  | ping ok =>
      have hok : ok = true := hans
      subst hok
      simp only [apply, pingStep] at happ
      split at happ
      · next now hpc =>
        cases happ
        right
        simp [toGo, hpc, works]
      · cases happ
        exact Or.inl rfl
      · cases happ
  | rcl ans =>
      simp only [apply, rclStep] at happ
      simp only [Answered, answered] at hans
      split at happ
      · next e rest hpc =>
        rw [hpc] at hans
        cases happ
        right
        simp only [hans, rccheck, if_true, toGo, hpc, works, List.length]
        omega
      · next c rest hpc =>
        rw [hpc] at hans
        cases happ
        right
        simp only [hans, rccheck, if_true, toGo, hpc, works, List.length]
        omega
      · next hpc => exact absurd (ho.spin hpc) hnot
      · next e rest hpc =>
        cases happ
        right
        simp only [toGo, hpc, works, if_true, List.length]
        omega
      · cases happ
  | sync ns =>
      simp only [apply, syncStep] at happ
      split at happ
      · cases happ
        exact Or.inl rfl
      · cases happ
  | callback c =>
      simp only [apply, callbackStep] at happ
      split at happ
      · next hpc => exact absurd (ho.spin hpc) hnot
      · cases happ

/-- From any reachable state, in any run in which pings are answered and
the checked calls into rcl succeed: `uros_task` is connected at some point,
or has taken no more than 24 steps but to idle. -/
theorem recovers {as : List (UrosAct R E I)}
    (h : (firmware R E I T cfg).Reachable s)
    (hans : (firmware R E I T cfg).Along Answered as s)
    (hrun : (firmware R E I T cfg).run as s = some s') :
    (∃ pre u, pre <+: as ∧ (firmware R E I T cfg).run pre s = some u
        ∧ u.state = .agentConnected)
      ∨ (firmware R E I T cfg).count works as s ≤ 24 := by
  have ho : s.Orderly := orderly_of_reachable h
  have hreach := Lib.Machine.run_reaches (M := firmware R E I T cfg)
    (I := Orderly) (G := fun u => u.state = .agentConnected)
    (C := Answered) (w := works) (μ := toGo) ?_ ho hans hrun
  · exact hreach.imp_right fun hle => hle.trans ho.toGo_le
  · intro u a u' hu hnot hcond happ
    exact ⟨hu.step (moves_of_apply happ), toGo_step hu hnot hcond happ⟩

/-- An agent that was connected and is lost. -/
def losing : List (UrosAct boolRcl (encoders ℚ) (ImuDriver.absent ℚ)) :=
  connecting ++ .ping true :: connected ++ [.ping false]

/-- It is there again. -/
def returning : List (UrosAct boolRcl (encoders ℚ) (ImuDriver.absent ℚ)) :=
  List.flatten [[.task, .task], List.replicate 7 (.rcl true), [.task],
    List.replicate 501 .clock, [.task, .ping true, .task],
    List.replicate 9 (.rcl true), [.task, .sync none, .task]]

/-- After 25 steps it has been connected. -/
theorem recovers_returning :
    ∃ s, f446reFirmware.run losing f446reBoot = some s
      ∧ s.state = .agentDisconnected
      ∧ ∃ pre u, pre <+: returning
        ∧ f446reFirmware.run pre s = some u ∧ u.state = .agentConnected := by
  have hlost : (f446reFirmware.run losing f446reBoot).map Uros.state
      = some .agentDisconnected := by
    decide +kernel
  have hback : ((f446reFirmware.run losing f446reBoot).bind fun s =>
      (f446reFirmware.runUnder Answered returning s).map fun _ =>
        f446reFirmware.count works returning s) = some 25 := by
    decide +kernel
  obtain ⟨s, hs, hstate⟩ := Option.map_eq_some_iff.mp hlost
  rw [hs] at hback
  obtain ⟨u, hu, hcount⟩ := Option.map_eq_some_iff.mp hback
  obtain ⟨halong, hrun⟩ := Lib.Machine.along_of_runUnder hu
  refine ⟨s, hs, hstate, ?_⟩
  refine (recovers (Lib.Machine.reachable_of_run f446reFirmware_start hs)
    halong hrun).resolve_right ?_
  show ¬ f446reFirmware.count works returning s ≤ 24
  rw [hcount]
  decide

end LinoStm32.Uros
