/-
The two gates of `uros_task`, `EXECUTE_EVERY_N_MS(500, ..)` and
`EXECUTE_EVERY_N_MS(200, ..)`, in true time.

A gate compares the tick with the one it kept at its last ping, both of
them residues. The difference it sees is at most the true one, so a gate
never opens early (`pings_spaced`), whatever wraps. It may open late: a
difference of a full turn looks like none. Until the tick has wrapped there
is no such difference, and what the gate of `AGENT_CONNECTED` is for holds:
an agent that has stopped answering is listened to for no more than 200 ms
(`unanswered_unspun`).

The second is an argument about what the machine can still do. Either the
gate was last passed before the agent went silent, and then it opens within
200 ms; or a ping has failed since, and no state with a spin in it is
reached again without a ping that succeeds (`Lost`).
-/
import LinoStm32.Proofs.Reconnect

namespace LinoStm32.Uros

variable {R : Rcl} {F : Type} [CFloat F] {E : RpmSource F}
  {I : ImuDriver F} {T : Trig F} {cfg : BoardConfig F}
  {s s' : Uros R F E I} {a : UrosAct R E I}

-- =============================================================== the gates

/-- One of the two gates. -/
inductive Gate
  | waiting
  | connected

namespace Gate

/-- `N` of `EXECUTE_EVERY_N_MS`. -/
def period : Gate → UInt32T
  | waiting => 500
  | connected => 200

/-- In the ping behind the gate, with the clock read before it. -/
def pc : Gate → Nat → LoopPc
  | waiting => .pingWaiting
  | connected => .pingConnected

/-- Its `_last`. -/
def last : Gate → Uros R F E I → UInt32T
  | waiting, s => s.lastWaiting
  | connected, s => s.lastConnected

end Gate

/-- A gate that opens does so later than its period after what it keeps. -/
theorem lt_of_due {ms : UInt32T} {L t : Nat} (hL : L ≤ t)
    (h : due ms (linoMillis t) (linoMillis L) = true) :
    L + ms.toNat < t := by
  have hlt : ms.toNat < (linoMillis t - linoMillis L).toNat :=
    of_decide_eq_true h
  rw [linoMillis, linoMillis, Lib.elapsed 32 hL] at hlt
  have hle := Nat.mod_le (t - L) (2 ^ 32)
  omega

/-- Until the tick has wrapped, one that stays shut does so no later. -/
theorem le_of_not_due {ms : UInt32T} {L t : Nat} (hL : L ≤ t)
    (ht : t < 2 ^ 32) (h : due ms (linoMillis t) (linoMillis L) = false) :
    t ≤ L + ms.toNat := by
  have hle : ¬ ms.toNat < (linoMillis t - linoMillis L).toNat :=
    of_decide_eq_false h
  rw [linoMillis, linoMillis, Lib.elapsed_of_lt 32 hL (by omega)] at hle
  omega

-- ================================================== what a step does to them

section Unchanged

omit [CFloat F]

theorem rccheck_pc_ne (g : Gate) (ok : Bool) (rest : List CreateCall)
    (u : Uros R F E I) {n : Nat} : (rccheck ok rest u).pc ≠ g.pc n := by
  cases ok <;> cases g <;> exact nofun

theorem rccheck_pc_ne_spin (ok : Bool) (rest : List CreateCall)
    (u : Uros R F E I) : (rccheck ok rest u).pc ≠ .spin := by
  cases ok <;> exact nofun

theorem rccheck_last (g : Gate) (ok : Bool) (rest : List CreateCall)
    (u : Uros R F E I) : g.last (rccheck ok rest u) = g.last u := by
  cases ok <;> cases g <;> rfl

theorem setFrameIds_last (g : Gate) (u : Uros R F E I) :
    g.last u.setFrameIds = g.last u := by
  unfold setFrameIds
  split
  · rfl
  · cases g <;> rfl

theorem last_setHandle (g : Gate) (u : Uros R F E I) (e : Entity)
    (h : R.Handle) (l : List Event) :
    g.last { u.setHandle e h with trace := l } = g.last u := by
  cases g <;> rfl

theorem last_pc (g : Gate) (u : Uros R F E I) (p : LoopPc) :
    g.last { u with pc := p } = g.last u := by
  cases g <;> rfl

end Unchanged

/-- The head of the loop asks when the gate of its state is open. -/
theorem ask_of_taskStep (g : Gate) {n : Nat} (h : s.taskStep T = some s')
    (hpc : s'.pc = g.pc n) :
    due g.period (linoMillis s.sys.time) (g.last s) = true
      ∧ n = s.sys.time := by
  unfold taskStep at h
  split at h
  · split at h
    · split at h
      · next hdue =>
          cases h
          cases g with
          | waiting => exact ⟨hdue, (LoopPc.pingWaiting.inj hpc).symm⟩
          | connected => cases hpc
      · next hhead _ _ _ =>
          cases h
          rw [hhead] at hpc
          cases g <;> cases hpc
    · cases h
      cases g <;> cases hpc
    · split at h
      · next hdue =>
          cases h
          cases g with
          | waiting => cases hpc
          | connected => exact ⟨hdue, (LoopPc.pingConnected.inj hpc).symm⟩
      · cases h
        cases g <;> cases hpc
    · obtain ⟨y, -, rfl⟩ := Option.map_eq_some_iff.mp h
      cases g <;> cases hpc
  · cases h
    cases g <;> cases hpc
  · obtain ⟨y, -, rfl⟩ := Option.map_eq_some_iff.mp h
    cases g <;> cases hpc
  · cases h
    cases g <;> cases hpc
  · cases h

/-- A ping that is under way was so before, or its gate has just opened. -/
theorem ask_of_apply (g : Gate) {n : Nat} (h : apply T a s = some s')
    (hpc : s'.pc = g.pc n) :
    s.pc = g.pc n
      ∨ (due g.period (linoMillis s.sys.time) (g.last s) = true
        ∧ n = s.sys.time) := by
  cases a with
  | task => exact Or.inr (ask_of_taskStep g h hpc)
  | clock =>
      cases h
      exact Or.inl hpc
  | ctrl inp bus =>
      cases h
      exact Or.inl hpc
  | ping ok =>
      simp only [apply, pingStep] at h
      split at h
      · cases h
        cases g <;> cases hpc
      · cases h
        cases ok <;> cases g <;> cases hpc
      · cases h
  | rcl ans =>
      simp only [apply, rclStep] at h
      split at h
      · cases h
        exact absurd hpc (rccheck_pc_ne g _ _ _)
      · cases h
        exact absurd hpc (rccheck_pc_ne g _ _ _)
      · split at h
        · cases h
          cases g <;> cases hpc
        · cases h
      · cases h
        cases g <;> cases hpc
      · cases h
  | sync epochNanos =>
      simp only [apply, syncStep] at h
      split at h
      · cases h
        cases g <;> cases hpc
      · cases h
  | callback c =>
      simp only [apply, callbackStep] at h
      split at h
      · obtain ⟨y, -, rfl⟩ := Option.map_eq_some_iff.mp h
        exact Or.inl hpc
      · cases h

/-- What a gate keeps is written only when its ping returns. -/
theorem Moves.last (g : Gate) (h : Moves T s s') :
    g.last s' = g.last s
      ∨ ∃ n, s.pc = g.pc n ∧ g.last s' = linoMillis n
        ∧ ∀ n', s'.pc ≠ g.pc n' := by
  cases h with
  | pongWaiting ok n hpc =>
      cases g with
      | waiting => exact Or.inr ⟨n, hpc, rfl, fun _ => nofun⟩
      | connected => exact Or.inl rfl
  | pongConnected ok n hpc =>
      cases g with
      | waiting => exact Or.inl rfl
      | connected =>
          refine Or.inr ⟨n, hpc, rfl, fun n' => ?_⟩
          cases ok <;> exact nofun
  | init e rest a hpc =>
      exact Or.inl ((rccheck_last g _ _ _).trans (last_setHandle g s _ _ _))
  | executor c rest a hpc =>
      exact Or.inl ((rccheck_last g _ _ _).trans (last_setHandle g s _ _ _))
  | setFrames hpc =>
      exact Or.inl ((last_pc g _ _).trans (setFrameIds_last g s))
  | _ => cases g <;> exact Or.inl rfl

/-- The return of a ping. -/
theorem pong_of_apply (g : Gate) {ok : Bool} {n : Nat}
    (h : apply T (.ping ok) s = some s') (hpc : s.pc = g.pc n) :
    s'.sys = s.sys ∧ g.last s' = linoMillis n ∧ ∀ n', s'.pc ≠ g.pc n' := by
  cases g with
  | waiting =>
      simp only [apply, pingStep, hpc, Gate.pc] at h
      cases h
      refine ⟨rfl, rfl, fun n' hask => ?_⟩
      cases hask
  | connected =>
      simp only [apply, pingStep, hpc, Gate.pc] at h
      cases h
      refine ⟨rfl, rfl, fun n' hask => ?_⟩
      cases ok <;> cases hask

-- =========================================================== no ping is early

/-- No ping behind the gate is under way that began within its period of
`now`, nor will one begin. -/
structure Spaced (g : Gate) (now : Nat) (s : Uros R F E I) : Prop where
  last : ∃ L, now ≤ L ∧ L ≤ s.sys.time ∧ g.last s = linoMillis L
  ping : ∀ n, s.pc = g.pc n → now + g.period.toNat < n ∧ n ≤ s.sys.time

theorem Spaced.step {g : Gate} {now : Nat} (h : Spaced g now s)
    (happ : apply T a s = some s') : Spaced g now s' := by
  have hmoves := moves_of_apply happ
  have htime := hmoves.time_le
  obtain ⟨L, hnow, hL, hlast⟩ := h.last
  constructor
  · rcases hmoves.last g with hkeep | ⟨n, hpc, hwrite, -⟩
    · exact ⟨L, hnow, hL.trans htime, hkeep.trans hlast⟩
    · obtain ⟨hlt, hle⟩ := h.ping n hpc
      exact ⟨n, by omega, hle.trans htime, hwrite⟩
  · intro n hpc
    rcases ask_of_apply g happ hpc with hsame | ⟨hdue, rfl⟩
    · obtain ⟨hlt, hle⟩ := h.ping n hsame
      exact ⟨hlt, hle.trans htime⟩
    · rw [hlast] at hdue
      have hlt := lt_of_due hL hdue
      exact ⟨by omega, htime⟩

/-- What a gate keeps is a tick that has been, and so is what its ping
read. -/
structure Clocked (g : Gate) (s : Uros R F E I) : Prop where
  last : ∃ L, L ≤ s.sys.time ∧ g.last s = linoMillis L
  ping : ∀ n, s.pc = g.pc n → n ≤ s.sys.time

theorem clocked_of_reachable (g : Gate)
    (h : (firmware R E I T cfg).Reachable s) : Clocked g s := by
  refine h.invariant ?_ ?_
  · rintro s ⟨y, hy, rfl⟩
    refine ⟨⟨0, Nat.zero_le _, ?_⟩, fun n hpc => ?_⟩
    · cases g <;> rfl
    · cases g <;> cases hpc
  · intro s a s' hs happ
    have hmoves := moves_of_apply happ
    have htime := hmoves.time_le
    constructor
    · rcases hmoves.last g with hkeep | ⟨n, hpc, hwrite, -⟩
      · obtain ⟨L, hL, hlast⟩ := hs.last
        exact ⟨L, hL.trans htime, hkeep.trans hlast⟩
      · exact ⟨n, (hs.ping n hpc).trans htime, hwrite⟩
    · intro n hpc
      rcases ask_of_apply g happ hpc with hsame | ⟨-, rfl⟩
      · exact (hs.ping n hsame).trans htime
      · exact htime

/-- When a ping that began at `now` has returned, no other behind the same
gate begins within its period, in any run from there. -/
theorem pings_spaced (g : Gate) {now now' : Nat} {ok : Bool}
    {s₁ s₂ : Uros R F E I} {as : List (UrosAct R E I)}
    (h : (firmware R E I T cfg).Reachable s) (hpc : s.pc = g.pc now)
    (hpong : apply T (.ping ok) s = some s₁)
    (hrun : (firmware R E I T cfg).run as s₁ = some s₂)
    (hpc' : s₂.pc = g.pc now') : now + g.period.toNat < now' := by
  have hnow := (clocked_of_reachable g h).ping now hpc
  obtain ⟨hsys, hlast, hnot⟩ := pong_of_apply g hpong hpc
  have hspaced : Spaced g now s₁ :=
    ⟨⟨now, le_rfl, hsys ▸ hnow, hlast⟩, fun n hn => absurd hn (hnot n)⟩
  have hend := Lib.Machine.run_invariant (C := fun _ => True)
    (fun s a s' hs _ happ => hs.step happ) hspaced (fun _ _ => trivial) hrun
  exact (hend.ping now' hpc').1

/-- Up to the first ping of `AGENT_CONNECTED`. -/
def connecting :
    List (UrosAct boolRcl (encoders ℚ) (ImuDriver.absent ℚ)) :=
  List.flatten [
    [.task, .ping true, .task], List.replicate 9 (.rcl true),
    [.task, .sync none, .task]]

/-- From its return to the next. -/
def connected :
    List (UrosAct boolRcl (encoders ℚ) (ImuDriver.absent ℚ)) :=
  List.flatten [
    [.rcl true], List.replicate 100 .clock, [.task, .rcl true],
    List.replicate 101 .clock, [.task]]

theorem connecting_runs :
    (f446reFirmware.run connecting f446reBoot).map Uros.pc
      = some (.pingConnected 1000) := by
  decide +kernel

theorem connected_runs :
    (f446reFirmware.run (connecting ++ .ping true :: connected)
      f446reBoot).map Uros.pc = some (.pingConnected 1201) := by
  decide +kernel

/-- Two pings, 201 ms apart. -/
theorem pings_spaced_f446re :
    ∃ s s₁ s₂, f446reFirmware.run connecting f446reBoot = some s
      ∧ f446reFirmware.apply (.ping true) s = some s₁
      ∧ f446reFirmware.run connected s₁ = some s₂
      ∧ s.pc = .pingConnected 1000 ∧ s₂.pc = .pingConnected 1201
      ∧ 1000 + 200 < 1201 := by
  obtain ⟨s₂, hrun, hpc₂⟩ := Option.map_eq_some_iff.mp connected_runs
  obtain ⟨s, hs, hrest⟩ := Lib.Machine.run_append.mp hrun
  obtain ⟨s₁, hping, hrun'⟩ := Lib.Machine.run_cons.mp hrest
  have hpc : s.pc = .pingConnected 1000 := by
    have hruns := connecting_runs
    rw [hs] at hruns
    exact Option.some.inj hruns
  exact ⟨s, s₁, s₂, hs, hping, hrun', hpc, hpc₂,
    pings_spaced .connected
      (Lib.Machine.reachable_of_run f446reFirmware_start hs) hpc hping hrun'
      hpc₂⟩

-- ========================================================= a silent agent

/-- Nothing but a ping that succeeds leads to a spin from here. -/
inductive Lost (s : Uros R F E I) : Prop
  | waiting : s.pc = .head → s.state = .waitingAgent → Lost s
  | disconnected : s.pc = .head → s.state = .agentDisconnected → Lost s
  | asking (n : Nat) : s.pc = .pingWaiting n → Lost s
  | fullStop : s.pc = .fullStop → Lost s
  | destroy (rest : List Entity) : s.pc = .destroy rest → Lost s

omit [CFloat F] in
theorem Lost.congr {u : Uros R F E I} (h : Lost s) (hpc : u.pc = s.pc)
    (hstate : u.state = s.state) : Lost u := by
  cases h with
  | waiting hp hs => exact .waiting (hpc.trans hp) (hstate.trans hs)
  | disconnected hp hs => exact .disconnected (hpc.trans hp) (hstate.trans hs)
  | asking n hp => exact .asking n (hpc.trans hp)
  | fullStop hp => exact .fullStop (hpc.trans hp)
  | destroy rest hp => exact .destroy rest (hpc.trans hp)

omit [CFloat F] in
theorem Lost.pc_ne (h : Lost s) :
    s.pc ≠ .spin ∧ s.pc ≠ .sync ∧ (∀ n, s.pc ≠ .pingConnected n)
      ∧ ∀ rest, s.pc ≠ .create rest := by
  cases h with
  | waiting hp _ => rw [hp]; exact ⟨nofun, nofun, nofun, nofun⟩
  | disconnected hp _ => rw [hp]; exact ⟨nofun, nofun, nofun, nofun⟩
  | asking n hp => rw [hp]; exact ⟨nofun, nofun, nofun, nofun⟩
  | fullStop hp => rw [hp]; exact ⟨nofun, nofun, nofun, nofun⟩
  | destroy rest hp => rw [hp]; exact ⟨nofun, nofun, nofun, nofun⟩

omit [CFloat F] in
theorem Lost.state_of_head (h : Lost s) (hpc : s.pc = .head) :
    s.state = .waitingAgent ∨ s.state = .agentDisconnected := by
  cases h with
  | waiting _ hs => exact Or.inl hs
  | disconnected _ hs => exact Or.inr hs
  | asking n hp => rw [hpc] at hp; cases hp
  | fullStop hp => rw [hpc] at hp; cases hp
  | destroy rest hp => rw [hpc] at hp; cases hp

/-- During a ping all else that happens is the tick and `control_task`; one
that returns has failed. -/
theorem fail_of_apply (g : Gate) {n : Nat} (hpc : s.pc = g.pc n)
    (ha : a ≠ .ping true) (happ : apply T a s = some s') :
    (s'.pc = s.pc ∧ g.last s' = g.last s) ∨ Lost s' := by
  cases a with
  | clock =>
      cases happ
      exact Or.inl ⟨rfl, by cases g <;> rfl⟩
  | ctrl inp bus =>
      cases happ
      exact Or.inl ⟨rfl, by cases g <;> rfl⟩
  | ping ok =>
      cases ok with
      | true => exact absurd rfl ha
      | false =>
          right
          cases g with
          | waiting =>
              simp only [apply, pingStep, hpc, Gate.pc] at happ
              cases happ
              exact .waiting rfl rfl
          | connected =>
              simp only [apply, pingStep, hpc, Gate.pc] at happ
              cases happ
              exact .disconnected rfl rfl
  | task => cases g <;> simp [apply, taskStep, hpc, Gate.pc] at happ
  | rcl ans => cases g <;> simp [apply, rclStep, hpc, Gate.pc] at happ
  | sync ns => cases g <;> simp [apply, syncStep, hpc, Gate.pc] at happ
  | callback c =>
      cases g <;> simp [apply, callbackStep, hpc, Gate.pc] at happ

/-- A failed ping of `AGENT_CONNECTED` leads here, and only a ping that
succeeds leads away. -/
theorem Lost.step (h : Lost s) (ha : a ≠ .ping true)
    (happ : apply T a s = some s') : Lost s' := by
  obtain ⟨hspin, hsync, hconn, hcreate⟩ := h.pc_ne
  have hhead := h.state_of_head
  cases moves_of_apply happ with
  | clock => exact h.congr rfl rfl
  | ctrl inp bus => exact h.congr rfl rfl
  | notDue _ _ => exact h
  | askWaiting _ _ => exact .asking _ rfl
  | fullStop y _ _ _ => exact .fullStop rfl
  | fullStopWrite y _ _ => exact .destroy _ rfl
  | destroyed _ => exact .waiting rfl rfl
  | fini e rest ans hpc => exact .destroy _ rfl
  | pongWaiting ok n hpc =>
      rcases fail_of_apply .waiting hpc ha happ with ⟨hsame, -⟩ | hlost
      · rw [hpc] at hsame
        cases hsame
      · exact hlost
  | createEntities hpc hst => simp [hst] at hhead; exact absurd hpc hhead
  | askConnected hpc hst => simp [hst] at hhead; exact absurd hpc hhead
  | spinSome hpc hst => simp [hst] at hhead; exact absurd hpc hhead
  | setFrames hpc => exact absurd hpc (hcreate _)
  | pongConnected ok n hpc => exact absurd hpc (hconn n)
  | init e rest ans hpc => exact absurd hpc (hcreate _)
  | executor c rest ans hpc => exact absurd hpc (hcreate _)
  | spun ans hpc _ => exact absurd hpc hspin
  | synced _ hpc => exact absurd hpc hsync
  | callback c y hpc _ => exact absurd hpc hspin

/-- The gate of `AGENT_CONNECTED` was last passed by `t₀`, or the agent is
given up. -/
def Silent (t₀ : Nat) (s : Uros R F E I) : Prop :=
  (∃ L, L ≤ t₀ ∧ s.lastConnected = linoMillis L) ∨ Lost s

theorem Silent.step {t₀ : Nat} (h : Silent t₀ s) (ha : a ≠ .ping true)
    (happ : apply T a s = some s') : Silent t₀ s' := by
  rcases h with ⟨L, hL, hlast⟩ | hlost
  · rcases (moves_of_apply happ).last .connected with hkeep | ⟨n, hpc, -, hne⟩
    · exact Or.inl ⟨L, hL, hkeep.trans hlast⟩
    · rcases fail_of_apply .connected hpc ha happ with ⟨hsame, -⟩ | hlost
      · exact absurd (hsame.trans hpc) (hne n)
      · exact Or.inr hlost
  · exact Or.inr (hlost.step ha happ)

/-- A spin begins after a ping that succeeded, or at a head at which the
gate is shut. -/
theorem spin_of_apply (happ : apply T a s = some s') (ha : a ≠ .ping true)
    (hpc : s.pc ≠ .spin) (hpc' : s'.pc = .spin) :
    s.pc = .head ∧ s.state = .agentConnected
      ∧ due 200 (linoMillis s.sys.time) s.lastConnected = false := by
  cases a with
  | task =>
      simp only [apply, taskStep] at happ
      split at happ
      · next hhead =>
        split at happ
        · split at happ
          · cases happ; cases hpc'
          · cases happ; exact absurd hpc' hpc
        · cases happ; cases hpc'
        · next hst =>
          split at happ
          · cases happ; cases hpc'
          · next hshut => exact ⟨hhead, hst, Bool.eq_false_of_not_eq_true hshut⟩
        · obtain ⟨y, -, rfl⟩ := Option.map_eq_some_iff.mp happ
          cases hpc'
      · cases happ; cases hpc'
      · obtain ⟨y, -, rfl⟩ := Option.map_eq_some_iff.mp happ
        cases hpc'
      · cases happ; cases hpc'
      · cases happ
  | ping ok =>
      cases ok with
      | true => exact absurd rfl ha
      | false =>
          simp only [apply, pingStep] at happ
          split at happ
          · cases happ; cases hpc'
          · cases happ; cases hpc'
          · cases happ
  | clock => cases happ; exact absurd hpc' hpc
  | ctrl inp bus => cases happ; exact absurd hpc' hpc
  | rcl ans =>
      simp only [apply, rclStep] at happ
      split at happ
      · cases happ; exact absurd hpc' (rccheck_pc_ne_spin _ _ _)
      · cases happ; exact absurd hpc' (rccheck_pc_ne_spin _ _ _)
      · next hspin => exact absurd hspin hpc
      · cases happ; cases hpc'
      · cases happ
  | sync ns =>
      simp only [apply, syncStep] at happ
      split at happ
      · cases happ; cases hpc'
      · cases happ
  | callback c =>
      simp only [apply, callbackStep] at happ
      cases happ

/-- Until the tick has wrapped, a spin begins within 200 ms of it. -/
theorem Silent.spin_le {t₀ : Nat} (h : Silent t₀ s) (ht₀ : t₀ ≤ s.sys.time)
    (happ : apply T a s = some s') (ha : a ≠ .ping true)
    (hpc : s.pc ≠ .spin) (hpc' : s'.pc = .spin)
    (htime : s.sys.time < 2 ^ 32) : s.sys.time ≤ t₀ + 200 := by
  obtain ⟨hhead, hstate, hshut⟩ := spin_of_apply happ ha hpc hpc'
  rcases h with ⟨L, hL, hlast⟩ | hlost
  · rw [hlast] at hshut
    have hle := le_of_not_due (hL.trans ht₀) htime hshut
    have h200 : (200 : UInt32T).toNat = 200 := rfl
    omega
  · rcases hlost.state_of_head hhead with hst | hst
    · rw [hstate] at hst
      cases hst
    · rw [hstate] at hst
      cases hst

/-- From `s` on no ping succeeds. Then no spin begins later than 200 ms
after `s`, as long as the tick has not wrapped. -/
theorem unanswered_unspun {s₁ s₂ : Uros R F E I}
    {as : List (UrosAct R E I)} (h : (firmware R E I T cfg).Reachable s)
    (hrun : (firmware R E I T cfg).run as s = some s₁)
    (hsilent : ∀ b ∈ as, b ≠ .ping true) (ha : a ≠ .ping true)
    (happ : apply T a s₁ = some s₂) (hpc : s₁.pc ≠ .spin)
    (hpc' : s₂.pc = .spin) (htime : s₁.sys.time < 2 ^ 32) :
    s₁.sys.time ≤ s.sys.time + 200 := by
  obtain ⟨L, hL, hlast⟩ := (clocked_of_reachable .connected h).last
  have hinv : Silent s.sys.time s₁ ∧ s.sys.time ≤ s₁.sys.time := by
    refine Lib.Machine.run_invariant
      (I := fun u => Silent s.sys.time u ∧ s.sys.time ≤ u.sys.time)
      (C := fun b => b ≠ .ping true) ?_ ⟨Or.inl ⟨L, hL, hlast⟩, le_rfl⟩
      hsilent hrun
    intro u b u' hu hb hstep
    exact ⟨hu.1.step hb hstep, hu.2.trans (moves_of_apply hstep).time_le⟩
  exact hinv.1.spin_le hinv.2 happ ha hpc hpc' htime

/-- The last spin before a silent agent is noticed. -/
theorem unanswered_unspun_f446re :
    ∃ s s₁ s₂, f446reFirmware.run (connecting ++ [.ping true, .rcl true])
        f446reBoot = some s
      ∧ f446reFirmware.run (List.replicate 200 .clock) s = some s₁
      ∧ f446reFirmware.apply .task s₁ = some s₂ ∧ s₂.pc = .spin
      ∧ s₁.sys.time ≤ s.sys.time + 200 := by
  have hruns : (f446reFirmware.run ((connecting ++ [.ping true, .rcl true])
      ++ List.replicate 200 .clock ++ [.task]) f446reBoot).map Uros.pc
        = some .spin := by
    decide +kernel
  have hbefore : (f446reFirmware.run ((connecting ++ [.ping true, .rcl true])
      ++ List.replicate 200 .clock) f446reBoot).map
        (fun s => (s.pc, s.sys.time)) = some (.head, 1200) := by
    decide +kernel
  obtain ⟨s₂, hrun, hspin⟩ := Option.map_eq_some_iff.mp hruns
  obtain ⟨s₁, hrun₁, htask⟩ := Lib.Machine.run_concat.mp hrun
  obtain ⟨s, hs, hclock⟩ := Lib.Machine.run_append.mp hrun₁
  rw [hrun₁] at hbefore
  have hpair := Option.some.inj hbefore
  have hpc : s₁.pc = .head := congrArg Prod.fst hpair
  have htime : s₁.sys.time = 1200 := congrArg Prod.snd hpair
  refine ⟨s, s₁, s₂, hs, hclock, htask, hspin,
    unanswered_unspun (Lib.Machine.reachable_of_run f446reFirmware_start hs)
      (a := .task) hclock ?_ nofun htask ?_ hspin ?_⟩
  · intro b hb
    rw [List.eq_of_mem_replicate hb]
    exact nofun
  · rw [hpc]
    exact nofun
  · rw [htime]
    decide

end LinoStm32.Uros
