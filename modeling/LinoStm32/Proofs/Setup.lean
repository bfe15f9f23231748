/-
What `destroyEntities` of `Src/main.c` finds when `createEntities` has
failed.

One routine cleans up after a whole session and after an attempt that
stopped at any of its checked calls. It first takes the rmw context from
`support` (`contextSource`), then finalises all seven objects. Six of
them are zeroed at the top of every attempt (`zeroed`), so wherever the
attempt stopped, each is live, still holds its zero value, or holds what
its failed init made of that (`ZeroKept`), and its fini is sound.
`support` is not zeroed: it keeps what the last session left, and is
sound to touch only if its init, the first checked call, succeeded in
this very attempt.

# Where it goes wrong

At that init and nowhere else. When `rclc_support_init` fails, on the
first attempt or on a later one, the next thing that happens is that
`destroyEntities` takes the rmw context from it. If it succeeds, a failure
at any later call and a disconnect find `support` live (`SupportUp`). So
a run destroys safely throughout exactly if no init of `support` in it
fails (`destroys_safely_iff`).
-/
import LinoStm32.Proofs.Reconnect
import LinoStm32.Lib.Window

namespace LinoStm32.Uros

open Lib.Lifecycle

variable {R : Rcl} {F : Type} [CFloat F] {E : RpmSource F}
  {I : ImuDriver F} {T : Trig F} {s s' : Uros R F E I}

-- ======================================================== the vocabulary

/-- What `createEntities` zero-initialises at its top, in order. -/
def zeroed : List Entity :=
  [.executor, .node, .controlTimer, .twistSubscriber, .odomPublisher,
    .imuPublisher]

/-- The events of the attempt, or of the session that came of it: all
since `createEntities` last started. -/
def attempt (l : List Event) : List Event :=
  Lib.window (fun ev => if ev = .createEntities then some () else none) l

/-- The support `rcl_context_get_rmw_context` is called on: that of a
`destroyEntities` that has not finalised anything yet. -/
def contextSource (s : Uros R F E I) : Option R.Handle :=
  if s.pc = .destroy destroyOrder then some (s.handles .support) else none

/-- The object was zeroed in this attempt, and holds that value yet or what
its init, failing in this attempt, made of it. -/
def ZeroedInAttempt (s : Uros R F E I) (e : Entity) : Prop :=
  e ∈ zeroed ∧ .createEntities ∈ s.trace
    ∧ (s.handles e = R.zero e
      ∨ .init e false ∈ attempt s.trace
        ∧ ∃ a, R.init e a (R.zero e) = (false, s.handles e))

/-- What `destroyEntities` may be called on. -/
structure SafeDestroy (s : Uros R F E I) : Prop where
  /-- the rmw context is taken, and its timeout set, only on a live
  support whose init succeeded in this attempt -/
  context : ∀ h, s.contextSource = some h →
    .init .support true ∈ attempt s.trace ∧ R.live .support h = true
  /-- what is finalised next is live, or was zeroed in this attempt -/
  fini : ∀ e rest, s.pc = .destroy (e :: rest) →
    R.live e (s.handles e) = true ∨ s.ZeroedInAttempt e

/-- The checked call of `createEntities` that is under way. -/
def currentCall (s : Uros R F E I) : Option CreateCall :=
  match s.pc with
  | .create rest => rest.head?
  | _ => none

/-- The step is `rclc_support_init` failing. -/
def supportFails (s : Uros R F E I) : UrosAct R E I → Bool
  | .rcl a => decide (s.currentCall = some (.init .support))
      && !(R.init .support a (s.handles .support)).1
  | _ => false

-- ====================================================== the zeroed objects

omit [CFloat F] in
/-- `zeroInit` zeroes these and nothing else. -/
theorem zeroInit_eq (s : Uros R F E I) (e : Entity) :
    s.zeroInit e = if e ∈ zeroed then R.zero e else s.handles e := by
  cases e <;> rfl

/-- `support` is the only object left out. -/
theorem mem_zeroed {e : Entity} (he : e ≠ .support) : e ∈ zeroed := by
  cases e with
  | support => exact absurd rfl he
  | _ => decide

-- ========================================================== the attempts

/-- Whatever is recorded but another start of `createEntities` belongs to
the attempt. -/
theorem attempt_concat {l : List Event} {ev : Event}
    (h : ev ≠ .createEntities) : attempt (l ++ [ev]) = attempt l ++ [ev] :=
  Lib.window_concat_none l (if_neg h)

/-- Every object sees an attempt as one session. -/
theorem attempt_eq_current (e : Entity) (l : List Event) :
    attempt l = current (sign e) l := by
  unfold attempt current
  congr 1
  funext ev
  have hiff : ev = .createEntities ↔ sign e ev = .session :=
    ⟨fun h => h ▸ rfl, eq_createEntities_of_sign⟩
  simp only [hiff]

/-- An object was acquired in the last session if its init succeeded in
the attempt. -/
theorem acquired_iff (e : Entity) (l : List Event) :
    Acquired (sign e) l ↔ .init e true ∈ attempt l := by
  rw [Acquired, ← attempt_eq_current]
  constructor
  · intro h
    obtain ⟨ev, hev, hsign⟩ := h
    exact eq_init_of_sign hsign ▸ hev
  · intro h
    exact ⟨_, h, if_pos ⟨rfl, rfl⟩⟩

section Tracked

variable {ph : Entity → Phase} {e : Entity}

omit [CFloat F] in
/-- An open object had its init in this attempt, -/
theorem Tracked.init_mem (h : Tracked s ph) (he : ph e = .opened) :
    .init e true ∈ attempt s.trace := by
  have hrun := (h e).1
  rw [he] at hrun
  exact (acquired_iff e _).mp (acquired_of_run hrun)

omit [CFloat F] in
/-- a fresh one did not yet, -/
theorem Tracked.init_not_mem (h : Tracked s ph) (he : ph e = .fresh) :
    .init e true ∉ attempt s.trace := by
  have hrun := (h e).1
  rw [he] at hrun
  exact fun hmem => acquired_of_run hrun ((acquired_iff e _).mpr hmem)

omit [CFloat F] in
/-- and in both cases there is an attempt. -/
theorem Tracked.createEntities_mem (h : Tracked s ph)
    (he : ph e ≠ .closed) : .createEntities ∈ s.trace := by
  obtain ⟨ev, hev, hsign⟩ := session_of_not_closed he (h e).1
  exact eq_createEntities_of_sign hsign ▸ hev

omit [CFloat F] in
theorem Tracked.opened_of_live (h : Tracked s ph)
    (he : R.live e (s.handles e) = true) : ph e = .opened := by
  rw [(h e).2] at he
  exact of_decide_eq_true he

end Tracked

-- ======================================================= at a support init

/-- What the return of an init leads to. -/
def initReturns (s : Uros R F E I) (e : Entity) (rest : List CreateCall)
    (ans : R.Answer) : Uros R F E I :=
  rccheck (R.init e ans (s.handles e)).1 rest
    { s.setHandle e (R.init e ans (s.handles e)).2 with
      trace := s.trace ++ [.init e (R.init e ans (s.handles e)).1] }

theorem apply_init {e : Entity} {rest : List CreateCall}
    (hpc : s.pc = .create (.init e :: rest)) (ans : R.Answer) :
    apply T (.rcl ans) s = some (s.initReturns e rest ans) := by
  simp only [apply, rclStep, hpc]
  rfl

/-- At the init of an object all that can happen beside the tick and
`control_task` is that it returns. -/
theorem apply_at_init {a : UrosAct R E I} {e : Entity}
    {rest : List CreateCall} (hpc : s.pc = .create (.init e :: rest))
    (happ : apply T a s = some s') :
    s'.pc = s.pc
      ∨ ∃ ans, a = .rcl ans ∧ s' = s.initReturns e rest ans := by
  cases a with
  | clock => cases happ; exact .inl rfl
  | ctrl inp bus => cases happ; exact .inl rfl
  | task => simp [apply, taskStep, hpc] at happ
  | ping ok => simp [apply, pingStep, hpc] at happ
  | rcl ans =>
      rw [apply_init hpc] at happ
      cases happ
      exact .inr ⟨ans, rfl, rfl⟩
  | sync epochNanos => simp [apply, syncStep, hpc] at happ
  | callback c => simp [apply, callbackStep, hpc] at happ

omit [CFloat F] in
theorem currentCall_eq_some {call : CreateCall} :
    s.currentCall = some call ↔ ∃ rest, s.pc = .create (call :: rest) := by
  unfold currentCall
  cases s.pc with
  | create rest => simp [List.head?_eq_some_iff]
  | _ => simp

omit [CFloat F] in
theorem supportFails_rcl {ans : R.Answer} :
    s.supportFails (.rcl ans : UrosAct R E I) = true
      ↔ (∃ rest, s.pc = .create (.init .support :: rest))
        ∧ (R.init .support ans (s.handles .support)).1 = false := by
  rw [supportFails, Bool.and_eq_true, decide_eq_true_iff,
    currentCall_eq_some, Bool.not_eq_true']

/-- A failed support init is followed by a `destroyEntities` that takes
the rmw context from a support that was not initialised in this attempt:
its init came too early in it to have succeeded before. -/
theorem Objects.unsafe_of_supportFails (hobj : Objects s)
    {a : UrosAct R E I} (hfail : s.supportFails a = true) :
    ∃ s', apply T a s = some s' ∧ ¬ s'.SafeDestroy := by
  obtain ⟨ph, htr, hstage⟩ := hobj
  cases a with
  | rcl ans =>
      obtain ⟨⟨rest, hpc⟩, hok⟩ := supportFails_rcl.mp hfail
      rw [hpc] at hstage
      refine ⟨_, apply_init hpc ans, ?_⟩
      intro hsafe
      rw [initReturns, hok] at hsafe
      have hmem : .init .support true
          ∈ attempt (s.trace ++ [.init .support false]) :=
        (hsafe.context _ (if_pos rfl)).1
      have hne : Event.init .support false ≠ .createEntities := nofun
      rw [attempt_concat hne] at hmem
      rcases List.mem_append.mp hmem with hmem | hmem
      · exact htr.init_not_mem hstage.next_fresh hmem
      · exact absurd (List.mem_singleton.mp hmem) (by decide)
  | _ => cases hfail

-- ========================================= as long as none of it fails

/-- Until `destroyEntities` has come to it, `support` is live. -/
def SupportUp (s : Uros R F E I) : Prop :=
  ∀ rest, s.pc = .destroy rest → .support ∈ rest →
    R.live .support (s.handles .support) = true

/-- The init of `support` is the first checked call, so it is behind at
every other one. -/
theorem support_behind {call : CreateCall} {rest : List CreateCall}
    (hsuf : call :: rest <:+ createCalls) (hne : call ≠ .init .support) :
    .init .support ∉ call :: rest := by
  rcases List.suffix_cons_iff.mp hsuf with heq | htail
  · exact absurd (List.cons.inj heq).1 hne
  · intro hmem
    exact absurd (htail.subset hmem) (by decide)

omit [CFloat F] in
/-- An object whose init is behind is live. -/
theorem Objects.live_of_behind (hobj : Objects s) {rest : List CreateCall}
    (hpc : s.pc = .create rest) {e : Entity} (he : .init e ∉ rest) :
    R.live e (s.handles e) = true := by
  obtain ⟨ph, htr, hstage⟩ := hobj
  rw [hpc] at hstage
  apply htr.live_of_opened
  rw [hstage.2.2 e, if_neg he]

omit [CFloat F] in
theorem Objects.rest_suffix (hobj : Objects s) {rest : List CreateCall}
    (hpc : s.pc = .create rest) : rest <:+ createCalls := by
  obtain ⟨ph, -, hstage⟩ := hobj
  rw [hpc] at hstage
  exact hstage.2.1

omit [CFloat F] in
/-- So `support` is, past its init. -/
theorem Objects.support_live (hobj : Objects s) {call : CreateCall}
    {rest : List CreateCall} (hpc : s.pc = .create (call :: rest))
    (hne : call ≠ .init .support) :
    R.live .support (s.handles .support) = true :=
  hobj.live_of_behind hpc (support_behind (hobj.rest_suffix hpc) hne)

omit [CFloat F] in
theorem setHandle_of_ne {e e' : Entity} (h : e' ≠ e) (hd : R.Handle) :
    (s.setHandle e hd).handles e' = s.handles e' :=
  Function.update_of_ne h _ _

omit [CFloat F] in
/-- `RCCHECK` with `support` live. -/
theorem SupportUp.rccheck {u : Uros R F E I} (ok : Bool)
    (rest : List CreateCall)
    (hlive : R.live .support (u.handles .support) = true) :
    SupportUp (rccheck ok rest u) := by
  cases ok with
  | true => exact nofun
  | false => exact fun _ _ _ => hlive

/-- At the init of `support`, unless it fails, `createEntities` goes on. -/
theorem SupportUp.at_support {rest : List CreateCall}
    (hpc : s.pc = .create (.init .support :: rest)) {a : UrosAct R E I}
    (hstarts : s.supportFails a = false) (happ : apply T a s = some s') :
    SupportUp s' := by
  rcases apply_at_init hpc happ with hsame | ⟨ans, rfl, rfl⟩
  · rw [SupportUp, hsame, hpc]
    exact nofun
  · have hok : (R.init .support ans (s.handles .support)).1 = true := by
      by_contra hc
      rw [supportFails_rcl.mpr ⟨⟨rest, hpc⟩, by simpa using hc⟩] at hstarts
      cases hstarts
    rw [initReturns, hok]
    exact nofun

theorem SupportUp.step (h : SupportUp s) (hobj : Objects s)
    {a : UrosAct R E I} (hstarts : s.supportFails a = false)
    (happ : apply T a s = some s') : SupportUp s' := by
  by_cases hsup : ∃ rest, s.pc = .create (.init .support :: rest)
  · obtain ⟨rest, hpc⟩ := hsup
    exact SupportUp.at_support hpc hstarts happ
  have hm := moves_of_apply happ
  cases hm with
  | clock => exact h
  | ctrl inp bus => exact h
  | notDue _ _ => exact h
  | callback c y _ _ => exact h
  | init e rest ans hpc =>
      have hne : e ≠ .support := fun he => hsup ⟨rest, he ▸ hpc⟩
      have hlive := hobj.support_live hpc
        fun hc => hne (CreateCall.init.inj hc)
      rw [← setHandle_of_ne hne.symm] at hlive
      exact SupportUp.rccheck _ rest hlive
  | executor c rest ans hpc =>
      have hne : Entity.support ≠ .executor := nofun
      have hlive := hobj.support_live hpc nofun
      rw [← setHandle_of_ne hne] at hlive
      exact SupportUp.rccheck _ rest hlive
  | fullStopWrite y hpc _ =>
      obtain ⟨ph, htr, hstage⟩ := hobj
      rw [hpc] at hstage
      exact fun _ _ _ => htr.live_of_opened (hstage.2 .support)
  | fini e rest ans hpc =>
      obtain ⟨ph, -, hstage⟩ := hobj
      rw [hpc] at hstage
      intro rest' hrest hmem
      cases hrest
      -- an object has one fini, so this is not that of `support`
      have hnodup := hstage.2.1.sublist.nodup destroyOrder_nodup
      have hne : .support ≠ e := fun he =>
        (List.nodup_cons.mp hnodup).1 (he ▸ hmem)
      have hlive := h _ hpc (List.mem_cons_of_mem e hmem)
      rw [← setHandle_of_ne hne] at hlive
      exact hlive
  | pongConnected ok now _ => cases ok <;> exact nofun
  | _ => exact nofun

-- ================================================== what stays as zeroed

/-- What the attempt has not come to holds its zero value, and what
`destroyEntities` has not come to may be finalised. -/
structure ZeroKept (s : Uros R F E I) : Prop where
  create : ∀ rest, s.pc = .create rest → ∀ e ∈ zeroed, .init e ∈ rest →
    s.handles e = R.zero e
  destroy : ∀ rest, s.pc = .destroy rest → ∀ e ∈ zeroed, e ∈ rest →
    R.live e (s.handles e) = true ∨ s.ZeroedInAttempt e

/-- The checked call is an init. -/
def isInit : CreateCall → Bool
  | .init _ => true
  | .executor _ => false

/-- The inits come first, -/
theorem createCalls_inits_first : createCalls.Pairwise
    fun c d => isInit d = true → isInit c = true := by decide

/-- so none is ahead at a call on the executor. -/
theorem inits_behind {c : ExecutorCall} {rest : List CreateCall}
    (hsuf : .executor c :: rest <:+ createCalls) (e : Entity) :
    .init e ∉ rest := by
  have hsorted := createCalls_inits_first.sublist hsuf.sublist
  intro hmem
  cases (List.pairwise_cons.mp hsorted).1 _ hmem rfl

omit [CFloat F] in
/-- What is recorded of other objects changes nothing for this one. -/
theorem ZeroedInAttempt.concat {e : Entity} {ev : Event}
    (h : s.ZeroedInAttempt e) (hev : ev ≠ .createEntities)
    (htrace : s'.trace = s.trace ++ [ev])
    (hhandle : s'.handles e = s.handles e) : s'.ZeroedInAttempt e := by
  obtain ⟨hlisted, hbegun, hholds⟩ := h
  rw [ZeroedInAttempt, htrace, hhandle, attempt_concat hev]
  refine ⟨hlisted, List.mem_append_left _ hbegun, ?_⟩
  rcases hholds with hzero | ⟨hfailed, hinit⟩
  · exact .inl hzero
  · exact .inr ⟨List.mem_append_left _ hfailed, hinit⟩

omit [CFloat F] in
/-- An init returns: the objects still ahead are untouched, those behind
are live, and its own is live or as a failed init left it. -/
theorem ZeroKept.init (h : ZeroKept s) (hobj : Objects s) {e : Entity}
    {rest : List CreateCall} (hpc : s.pc = .create (.init e :: rest))
    (ans : R.Answer) : ZeroKept (s.initReturns e rest ans) := by
  have hbegun : .createEntities ∈ s.trace := by
    obtain ⟨ph, htr, hstage⟩ := hobj
    rw [hpc] at hstage
    exact htr.createEntities_mem (hstage.create_not_closed e)
  unfold initReturns
  cases hok : (R.init e ans (s.handles e)).1 with
  | true =>
      refine ⟨fun rest' hrest e' he' hmem => ?_, nofun⟩
      cases hrest
      have hnodup := (hobj.rest_suffix hpc).sublist.nodup createCalls_nodup
      have hne : e' ≠ e := fun hee =>
        (List.nodup_cons.mp hnodup).1 (hee ▸ hmem)
      show (s.setHandle e _).handles e' = _
      rw [setHandle_of_ne hne]
      exact h.create _ hpc e' he' (List.mem_cons_of_mem _ hmem)
  | false =>
      refine ⟨nofun, fun _ _ e' he' _ => ?_⟩
      by_cases hee : e' = e
      · subst hee
        right
        have hzero := h.create _ hpc e' he' List.mem_cons_self
        refine ⟨he', List.mem_append_left _ hbegun, .inr ⟨?_, ans, ?_⟩⟩
        · show _ ∈ attempt (s.trace ++ [_])
          have hne : Event.init e' false ≠ .createEntities := nofun
          rw [attempt_concat hne]
          exact List.mem_append_right _ (List.mem_singleton_self _)
        · show _ = (false, Function.update s.handles e' _ e')
          rw [Function.update_self, ← hzero, ← hok]
      · by_cases hahead : .init e' ∈ rest
        · right
          refine ⟨he', List.mem_append_left _ hbegun, .inl ?_⟩
          exact (setHandle_of_ne hee _).trans
            (h.create _ hpc e' he' (List.mem_cons_of_mem _ hahead))
        · left
          have hlive : R.live e' (s.handles e') = true :=
            hobj.live_of_behind hpc (by simp [hee, hahead])
          rw [← setHandle_of_ne hee] at hlive
          exact hlive

omit [CFloat F] in
/-- A call on the executor returns, with every init behind. -/
theorem ZeroKept.executor (hR : R.Documented) (hobj : Objects s)
    {c : ExecutorCall} {rest : List CreateCall}
    (hpc : s.pc = .create (.executor c :: rest)) (ans : R.Answer) :
    ZeroKept (Uros.rccheck (R.executorCall c ans (s.handles .executor)).1
      rest (s.setHandle .executor
        (R.executorCall c ans (s.handles .executor)).2)) := by
  have hbehind := inits_behind (hobj.rest_suffix hpc)
  cases (R.executorCall c ans (s.handles .executor)).1 with
  | true =>
      refine ⟨fun rest' hrest e _ hmem => ?_, nofun⟩
      cases hrest
      exact absurd hmem (hbehind e)
  | false =>
      obtain ⟨ph, htr, hstage⟩ := hobj
      rw [hpc] at hstage
      refine ⟨nofun, fun _ _ e _ _ => .inl ?_⟩
      apply (htr.executorCall hR c ans).live_of_opened
      rw [hstage.2.2 e, if_neg (by simp [hbehind e])]

theorem ZeroKept.step (hR : R.Documented) (h : ZeroKept s)
    (hobj : Objects s) (hm : Moves T s s') : ZeroKept s' := by
  cases hm with
  | clock => exact ⟨h.create, h.destroy⟩
  | ctrl inp bus => exact ⟨h.create, h.destroy⟩
  | notDue _ _ => exact h
  | callback c y _ _ => exact ⟨h.create, h.destroy⟩
  | createEntities _ _ =>
      refine ⟨fun _ _ e he _ => ?_, nofun⟩
      exact (zeroInit_eq s e).trans (if_pos he)
  | init e rest ans hpc => exact h.init hobj hpc ans
  | executor c rest ans hpc => exact ZeroKept.executor hR hobj hpc ans
  | fullStopWrite y hpc _ =>
      obtain ⟨ph, htr, hstage⟩ := hobj
      rw [hpc] at hstage
      exact ⟨nofun, fun _ _ e _ _ => .inl (htr.live_of_opened (hstage.2 e))⟩
  | fini e rest ans hpc =>
      obtain ⟨ph, -, hstage⟩ := hobj
      rw [hpc] at hstage
      refine ⟨nofun, fun rest' hrest e' he' hmem => ?_⟩
      cases hrest
      have hnodup := hstage.2.1.sublist.nodup destroyOrder_nodup
      have hne : e' ≠ e := fun hee =>
        (List.nodup_cons.mp hnodup).1 (hee ▸ hmem)
      have hkeep := setHandle_of_ne (s := s) hne
        (R.fini e ans (s.handles e))
      rcases h.destroy _ hpc e' he' (List.mem_cons_of_mem e hmem)
        with hlive | hzeroed
      · rw [← hkeep] at hlive
        exact .inl hlive
      · have hev : Event.fini e (R.live e (s.handles e))
            ≠ .createEntities := nofun
        exact .inr (hzeroed.concat hev rfl hkeep)
  | pongConnected ok now _ => cases ok <;> exact ⟨nofun, nofun⟩
  | _ => exact ⟨nofun, nofun⟩

-- ======================================================== the whole run

omit [CFloat F] in
/-- With `support` live until its fini, all that `destroyEntities` does is
safe. -/
theorem SupportUp.safe (h : SupportUp s) (hobj : Objects s)
    (hkept : ZeroKept s) : s.SafeDestroy := by
  obtain ⟨ph, htr, hstage⟩ := hobj
  constructor
  · intro hd hsource
    unfold contextSource at hsource
    split at hsource
    · next hpc =>
        cases hsource
        have hlive := h _ hpc (mem_destroyOrder .support)
        exact ⟨htr.init_mem (htr.opened_of_live hlive), hlive⟩
    · cases hsource
  · intro e rest hpc
    by_cases he : e = .support
    · subst he
      exact .inl (h _ hpc List.mem_cons_self)
    · exact hkept.destroy _ hpc e (mem_zeroed he) List.mem_cons_self

/-- In every run in which no init of `support` fails. -/
theorem safe_of_reachableUnder (hR : R.Documented) {cfg : BoardConfig F}
    (h : (firmware R E I T cfg).ReachableUnder
      (fun s a => s.supportFails a = false) s) : s.SafeDestroy := by
  have hinv : Objects s ∧ SupportUp s ∧ ZeroKept s := by
    apply h.invariant
    · intro s hs
      obtain ⟨y, -, rfl⟩ := hs
      exact ⟨Objects.start hR y, nofun, nofun, nofun⟩
    · intro s a s' hinv hstarts happ
      obtain ⟨hobj, hup, hkept⟩ := hinv
      have hm := moves_of_apply happ
      exact ⟨hobj.step hR hm, hup.step hobj hstarts happ,
        hkept.step hR hobj hm⟩
  obtain ⟨hobj, hup, hkept⟩ := hinv
  exact hup.safe hobj hkept

/-- In a run of the firmware, under whatever interleaving of its tasks and
whatever each ping and each call into rcl answers, everything that
`destroyEntities` touches at any moment may be touched exactly if no step
of the run is a failing `rclc_support_init`. -/
theorem destroys_safely_iff (hR : R.Documented) {cfg : BoardConfig F}
    {s₀ : Uros R F E I} (hs : (firmware R E I T cfg).start s₀)
    (as : List (UrosAct R E I)) :
    (∀ pre s, pre <+: as → (firmware R E I T cfg).run pre s₀ = some s →
        s.SafeDestroy)
      ↔ ∀ pre a s, pre ++ [a] <+: as →
        (firmware R E I T cfg).run pre s₀ = some s →
        s.supportFails a = false := by
  constructor
  · intro hsafe pre a s hpre hrun
    by_contra hfail
    have hobj := (inv_reachable hR (.run (.start hs) hrun)).objects
    obtain ⟨s', happ, hunsafe⟩ :=
      hobj.unsafe_of_supportFails (T := T) (by simpa using hfail)
    exact hunsafe (hsafe _ s' hpre
      (Lib.Machine.run_concat.mpr ⟨s, hrun, happ⟩))
  · intro hstarts pre s hpre hrun
    apply safe_of_reachableUnder hR
    refine .of_run hs ?_ hrun
    intro pre' a s' hpre' hrun'
    exact hstarts pre' a s' (hpre'.trans hpre) hrun'

-- ================================================================== runs

/-- An agent that connects and is lost, is found again, and then refuses
the node. -/
def nodeFailing :
    List (UrosAct boolRcl (encoders ℚ) (ImuDriver.absent ℚ)) :=
  List.flatten [
    [.task, .ping true, .task], List.replicate 9 (.rcl true),
    [.task, .sync (some 0)],
    List.replicate 201 .clock, [.task, .ping false, .task, .task],
    List.replicate 7 (.rcl true), [.task],
    List.replicate 501 .clock, [.task, .ping true, .task],
    [.rcl true, .rcl false], List.replicate 7 (.rcl true)]

/-- All that is destroyed, of the session and of the attempt after it, may
be. -/
theorem destroys_safely_iff_f446re :
    (∃ s, f446reFirmware.run nodeFailing f446reBoot = some s
        ∧ s.trace.count .createEntities = 2
        ∧ attempt s.trace = .init .support true :: .init .node false
          :: destroyOrder.map fun e => .fini e (decide (e = .support)))
      ∧ ∀ pre s, pre <+: nodeFailing →
        f446reFirmware.run pre f446reBoot = some s → s.SafeDestroy := by
  have hrun : (f446reFirmware.runUnder
      (fun s a => s.supportFails a = false) nodeFailing f446reBoot).map
        (fun s => (s.trace.count .createEntities, attempt s.trace))
      = some (2, .init .support true :: .init .node false
        :: destroyOrder.map fun e => .fini e (decide (e = .support))) := by
    decide +kernel
  obtain ⟨s, hs, hfacts⟩ := Option.map_eq_some_iff.mp hrun
  obtain ⟨hcount, hattempt⟩ := Prod.mk.inj hfacts
  obtain ⟨halong, hfinal⟩ := Lib.Machine.along_of_runUnder hs
  refine ⟨⟨s, hfinal, hcount, hattempt⟩, ?_⟩
  refine (destroys_safely_iff boolRcl_documented f446reFirmware_start
    nodeFailing).mpr ?_
  intro pre a t hpre hpre_run
  exact halong.of_prefix hpre hpre_run

/-- The agent answers the first ping, and the first thing asked of it
fails. -/
def supportFailing :
    List (UrosAct boolRcl (encoders ℚ) (ImuDriver.absent ℚ)) :=
  [.task, .ping true, .task, .rcl false]

/-- `destroyEntities` then takes the rmw context from a support that was
never initialised. -/
theorem supportFailing_unsafe :
    ∃ s, f446reFirmware.run supportFailing f446reBoot = some s
      ∧ s.contextSource.isSome = true ∧ ¬ s.SafeDestroy := by
  have hrun : (f446reFirmware.run supportFailing f446reBoot).map
      (fun s => (s.contextSource.isSome, s.trace))
      = some (true, [.createEntities, .init .support false]) := by
    decide +kernel
  obtain ⟨s, hs, hfacts⟩ := Option.map_eq_some_iff.mp hrun
  obtain ⟨hsome, htrace⟩ := Prod.mk.inj hfacts
  refine ⟨s, hs, hsome, fun hsafe => ?_⟩
  obtain ⟨h, hsource⟩ := Option.isSome_iff_exists.mp hsome
  have hmem := (hsafe.context h hsource).1
  rw [htrace] at hmem
  exact absurd hmem (by decide +kernel)

end LinoStm32.Uros
