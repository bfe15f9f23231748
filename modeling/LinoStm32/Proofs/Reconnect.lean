/-
The safety of the reconnect machine.

One invariant ties the state of the machine to the state of every rcl
object. Each object is watched through the recorded trace
(`Lib/Lifecycle.lean`); `Tracked` says that the watch never gave up and
that the object is live exactly in the watch's phase `opened`, `Stage`
which phases go with which place in the loop:

- inside `createEntities` an object is `opened` once its init is behind,
  `fresh` while it is ahead, since a failed call leaves at once;
- inside `destroyEntities` an object is `closed` once its fini is behind,
  and `fresh` or `opened` while it is ahead, so one shared
  `destroyEntities` serves a failure at any call and a disconnect alike.

Beside it stand two small invariants that need its facts about the place
in the loop: the strings (`FramesOnce`) and the shared command
(`Stopped`).
-/
import LinoStm32.Uros

namespace LinoStm32.Uros

open Lib.Lifecycle

variable {R : Rcl} {F : Type} [CFloat F] {E : RpmSource F}
  {I : ImuDriver F} {T : Trig F} {s s' : Uros R F E I}

-- ====================================================== watching an object

/-- What an event means to an object. -/
def sign (e : Entity) : Event → Sign
  | .createEntities => .session
  | .init e' ok => if e' = e ∧ ok = true then .acquire else .other
  | .fini e' wasLive => if e' = e then .release wasLive else .other
  | .setFrames => .other

theorem sign_init (e e' : Entity) (ok : Bool) :
    sign e (.init e' ok)
      = if e' = e ∧ ok = true then .acquire else .other := rfl

theorem sign_fini (e e' : Entity) (wasLive : Bool) :
    sign e (.fini e' wasLive)
      = if e' = e then .release wasLive else .other := rfl

/-- The watch of every object got to its phase in `ph`, and an object is
live exactly if that is `opened`. -/
def Tracked (s : Uros R F E I) (ph : Entity → Phase) : Prop :=
  ∀ e, (watcher (sign e)).run s.trace .closed = some (ph e)
    ∧ R.live e (s.handles e) = decide (ph e = .opened)

section Tracked

variable {ph : Entity → Phase}

omit [CFloat F] in
theorem Tracked.live_of_opened (h : Tracked s ph) {e : Entity}
    (he : ph e = .opened) : R.live e (s.handles e) = true := by
  rw [(h e).2, he]
  rfl

omit [CFloat F] in
theorem Tracked.not_live_of_ne (h : Tracked s ph) {e : Entity}
    (he : ph e ≠ .opened) : R.live e (s.handles e) = false := by
  rw [(h e).2]
  exact decide_eq_false he

omit [CFloat F] in
/-- `createEntities` begins: every object is fresh. -/
theorem Tracked.createEntities (hR : R.Documented) (h : Tracked s ph)
    (hclosed : ∀ e, ph e = .closed) :
    Tracked { s with
      handles := s.zeroInit
      trace := s.trace ++ [.createEntities]
      pc := .create createCalls } fun _ => .fresh := by
  intro e
  constructor
  · refine Lib.Machine.run_concat.mpr ⟨ph e, (h e).1, ?_⟩
    rw [hclosed e]
    rfl
  · -- `support` is the one object that is not zeroed; it is closed
    have hsupport : R.live .support (s.handles .support) = false :=
      h.not_live_of_ne (by rw [hclosed]; decide)
    cases e with
    | support => exact hsupport
    | _ => exact hR.zero _

omit [CFloat F] in
/-- A call on one object is an event in turn for it and nothing to the
others. -/
theorem Tracked.call (h : Tracked s ph) {e : Entity} {ev : Event}
    {hd : R.Handle} {p : Phase}
    (htrace : s'.trace = s.trace ++ [ev])
    (hhandles : s'.handles = Function.update s.handles e hd)
    (hothers : ∀ e', e' ≠ e → sign e' ev = .other)
    (hself : watch (sign e ev) (ph e) = some p)
    (hlive : R.live e hd = decide (p = .opened)) :
    Tracked s' (Function.update ph e p) := by
  intro e'
  rw [htrace, hhandles, Lib.Machine.run_concat]
  by_cases hee : e' = e
  · subst hee
    rw [Function.update_self, Function.update_self]
    exact ⟨⟨ph e', (h e').1, hself⟩, hlive⟩
  · rw [Function.update_of_ne hee, Function.update_of_ne hee]
    refine ⟨⟨ph e', (h e').1, ?_⟩, (h e').2⟩
    show watch (sign e' ev) (ph e') = _
    rw [hothers e' hee]
    cases ph e' <;> rfl

omit [CFloat F] in
/-- The init of a fresh object opens it exactly if it succeeds. -/
theorem Tracked.init (hR : R.Documented) (h : Tracked s ph) {e : Entity}
    (he : ph e = .fresh) (a : R.Answer) :
    Tracked { s.setHandle e (R.init e a (s.handles e)).2 with
        trace := s.trace ++ [.init e (R.init e a (s.handles e)).1] }
      (Function.update ph e
        (if (R.init e a (s.handles e)).1 = true then .opened
          else .fresh)) := by
  have hnot : R.live e (s.handles e) = false :=
    h.not_live_of_ne (by rw [he]; decide)
  have hlive := hR.init e a (s.handles e) hnot
  apply h.call rfl rfl
  · intro e' hee
    exact if_neg fun hc => hee hc.1.symm
  · rw [he, sign]
    cases (R.init e a (s.handles e)).1 <;> simp [watch]
  · rw [hlive]
    cases (R.init e a (s.handles e)).1 <;> rfl

omit [CFloat F] in
/-- The fini of an object that is not closed closes it. -/
theorem Tracked.fini (hR : R.Documented) (h : Tracked s ph) {e : Entity}
    (he : ph e ≠ .closed) (a : R.Answer) (rest : List Entity) :
    Tracked { s.setHandle e (R.fini e a (s.handles e)) with
        trace := s.trace ++ [.fini e (R.live e (s.handles e))]
        pc := .destroy rest }
      (Function.update ph e .closed) := by
  apply h.call rfl rfl
  · intro e' hee
    exact if_neg fun hc => hee hc.symm
  · rw [sign, if_pos rfl, (h e).2]
    cases hph : ph e with
    | closed => exact absurd hph he
    | fresh => rfl
    | opened => rfl
  · show _ = false
    cases hl : R.live e (s.handles e) with
    | true => exact hR.fini_live e a _ hl
    | false => rw [hR.fini_not_live e a _ hl, hl]

omit [CFloat F] in
/-- A call on the executor changes no liveness. -/
theorem Tracked.executorCall (hR : R.Documented) (h : Tracked s ph)
    (c : ExecutorCall) (a : R.Answer) :
    Tracked (s.setHandle .executor
      (R.executorCall c a (s.handles .executor)).2) ph := by
  intro e
  refine ⟨(h e).1, ?_⟩
  show R.live e (Function.update s.handles .executor _ e) = _
  by_cases hee : e = .executor
  · subst hee
    rw [Function.update_self, hR.executorCall]
    exact (h .executor).2
  · rw [Function.update_of_ne hee]
    exact (h e).2

omit [CFloat F] in
/-- Setting the strings is nothing to an object. -/
theorem Tracked.setFrameIds (h : Tracked s ph) :
    Tracked s.setFrameIds ph := by
  unfold Uros.setFrameIds
  split
  · exact h
  · intro e
    refine ⟨Lib.Machine.run_concat.mpr ⟨ph e, (h e).1, ?_⟩, (h e).2⟩
    show watch .other (ph e) = _
    cases ph e <;> rfl

end Tracked

-- =============================================== where the task can be

theorem createCalls_nodup : createCalls.Nodup := by decide

theorem destroyOrder_nodup : destroyOrder.Nodup := by decide

/-- Every object has its init among the checked calls. -/
theorem init_mem_createCalls (e : Entity) :
    CreateCall.init e ∈ createCalls := by
  cases e <;> decide

/-- Every object has its fini in `destroyEntities`. -/
theorem mem_destroyOrder (e : Entity) : e ∈ destroyOrder := by
  cases e <;> decide

/-- The phases of the objects, by the state of the machine and the place
in the loop. -/
def Stage (ph : Entity → Phase) (st : AgentState) : LoopPc → Prop
  | .head => ∀ e, ph e =
      if st = .waitingAgent ∨ st = .agentAvailable then .closed
      else .opened
  | .pingWaiting _ => st = .waitingAgent ∧ ∀ e, ph e = .closed
  | .pingConnected _ => st = .agentConnected ∧ ∀ e, ph e = .opened
  | .create rest => st = .agentAvailable ∧ rest <:+ createCalls
      ∧ ∀ e, ph e = if .init e ∈ rest then .fresh else .opened
  | .sync => st = .agentAvailable ∧ ∀ e, ph e = .opened
  | .spin => st = .agentConnected ∧ ∀ e, ph e = .opened
  | .fullStop => st = .agentDisconnected ∧ ∀ e, ph e = .opened
  | .destroy rest => (st = .waitingAgent ∨ st = .agentDisconnected)
      ∧ rest <:+ destroyOrder ∧ ∀ e, ph e = .closed ↔ e ∉ rest

/-- The invariant of the objects. -/
def Objects (s : Uros R F E I) : Prop :=
  ∃ ph, Tracked s ph ∧ Stage ph s.state s.pc

/-- Entering `destroyEntities` with no object closed. -/
theorem Stage.destroyAll {ph : Entity → Phase} {st : AgentState}
    (hst : st = .waitingAgent ∨ st = .agentDisconnected)
    (hph : ∀ e, ph e ≠ .closed) : Stage ph st (.destroy destroyOrder) :=
  ⟨hst, List.suffix_refl _, fun e =>
    ⟨fun he => absurd he (hph e),
      fun he => absurd (mem_destroyOrder e) he⟩⟩

omit [CFloat F] in
theorem Objects.start (hR : R.Documented) (y : System F E I) :
    Objects (Uros.start R y) :=
  ⟨fun _ => .closed, fun e => ⟨rfl, hR.zero e⟩, fun _ => rfl⟩

/-- No object is closed while `createEntities` runs. -/
theorem Stage.create_not_closed {ph : Entity → Phase} {st : AgentState}
    {rest : List CreateCall} (h : Stage ph st (.create rest)) (e : Entity) :
    ph e ≠ .closed := by
  rw [h.2.2 e]
  split <;> decide

/-- The object of the next init is fresh. -/
theorem Stage.next_fresh {ph : Entity → Phase} {st : AgentState}
    {e : Entity} {rest : List CreateCall}
    (h : Stage ph st (.create (.init e :: rest))) : ph e = .fresh := by
  rw [h.2.2 e, if_pos List.mem_cons_self]

/-- A successful init opens its object and goes on. -/
theorem Stage.init {ph : Entity → Phase} {st : AgentState} {e : Entity}
    {rest : List CreateCall} (h : Stage ph st (.create (.init e :: rest))) :
    Stage (Function.update ph e .opened) st (.create rest) := by
  obtain ⟨hst, hsuf, hph⟩ := h
  refine ⟨hst, (List.suffix_cons _ _).trans hsuf, fun e' => ?_⟩
  by_cases hee : e' = e
  · subst hee
    have hrest : CreateCall.init e' ∉ rest :=
      (List.nodup_cons.mp (hsuf.sublist.nodup createCalls_nodup)).1
    rw [Function.update_self, if_neg hrest]
  · have hiff : CreateCall.init e' ∈ CreateCall.init e :: rest
        ↔ CreateCall.init e' ∈ rest := by simp [hee]
    rw [Function.update_of_ne hee, hph e']
    simp only [hiff]

/-- A successful call on the executor goes on. -/
theorem Stage.executor {ph : Entity → Phase} {st : AgentState}
    {c : ExecutorCall} {rest : List CreateCall}
    (h : Stage ph st (.create (.executor c :: rest))) :
    Stage ph st (.create rest) := by
  obtain ⟨hst, hsuf, hph⟩ := h
  refine ⟨hst, (List.suffix_cons _ _).trans hsuf, fun e => ?_⟩
  rw [hph e]
  simp only [List.mem_cons, reduceCtorEq, false_or]

/-- A fini closes its object and goes on. -/
theorem Stage.fini {ph : Entity → Phase} {st : AgentState} {e : Entity}
    {rest : List Entity} (h : Stage ph st (.destroy (e :: rest))) :
    Stage (Function.update ph e .closed) st (.destroy rest) := by
  obtain ⟨hst, hsuf, hph⟩ := h
  refine ⟨hst, (List.suffix_cons _ _).trans hsuf, fun e' => ?_⟩
  by_cases hee : e' = e
  · subst hee
    have hrest : e' ∉ rest :=
      (List.nodup_cons.mp (hsuf.sublist.nodup destroyOrder_nodup)).1
    rw [Function.update_self]
    exact ⟨fun _ => hrest, fun _ => rfl⟩
  · rw [Function.update_of_ne hee, hph e', List.mem_cons, not_or]
    exact ⟨fun hn => hn.2, fun hn => ⟨hee, hn⟩⟩

omit [CFloat F] in
/-- `RCCHECK` after a call that left the objects at `ph`: go on if it
succeeded, otherwise destroy. -/
theorem Objects.rccheck {u : Uros R F E I} {ph : Entity → Phase}
    {ok : Bool} {rest : List CreateCall} (htr : Tracked u ph)
    (hok : ok = true → Stage ph u.state (.create rest))
    (hne : ∀ e, ph e ≠ .closed) : Objects (rccheck ok rest u) := by
  cases ok with
  | true => exact ⟨ph, htr, hok rfl⟩
  | false => exact ⟨ph, htr, Stage.destroyAll (.inl rfl) hne⟩

theorem Objects.step (hR : R.Documented) (h : Objects s)
    (hm : Moves T s s') : Objects s' := by
  obtain ⟨ph, htr, hstage⟩ := h
  cases hm with
  | clock => exact ⟨ph, htr, hstage⟩
  | ctrl inp bus => exact ⟨ph, htr, hstage⟩
  | notDue _ _ => exact ⟨ph, htr, hstage⟩
  | askWaiting hpc hst =>
      rw [hpc, hst] at hstage
      exact ⟨ph, htr, hst, hstage⟩
  | createEntities hpc hst =>
      rw [hpc, hst] at hstage
      refine ⟨_, htr.createEntities hR hstage, hst, List.suffix_refl _, ?_⟩
      intro e
      rw [if_pos (init_mem_createCalls e)]
  | askConnected hpc hst =>
      rw [hpc, hst] at hstage
      exact ⟨ph, htr, hst, hstage⟩
  | spinSome hpc hst =>
      rw [hpc, hst] at hstage
      exact ⟨ph, htr, hst, hstage⟩
  | fullStop y hpc hst _ =>
      rw [hpc, hst] at hstage
      exact ⟨ph, htr, hst, hstage⟩
  | setFrames hpc =>
      rw [hpc] at hstage
      obtain ⟨hst, -, hph⟩ := hstage
      refine ⟨ph, htr.setFrameIds, ?_, hph⟩
      exact s.setFrameIds_state.trans hst
  | fullStopWrite y hpc _ =>
      rw [hpc] at hstage
      obtain ⟨hst, hph⟩ := hstage
      refine ⟨ph, htr, Stage.destroyAll (.inr hst) fun e => ?_⟩
      rw [hph e]
      decide
  | destroyed hpc =>
      rw [hpc] at hstage
      obtain ⟨-, -, hph⟩ := hstage
      exact ⟨ph, htr, fun e => (hph e).mpr List.not_mem_nil⟩
  | pongWaiting ok now hpc =>
      rw [hpc] at hstage
      obtain ⟨-, hph⟩ := hstage
      refine ⟨ph, htr, fun e => ?_⟩
      cases ok <;> exact hph e
  | pongConnected ok now hpc =>
      rw [hpc] at hstage
      obtain ⟨-, hph⟩ := hstage
      cases ok with
      | true => exact ⟨ph, htr, rfl, hph⟩
      | false => exact ⟨ph, htr, hph⟩
  | init e rest a hpc =>
      rw [hpc] at hstage
      refine Objects.rccheck (htr.init hR hstage.next_fresh a) ?_ ?_
      · intro hok
        rw [if_pos hok]
        exact hstage.init
      · intro e'
        by_cases hee : e' = e
        · subst hee
          rw [Function.update_self]
          split <;> decide
        · rw [Function.update_of_ne hee]
          exact hstage.create_not_closed e'
  | executor c rest a hpc =>
      rw [hpc] at hstage
      exact Objects.rccheck (htr.executorCall hR c a)
        (fun _ => hstage.executor) hstage.create_not_closed
  | spun a hpc _ =>
      rw [hpc] at hstage
      obtain ⟨hst, hph⟩ := hstage
      refine ⟨ph, htr.executorCall hR .spinSome a, fun e => ?_⟩
      show ph e = if s.state = _ ∨ s.state = _ then _ else _
      rw [hst]
      exact hph e
  | fini e rest a hpc =>
      rw [hpc] at hstage
      have hopen : ph e ≠ .closed := fun hc =>
        (hstage.2.2 e).mp hc List.mem_cons_self
      exact ⟨_, htr.fini hR hopen a rest, hstage.fini⟩
  | synced offset hpc =>
      rw [hpc] at hstage
      obtain ⟨-, hph⟩ := hstage
      exact ⟨ph, htr, hph⟩
  | callback c y _ _ => exact ⟨ph, htr, hstage⟩

-- =========================================================== the strings

/-- The strings are set at most once, to what they should be, and are set
from the end of the first `createEntities` that gets that far. -/
structure FramesOnce (s : Uros R F E I) : Prop where
  count : s.trace.count .setFrames = if s.framesSet then 1 else 0
  strings : s.framesSet = true → s.frames = frameIds
  set : s.pc = .sync ∨ s.state = .agentConnected → s.framesSet = true

theorem count_concat {l : List Event} {ev : Event} (h : ev ≠ .setFrames) :
    (l ++ [ev]).count .setFrames = l.count .setFrames := by
  rw [List.count_append, List.count_singleton, if_neg (by simpa using h)]
  rfl

omit [CFloat F] in
/-- A step that leaves the strings alone and does not come to where they
must be set. -/
theorem FramesOnce.keep (h : FramesOnce s)
    (hset : s'.framesSet = s.framesSet) (hframes : s'.frames = s.frames)
    (hcount : s'.trace.count .setFrames = s.trace.count .setFrames)
    (hat : s'.pc = .sync ∨ s'.state = .agentConnected →
      s.pc = .sync ∨ s.state = .agentConnected) : FramesOnce s' := by
  constructor
  · rw [hcount, hset]
    exact h.count
  · rw [hset, hframes]
    exact h.strings
  · intro hc
    rw [hset]
    exact h.set (hat hc)

omit [CFloat F] in
theorem FramesOnce.rccheck {u : Uros R F E I} (ok : Bool)
    (rest : List CreateCall) (h : FramesOnce s)
    (hset : u.framesSet = s.framesSet) (hframes : u.frames = s.frames)
    (hcount : u.trace.count .setFrames = s.trace.count .setFrames)
    (hst : u.state ≠ .agentConnected) :
    FramesOnce (rccheck ok rest u) := by
  cases ok with
  | true =>
      refine h.keep hset hframes hcount fun hc => ?_
      rcases hc with hc | hc
      · cases hc
      · exact absurd hc hst
  | false =>
      refine h.keep hset hframes hcount fun hc => ?_
      rcases hc with hc | hc
      · cases hc
      · cases hc

omit [CFloat F] in
theorem FramesOnce.setFrameIds (h : FramesOnce s) :
    FramesOnce { s.setFrameIds with pc := .sync } := by
  unfold Uros.setFrameIds
  have hcount := h.count
  cases hset : s.framesSet with
  | true =>
      rw [if_pos rfl]
      rw [hset] at hcount
      exact ⟨by rw [hset]; exact hcount, h.strings, fun _ => hset⟩
  | false =>
      rw [if_neg (by decide)]
      rw [hset] at hcount
      refine ⟨?_, fun _ => rfl, fun _ => rfl⟩
      show (s.trace ++ [Event.setFrames]).count Event.setFrames = 1
      rw [List.count_append, hcount]
      rfl

theorem FramesOnce.step (h : FramesOnce s) (hobj : Objects s)
    (hm : Moves T s s') : FramesOnce s' := by
  obtain ⟨ph, -, hstage⟩ := hobj
  cases hm with
  | clock => exact h.keep rfl rfl rfl id
  | ctrl inp bus => exact h.keep rfl rfl rfl id
  | notDue _ _ => exact h
  | askWaiting hpc hst =>
      refine h.keep rfl rfl rfl fun hc => .inr (hc.resolve_left nofun)
  | createEntities hpc hst =>
      refine h.keep rfl rfl (count_concat nofun) fun hc => ?_
      exact .inr (hc.resolve_left nofun)
  | askConnected hpc hst => exact h.keep rfl rfl rfl fun _ => .inr hst
  | spinSome hpc hst => exact h.keep rfl rfl rfl fun _ => .inr hst
  | fullStop y hpc hst _ =>
      exact h.keep rfl rfl rfl fun hc => .inr (hc.resolve_left nofun)
  | setFrames hpc => exact h.setFrameIds
  | fullStopWrite y hpc _ =>
      exact h.keep rfl rfl rfl fun hc => .inr (hc.resolve_left nofun)
  | destroyed hpc =>
      refine h.keep rfl rfl rfl fun hc => ?_
      rcases hc with hc | hc
      · cases hc
      · cases hc
  | pongWaiting ok now hpc =>
      refine h.keep rfl rfl rfl fun hc => ?_
      rcases hc with hc | hc
      · cases hc
      · cases ok <;> cases hc
  | pongConnected ok now hpc =>
      rw [hpc] at hstage
      exact h.keep rfl rfl rfl fun _ => .inr hstage.1
  | init e rest a hpc =>
      rw [hpc] at hstage
      refine h.rccheck _ rest rfl rfl (count_concat nofun) ?_
      show s.state ≠ _
      rw [hstage.1]
      decide
  | executor c rest a hpc =>
      rw [hpc] at hstage
      refine h.rccheck _ rest rfl rfl rfl ?_
      show s.state ≠ _
      rw [hstage.1]
      decide
  | spun a hpc _ =>
      rw [hpc] at hstage
      exact h.keep rfl rfl rfl fun _ => .inr hstage.1
  | fini e rest a hpc =>
      exact h.keep rfl rfl (count_concat nofun) fun hc =>
        .inr (hc.resolve_left nofun)
  | synced offset hpc => exact h.keep rfl rfl rfl fun _ => .inl hpc
  | callback c y _ _ => exact h.keep rfl rfl rfl id

-- =========================================================== the command

/-- Where the shared command has to be zero. -/
def Quiet (st : AgentState) : LoopPc → Prop
  | .spin => False
  | .fullStop => False
  | .destroy _ => True
  | _ => st = .waitingAgent ∨ st = .agentAvailable

/-- `control_set_cmd` runs only in the spin and in the full stop, the
full stop stops, and away from the connected part of the loop the shared
command is zero. -/
structure Stopped (s : Uros R F E I) : Prop where
  idle : s.pc ≠ .spin → s.pc ≠ .fullStop → s.sys.uros = .idle
  stopping : s.pc = .fullStop → ∃ now, s.sys.uros = .setCmd now Cmd.zero
  zero : Quiet s.state s.pc → s.sys.loop.cmd = Cmd.zero

/-- `control_task` only ever writes zeros to the shared command. -/
theorem ctrlStep_cmd_zero (inp : E.Input) (bus : I.Bus)
    {y : System F E I} (h : y.loop.cmd = Cmd.zero) :
    (y.ctrlStep T inp bus).loop.cmd = Cmd.zero := by
  unfold System.ctrlStep
  split
  case h_4 =>
    show { y.loop.cmd with wz := ((0 : Int) : F) } = _
    rw [h]
    rfl
  case h_5 =>
    show { y.loop.cmd with y := ((0 : Int) : F) } = _
    rw [h]
    rfl
  case h_6 =>
    show { y.loop.cmd with x := ((0 : Int) : F) } = _
    rw [h]
    rfl
  all_goals exact h

/-- A step of `uros_task` that leaves the control loop alone. -/
theorem Stopped.keep_of_idle (h : Stopped s) (hidle : s.sys.uros = .idle)
    (hsys : s'.sys = s.sys) (hpc' : s'.pc ≠ .fullStop)
    (hquiet : Quiet s'.state s'.pc → Quiet s.state s.pc) :
    Stopped s' := by
  constructor
  · intro _ _
    rw [hsys]
    exact hidle
  · intro hc
    exact absurd hc hpc'
  · intro hq
    rw [hsys]
    exact h.zero (hquiet hq)

/-- The same from a place where `control_set_cmd` does not run. -/
theorem Stopped.keep (h : Stopped s) {pc : LoopPc} (hpc : s.pc = pc)
    (hspin : pc ≠ .spin) (hstop : pc ≠ .fullStop)
    (hsys : s'.sys = s.sys) (hpc' : s'.pc ≠ .fullStop)
    (hquiet : Quiet s'.state s'.pc → Quiet s.state pc) : Stopped s' := by
  subst hpc
  exact h.keep_of_idle (h.idle hspin hstop) hsys hpc' hquiet

theorem Stopped.rccheck {u : Uros R F E I} (ok : Bool)
    {todo : List CreateCall} (rest : List CreateCall) (h : Stopped s)
    (hpc : s.pc = .create todo) (hst : s.state = .agentAvailable)
    (hsys : u.sys = s.sys) : Stopped (rccheck ok rest u) := by
  cases ok with
  | true => exact h.keep hpc nofun nofun hsys nofun fun _ => .inr hst
  | false => exact h.keep hpc nofun nofun hsys nofun fun _ => .inr hst

/-- Connected or disconnected is not quiet at the head of the loop. -/
theorem not_quiet_head {st : AgentState}
    (hst : st = .agentConnected ∨ st = .agentDisconnected) :
    ¬ Quiet st .head := by
  intro hq
  rcases hst with rfl | rfl
  · exact hq.elim nofun nofun
  · exact hq.elim nofun nofun

theorem Stopped.step (h : Stopped s) (hobj : Objects s)
    (hm : Moves T s s') : Stopped s' := by
  obtain ⟨ph, -, hstage⟩ := hobj
  cases hm with
  | clock => exact ⟨h.idle, h.stopping, h.zero⟩
  | ctrl inp bus =>
      refine ⟨?_, ?_, fun hq => ctrlStep_cmd_zero inp bus (h.zero hq)⟩
      · rw [System.ctrlStep_uros]
        exact h.idle
      · rw [System.ctrlStep_uros]
        exact h.stopping
  | notDue _ _ => exact h
  | askWaiting hpc _ => exact h.keep hpc nofun nofun rfl nofun id
  | createEntities hpc _ => exact h.keep hpc nofun nofun rfl nofun id
  | askConnected hpc _ => exact h.keep hpc nofun nofun rfl nofun id
  | spinSome hpc _ => exact h.keep hpc nofun nofun rfl nofun nofun
  | fullStop y hpc _ hy =>
      cases System.moves_of_apply hy with
      | setCmd _ hu =>
          exact ⟨fun _ hc => absurd rfl hc, fun _ => ⟨_, rfl⟩, nofun⟩
  | setFrames hpc =>
      rw [hpc] at hstage
      exact h.keep hpc nofun nofun s.setFrameIds_sys nofun
        fun _ => .inr hstage.1
  | fullStopWrite y hpc hy =>
      obtain ⟨now, hnow⟩ := h.stopping hpc
      cases System.moves_of_apply hy with
      | setCmdWrite now' c hu =>
          rw [hnow] at hu
          cases hu
          exact ⟨fun _ _ => rfl, nofun, fun _ => rfl⟩
  | destroyed hpc =>
      exact h.keep hpc nofun nofun rfl nofun fun _ => trivial
  | pongWaiting ok now hpc =>
      rw [hpc] at hstage
      exact h.keep hpc nofun nofun rfl nofun fun _ => .inl hstage.1
  | pongConnected ok now hpc =>
      cases ok with
      | true => exact h.keep hpc nofun nofun rfl nofun nofun
      | false =>
          exact h.keep hpc nofun nofun rfl nofun fun hq =>
            absurd hq (not_quiet_head (.inr rfl))
  | init e rest a hpc =>
      rw [hpc] at hstage
      exact h.rccheck _ rest hpc hstage.1 rfl
  | executor c rest a hpc =>
      rw [hpc] at hstage
      exact h.rccheck _ rest hpc hstage.1 rfl
  | spun a hpc hu =>
      rw [hpc] at hstage
      exact h.keep_of_idle hu rfl nofun fun hq =>
        absurd hq (not_quiet_head (.inl hstage.1))
  | fini e rest a hpc =>
      exact h.keep hpc nofun nofun rfl nofun fun _ => trivial
  | synced offset hpc =>
      exact h.keep hpc nofun nofun rfl nofun fun hq =>
        absurd hq (not_quiet_head (.inl rfl))
  | callback c y hpc hy =>
      refine ⟨fun hc => absurd hpc hc, fun hc => ?_, fun hq => ?_⟩
      · cases hpc.symm.trans hc
      · change Quiet s.state s.pc at hq
        rw [hpc] at hq
        exact hq.elim

-- ======================================================== the whole run

/-- The three invariants together. -/
structure Inv (s : Uros R F E I) : Prop where
  objects : Objects s
  frames : FramesOnce s
  command : Stopped s

theorem inv_reachable (hR : R.Documented) {cfg : BoardConfig F}
    (h : (firmware R E I T cfg).Reachable s) : Inv s := by
  apply h.invariant
  · intro s hs
    obtain ⟨y, ⟨enc, imu, imuOk, t, rfl⟩, rfl⟩ := hs
    refine ⟨Objects.start hR _, ⟨rfl, nofun, ?_⟩, fun _ _ => rfl, nofun,
      fun _ => rfl⟩
    intro hc
    rcases hc with hc | hc
    · cases hc
    · cases hc
  · intro s a s' hinv happ
    have hm := moves_of_apply happ
    exact ⟨hinv.objects.step hR hm, hinv.frames.step hinv.objects hm,
      hinv.command.step hinv.objects hm⟩

/-- While connected, and until the first fini after it, every object is
open. -/
theorem Stage.opened {ph : Entity → Phase} {st : AgentState} {pc : LoopPc}
    (h : Stage ph st pc)
    (hst : st = .agentConnected ∨ pc = .head ∧ st = .agentDisconnected) :
    ∀ e, ph e = .opened := by
  rcases hst with rfl | ⟨rfl, rfl⟩
  · cases pc with
    | head => exact h
    | pingWaiting now => exact absurd h.1 nofun
    | pingConnected now => exact h.2
    | create rest => exact absurd h.1 nofun
    | sync => exact absurd h.1 nofun
    | spin => exact h.2
    | fullStop => exact absurd h.1 nofun
    | destroy rest =>
        rcases h.1 with hst | hst
        · cases hst
        · cases hst
  · exact h

/-- The successful inits of an object, and its finis. -/
def settles (e : Entity) : Event → Bool
  | .init e' ok => decide (e' = e) && ok
  | .fini e' _ => decide (e' = e)
  | _ => false

/-- Inside a session they are the events that mean something to it. -/
theorem signs_eq (e : Entity) {l : List Event}
    (hl : Event.createEntities ∉ l) :
    signs (sign e) l = (l.filter (settles e)).map (sign e) := by
  rw [signs, List.filter_map]
  congr 1
  apply List.filter_congr
  intro ev hev
  cases ev with
  | createEntities => exact absurd hev hl
  | init e' ok =>
      by_cases hee : e' = e
      · cases ok <;> simp [sign, settles, hee]
      · simp [sign, settles, hee]
  | fini e' wasLive =>
      by_cases hee : e' = e
      · simp [sign, settles, hee]
      · simp [sign, settles, hee]
  | setFrames => rfl

/-- A sign comes from one event only. -/
theorem event_of_sign (e : Entity) (ev : Event) :
    match sign e ev with
    | .session => ev = .createEntities
    | .acquire => ev = .init e true
    | .release held => ev = .fini e held
    | .other => True := by
  cases ev with
  | createEntities => rfl
  | init e' ok =>
      rw [sign_init]
      by_cases hc : e' = e ∧ ok = true
      · rw [if_pos hc, hc.1, hc.2]
      · rw [if_neg hc]
        trivial
  | fini e' wasLive =>
      rw [sign_fini]
      by_cases hc : e' = e
      · rw [if_pos hc, hc]
      · rw [if_neg hc]
        trivial
  | setFrames => trivial

theorem eq_init_of_sign {e : Entity} {ev : Event}
    (h : sign e ev = .acquire) : ev = .init e true := by
  have hev := event_of_sign e ev
  rw [h] at hev
  exact hev

theorem eq_fini_of_sign {e : Entity} {ev : Event} {held : Bool}
    (h : sign e ev = .release held) : ev = .fini e held := by
  have hev := event_of_sign e ev
  rw [h] at hev
  exact hev

/-- Only a start of `createEntities` begins a session. -/
theorem eq_createEntities_of_sign {e : Entity} {ev : Event}
    (h : sign e ev = .session) : ev = .createEntities := by
  have hev := event_of_sign e ev
  rw [h] at hev
  exact hev

/-- What the reconnect machine guarantees at a moment of a run. -/
structure ReconnectSafe (s : Uros R F E I) : Prop where
  /-- waiting or available, at the head of the loop: no object is live and
  the shared command is zero -/
  away : s.pc = .head →
    s.state = .waitingAgent ∨ s.state = .agentAvailable →
    s.NoneLive ∧ s.sys.loop.cmd = Cmd.zero
  /-- connected, anywhere in the loop, or disconnected, at its head: every
  object is live -/
  connected :
    s.state = .agentConnected ∨ s.pc = .head ∧ s.state = .agentDisconnected →
    s.AllLive
  /-- as long as the executor spins, every object is live -/
  spin : s.pc = .spin → s.AllLive
  /-- before the first start of `createEntities` nothing is initialised or
  finalised -/
  before : ∀ e pre post, s.trace = pre ++ .createEntities :: post →
    .createEntities ∉ pre → pre.filter (settles e) = []
  /-- from one start of `createEntities` to the next, an object is
  initialised once and then finalised once, or finalised once without
  being live -/
  matched : ∀ e pre mid post,
    s.trace = pre ++ .createEntities :: (mid ++ .createEntities :: post) →
    .createEntities ∉ mid →
    mid.filter (settles e) = [.init e true, .fini e true]
      ∨ mid.filter (settles e) = [.fini e false]
  /-- the strings are set at most once -/
  once : s.trace.count .setFrames ≤ 1
  /-- and are set while connected -/
  strings : s.state = .agentConnected → s.frames = frameIds

theorem not_session_of_not_mem {e : Entity} {l : List Event}
    (hl : Event.createEntities ∉ l) : ∀ ev ∈ l, sign e ev ≠ .session :=
  fun _ hev hs => hl (eq_createEntities_of_sign hs ▸ hev)

theorem Inv.before (h : Inv s) (e : Entity) {pre post : List Event}
    (htrace : s.trace = pre ++ .createEntities :: post)
    (hpre : Event.createEntities ∉ pre) :
    pre.filter (settles e) = [] := by
  obtain ⟨ph, htr, -⟩ := h.objects
  have hrun := (htr e).1
  rw [htrace] at hrun
  have hsigns := before_session rfl (not_session_of_not_mem hpre) hrun
  rw [signs_eq e hpre] at hsigns
  exact List.map_eq_nil_iff.mp hsigns

theorem Inv.matched (h : Inv s) (e : Entity) {pre mid post : List Event}
    (htrace : s.trace
      = pre ++ .createEntities :: (mid ++ .createEntities :: post))
    (hmid : Event.createEntities ∉ mid) :
    mid.filter (settles e) = [.init e true, .fini e true]
      ∨ mid.filter (settles e) = [.fini e false] := by
  obtain ⟨ph, htr, -⟩ := h.objects
  have hrun := (htr e).1
  rw [htrace] at hrun
  have hsigns := session_matched rfl rfl (not_session_of_not_mem hmid) hrun
  rw [signs_eq e hmid] at hsigns
  rcases hsigns with hboth | hnone
  · left
    obtain ⟨ev, l, hl, hev, hrest⟩ := List.map_eq_cons_iff.mp hboth
    obtain ⟨ev', l', hl', hev', hnil⟩ := List.map_eq_cons_iff.mp hrest
    rw [hl, hl', List.map_eq_nil_iff.mp hnil, eq_init_of_sign hev,
      eq_fini_of_sign hev']
  · right
    obtain ⟨ev, l, hl, hev, hnil⟩ := List.map_eq_cons_iff.mp hnone
    rw [hl, List.map_eq_nil_iff.mp hnil, eq_fini_of_sign hev]

/-- In every run of the firmware, under every interleaving of its tasks
and whatever each ping and each call into rcl answers, the machine is
safe at every moment. -/
theorem reconnect_safe (hR : R.Documented) {cfg : BoardConfig F}
    (h : (firmware R E I T cfg).Reachable s) : s.ReconnectSafe := by
  have hinv := inv_reachable hR h
  obtain ⟨ph, htr, hstage⟩ := hinv.objects
  constructor
  · intro hpc hst
    rw [hpc] at hstage
    refine ⟨fun e => htr.not_live_of_ne ?_, hinv.command.zero ?_⟩
    · rw [hstage e, if_pos hst]
      decide
    · rw [hpc]
      exact hst
  · intro hst e
    exact htr.live_of_opened (hstage.opened hst e)
  · intro hpc e
    rw [hpc] at hstage
    exact htr.live_of_opened (hstage.2 e)
  · intro e pre post
    exact hinv.before e
  · intro e pre mid post
    exact hinv.matched e
  · rw [hinv.frames.count]
    split <;> decide
  · intro hst
    exact hinv.frames.strings (hinv.frames.set (.inr hst))

-- ================================================================ a run

/-- rcl with nothing but liveness: a call succeeds if it is answered
`true`. -/
def boolRcl : Rcl where
  Handle := Bool
  Answer := Bool
  zero _ := false
  init _ a _ := (a, a)
  executorCall _ a h := (a, h)
  fini _ _ _ := false
  live _ h := h

theorem boolRcl_documented : boolRcl.Documented where
  zero _ := rfl
  init _ _ _ _ := rfl
  fini_live _ _ _ _ := rfl
  fini_not_live _ _ h hh := by
    change h = false at hh
    rw [hh]
    rfl
  executorCall _ _ _ := rfl

/-- The firmware of the configured board, over it. -/
def f446reFirmware :
    Lib.Machine (Uros boolRcl ℚ (encoders ℚ) (ImuDriver.absent ℚ))
      (UrosAct boolRcl (encoders ℚ) (ImuDriver.absent ℚ)) :=
  firmware boolRcl _ _ Trig.level f446re

/-- A second after reset, as its scheduler starts. -/
def f446reBoot : Uros boolRcl ℚ (encoders ℚ) (ImuDriver.absent ℚ) :=
  Uros.start boolRcl
    (System.start f446re (f446re (F := ℚ)).encoders () false 1000)

theorem f446reFirmware_start : f446reFirmware.start f446reBoot :=
  ⟨_, ⟨_, _, _, _, rfl⟩, rfl⟩

/-- An agent whose second publisher fails at first, which then connects,
sends a command and is lost, and is found again. -/
def lostAgent : List (UrosAct boolRcl (encoders ℚ) (ImuDriver.absent ℚ)) :=
  List.flatten [
    [.task, .ping true, .task, .rcl true, .rcl true, .rcl true, .rcl false],
    List.replicate 7 (.rcl true), [.task],
    List.replicate 501 .clock, [.task, .ping true, .task],
    List.replicate 9 (.rcl true), [.task, .sync (some 0)],
    [.task, .ping true, .callback (.twist ⟨1, 0, 0⟩),
      .callback .twistWrite, .rcl true],
    List.replicate 201 .clock, [.task, .ping false, .task, .task],
    List.replicate 7 (.rcl true), [.task],
    List.replicate 501 .clock, [.task, .ping true, .task]]

theorem reconnect_safe_lostAgent :
    ∃ s, f446reFirmware.run lostAgent f446reBoot = some s
      ∧ s.trace.count .createEntities = 3 ∧ s.ReconnectSafe := by
  have hrun : (f446reFirmware.run lostAgent f446reBoot).map
      (fun s => s.trace.count .createEntities) = some 3 := by
    decide +kernel
  obtain ⟨s, hs, hcount⟩ := Option.map_eq_some_iff.mp hrun
  have hreach : f446reFirmware.Reachable s :=
    Lib.Machine.reachable_of_run f446reFirmware_start hs
  exact ⟨s, hs, hcount, reconnect_safe boolRcl_documented hreach⟩

end LinoStm32.Uros
