/-
The reconnect machine of `Src/main.c`: `uros_task` with `createEntities`
and `destroyEntities`, beside `control_task`.

The state is the two-task system of `Tasks.lean` and what `uros_task`
keeps for itself. `uros_task` reaches the shared control state only
through `control_set_cmd`, `control_get_odom` and `control_get_imu`, so
each of its steps is a step of that system or leaves it alone
(`Uros.reachable_sys`). Every call into rcl, every ping and every write
to shared state is a step of its own; between any two of them
`control_task` may run and the tick may advance.

# rcl

`Rcl` is the part of rcl and rclc that is called, which is not in the
repository: a state of one object and the calls on it. Every call also
gets an `Answer`, which stands for whatever made it succeed or fail.
`Documented` is what the calls promise about liveness.

# What is left out

The topic, type and node names, which go to rcl unread. The message
fields that `controlPublishCallback` fills in and `createEntities` presets
the covariances of; the callback itself is its two reads of the snapshot
surface. The session timeout `destroyEntities` sets first, which changes
no entity; what it reads is the `contextSource` of `Proofs/Setup.lean`.
The 10 ms delay, during which anything may run anyway.
-/
import LinoStm32.Tasks
import LinoStm32.Lib.Lifecycle

namespace LinoStm32

-- =================================================================== rcl

/-- The rcl objects of `main.c`. -/
inductive Entity
  | support
  | node
  | odomPublisher
  | imuPublisher
  | twistSubscriber
  | controlTimer
  | executor
  deriving DecidableEq

/-- The calls on the executor between its init and its fini. -/
inductive ExecutorCall
  | addSubscription
  | addTimer
  | spinSome
  deriving DecidableEq

/-- rcl and rclc, as far as `main.c` calls them. The returned `Bool` is
whether the call returned `RCL_RET_OK`. -/
structure Rcl where
  Handle : Type
  Answer : Type
  zero : Entity → Handle
  init : Entity → Answer → Handle → Bool × Handle
  executorCall : ExecutorCall → Answer → Handle → Bool × Handle
  fini : Entity → Answer → Handle → Handle
  live : Entity → Handle → Bool

/-- What rcl and rclc document: a zero-initialised object is not live, an
init makes its object live exactly if it succeeds, a fini releases a live
object and has no effect on one that is not live, and the calls on the
executor leave it as live as it was. -/
structure Rcl.Documented (R : Rcl) : Prop where
  zero : ∀ e, R.live e (R.zero e) = false
  init : ∀ e a h, R.live e h = false →
    R.live e (R.init e a h).2 = (R.init e a h).1
  fini_live : ∀ e a h, R.live e h = true →
    R.live e (R.fini e a h) = false
  fini_not_live : ∀ e a h, R.live e h = false → R.fini e a h = h
  executorCall : ∀ c a h,
    R.live .executor (R.executorCall c a h).2 = R.live .executor h

-- ================================================== what the task keeps

/-- `g_dbg_uros_state`. -/
inductive AgentState
  | waitingAgent
  | agentAvailable
  | agentConnected
  | agentDisconnected
  deriving DecidableEq

/-- A call `createEntities` checks the result of. -/
inductive CreateCall
  | init (e : Entity)
  | executor (c : ExecutorCall)
  deriving DecidableEq

/-- The checked calls of `createEntities`, in order. -/
def createCalls : List CreateCall :=
  [.init .support, .init .node, .init .odomPublisher, .init .imuPublisher,
    .init .twistSubscriber, .init .controlTimer, .init .executor,
    .executor .addSubscription, .executor .addTimer]

/-- The calls of `destroyEntities`, in order. -/
def destroyOrder : List Entity :=
  [.odomPublisher, .imuPublisher, .twistSubscriber, .controlTimer,
    .executor, .node, .support]

/-- The `frame_id` strings of the two messages. -/
structure FrameIds where
  odomHeader : String
  odomChild : String
  imuHeader : String
  deriving DecidableEq

/-- What `createEntities` sets them to. -/
def frameIds : FrameIds := ⟨"odom", "base_footprint", "imu_link"⟩

/-- Where `uros_task` is in its loop. -/
inductive LoopPc
  /-- the `switch` -/
  | head
  /-- in the ping of `WAITING_AGENT`, with the clock read before it -/
  | pingWaiting (now : Nat)
  /-- in the ping of `AGENT_CONNECTED` -/
  | pingConnected (now : Nat)
  /-- in `createEntities`, with these checked calls left -/
  | create (rest : List CreateCall)
  /-- at the time synchronisation of `createEntities` -/
  | sync
  /-- in `rclc_executor_spin_some` -/
  | spin
  /-- in the `control_set_cmd(0, 0, 0)` of `AGENT_DISCONNECTED` -/
  | fullStop
  /-- in `destroyEntities`, with these objects left -/
  | destroy (rest : List Entity)
  deriving DecidableEq

/-- What is recorded of `uros_task`: each start of `createEntities`, each
init and whether it succeeded, each fini and whether it found its object
live, each time the strings are set. -/
inductive Event
  | createEntities
  | init (e : Entity) (ok : Bool)
  | fini (e : Entity) (wasLive : Bool)
  | setFrames
  deriving DecidableEq

/-- Both tasks, with all that `uros_task` keeps. `lastWaiting` and
`lastConnected` are the `_last` of the two `EXECUTE_EVERY_N_MS`. -/
structure Uros (R : Rcl) (F : Type) (E : RpmSource F) (I : ImuDriver F)
    where
  sys : System F E I
  state : AgentState
  pc : LoopPc
  handles : Entity → R.Handle
  lastWaiting : UInt32T
  lastConnected : UInt32T
  framesSet : Bool
  frames : FrameIds
  timeOffsetNs : Int
  /-- oldest first -/
  trace : List Event

/-- A callback the executor runs, by its steps on the control loop. -/
inductive Callback (F : Type)
  /-- `twistCallback`, up to the clock read of `control_set_cmd` -/
  | twist (c : Cmd F)
  /-- the critical section of that call -/
  | twistWrite
  /-- `control_get_odom` in `controlPublishCallback` -/
  | getOdom
  /-- `control_get_imu` in `controlPublishCallback` -/
  | getImu

/-- The step of the two-task system a callback step is. -/
def Callback.act {F : Type} {E : RpmSource F} {I : ImuDriver F} :
    Callback F → Act E I
  | .twist c => .setCmd c
  | .twistWrite => .setCmdWrite
  | .getOdom => .getOdom
  | .getImu => .getImu

/-- A step: the tick, one of `control_task`, or one of `uros_task` with
what it hears from outside. -/
inductive UrosAct (R : Rcl) {F : Type} (E : RpmSource F) (I : ImuDriver F)
  | clock
  | ctrl (inp : E.Input) (bus : I.Bus)
  /-- a step that hears nothing -/
  | task
  /-- the return of a ping -/
  | ping (ok : Bool)
  /-- the return of a call into rcl -/
  | rcl (a : R.Answer)
  /-- the return of the time synchronisation, with the agent's clock if
  the session is synchronised -/
  | sync (epochNanos : Option Int)
  /-- a callback inside the spin -/
  | callback (c : Callback F)

-- ================================================================= steps

/-- `(uint32_t)(_now - _last) > (MS)`. -/
def due (ms now last : UInt32T) : Bool := decide (ms < now - last)

namespace Uros

variable {R : Rcl} {F : Type} [CFloat F] {E : RpmSource F}
  {I : ImuDriver F}

/-- All objects are live. -/
def AllLive (s : Uros R F E I) : Prop :=
  ∀ e, R.live e (s.handles e) = true

/-- No object is live. -/
def NoneLive (s : Uros R F E I) : Prop :=
  ∀ e, R.live e (s.handles e) = false

/-- A step of the two-task system. -/
def onSys (T : Trig F) (a : Act E I) (s : Uros R F E I) :
    Option (Uros R F E I) :=
  (System.apply T a s.sys).map fun y => { s with sys := y }

def setHandle (s : Uros R F E I) (e : Entity) (h : R.Handle) :
    Uros R F E I :=
  { s with handles := Function.update s.handles e h }

/-- The zero-initialisations at the top of `createEntities`: every object
but `support`. -/
def zeroInit (s : Uros R F E I) : Entity → R.Handle
  | .support => s.handles .support
  | e => R.zero e

/-- The set-once block of `createEntities`. -/
def setFrameIds (s : Uros R F E I) : Uros R F E I :=
  if s.framesSet then s
  else
    { s with
      frames := frameIds
      framesSet := true
      trace := s.trace ++ [.setFrames] }

/-- `RCCHECK`: go on with the next call, or return `false`. -/
def rccheck (ok : Bool) (rest : List CreateCall) (s : Uros R F E I) :
    Uros R F E I :=
  if ok then { s with pc := .create rest }
  else { s with state := .waitingAgent, pc := .destroy destroyOrder }

/-- A step of `uros_task` that hears nothing from outside. -/
def taskStep (T : Trig F) (s : Uros R F E I) : Option (Uros R F E I) :=
  match s.pc with
  | .head =>
      match s.state with
      | .waitingAgent =>
          if due 500 (linoMillis s.sys.time) s.lastWaiting then
            some { s with pc := .pingWaiting s.sys.time }
          else some s
      | .agentAvailable =>
          some { s with
            handles := s.zeroInit
            trace := s.trace ++ [.createEntities]
            pc := .create createCalls }
      | .agentConnected =>
          if due 200 (linoMillis s.sys.time) s.lastConnected then
            some { s with pc := .pingConnected s.sys.time }
          else some { s with pc := .spin }
      | .agentDisconnected =>
          onSys T (.setCmd Cmd.zero) { s with pc := .fullStop }
  | .create [] => some { s.setFrameIds with pc := .sync }
  | .fullStop => onSys T .setCmdWrite { s with pc := .destroy destroyOrder }
  -- after a failed `createEntities` the state already is `WAITING_AGENT`
  | .destroy [] => some { s with state := .waitingAgent, pc := .head }
  | _ => none

/-- A ping returns. -/
def pingStep (ok : Bool) (s : Uros R F E I) : Option (Uros R F E I) :=
  match s.pc with
  | .pingWaiting now =>
      some { s with
        state := if ok then .agentAvailable else .waitingAgent
        lastWaiting := linoMillis now
        pc := .head }
  | .pingConnected now =>
      some { s with
        state := if ok then .agentConnected else .agentDisconnected
        lastConnected := linoMillis now
        pc := if ok then .spin else .head }
  | _ => none

/-- A call into rcl returns. -/
def rclStep (a : R.Answer) (s : Uros R F E I) : Option (Uros R F E I) :=
  match s.pc with
  | .create (.init e :: rest) =>
      let r := R.init e a (s.handles e)
      some (rccheck r.1 rest
        { s.setHandle e r.2 with trace := s.trace ++ [.init e r.1] })
  | .create (.executor c :: rest) =>
      let r := R.executorCall c a (s.handles .executor)
      some (rccheck r.1 rest (s.setHandle .executor r.2))
  | .spin =>
      -- the spin returns only between callbacks
      match s.sys.uros with
      | .idle =>
          let r := R.executorCall .spinSome a (s.handles .executor)
          some { s.setHandle .executor r.2 with pc := .head }
      | .setCmd _ _ => none
  | .destroy (e :: rest) =>
      some { s.setHandle e (R.fini e a (s.handles e)) with
        trace := s.trace ++ [.fini e (R.live e (s.handles e))]
        pc := .destroy rest }
  | _ => none

/-- The time synchronisation returns, and with it `createEntities`. -/
def syncStep (epochNanos : Option Int) (s : Uros R F E I) :
    Option (Uros R F E I) :=
  match s.pc with
  | .sync =>
      some { s with
        timeOffsetNs :=
          match epochNanos with
          | some ns => ns - ((linoMillis s.sys.time).toNat : Int) * 1000000
          | none => s.timeOffsetNs
        state := .agentConnected
        pc := .head }
  | _ => none

/-- A step of a callback. -/
def callbackStep (T : Trig F) (c : Callback F) (s : Uros R F E I) :
    Option (Uros R F E I) :=
  match s.pc with
  | .spin => onSys T c.act s
  | _ => none

/-- Take a step, when it is enabled. -/
def apply (T : Trig F) :
    UrosAct R E I → Uros R F E I → Option (Uros R F E I)
  | .clock, s => onSys T .clock s
  | .ctrl inp bus, s => onSys T (.ctrl inp bus) s
  | .task, s => s.taskStep T
  | .ping ok, s => s.pingStep ok
  | .rcl a, s => s.rclStep a
  | .sync epochNanos, s => s.syncStep epochNanos
  | .callback c, s => s.callbackStep T c

/-- When the scheduler starts: all statics zero. -/
def start (R : Rcl) (sys : System F E I) : Uros R F E I where
  sys := sys
  state := .waitingAgent
  pc := .head
  handles := R.zero
  lastWaiting := 0
  lastConnected := 0
  framesSet := false
  frames := ⟨"", "", ""⟩
  timeOffsetNs := 0
  trace := []

end Uros

/-- The firmware from the start of the scheduler on. -/
def firmware (R : Rcl) {F : Type} [CFloat F] (E : RpmSource F)
    (I : ImuDriver F) (T : Trig F) (cfg : BoardConfig F) :
    Lib.Machine (Uros R F E I) (UrosAct R E I) where
  start s := ∃ y, (tasks E I T cfg).start y ∧ s = Uros.start R y
  apply := Uros.apply T

namespace Uros

variable {R : Rcl} {F : Type} [CFloat F] {E : RpmSource F}
  {I : ImuDriver F}

-- ============================================ what they leave unchanged

section Unchanged

variable (s : Uros R F E I) (ok : Bool) (rest : List CreateCall)

omit [CFloat F]

@[simp] theorem setFrameIds_sys : s.setFrameIds.sys = s.sys := by
  unfold setFrameIds
  split <;> rfl

@[simp] theorem setFrameIds_state : s.setFrameIds.state = s.state := by
  unfold setFrameIds
  split <;> rfl

@[simp] theorem setFrameIds_timeOffsetNs :
    s.setFrameIds.timeOffsetNs = s.timeOffsetNs := by
  unfold setFrameIds
  split <;> rfl

@[simp] theorem rccheck_sys : (rccheck ok rest s).sys = s.sys := by
  cases ok <;> rfl

@[simp] theorem rccheck_timeOffsetNs :
    (rccheck ok rest s).timeOffsetNs = s.timeOffsetNs := by
  cases ok <;> rfl

end Unchanged

-- ================================================== what a step can do

/-- A step as a relation: one case per kind of step, guards included. -/
inductive Moves (T : Trig F) (s : Uros R F E I) : Uros R F E I → Prop
  | clock : Moves T s { s with sys := { s.sys with time := s.sys.time + 1 } }
  | ctrl (inp : E.Input) (bus : I.Bus) :
      Moves T s { s with sys := s.sys.ctrlStep T inp bus }
  | notDue : s.pc = .head → s.state = .waitingAgent → Moves T s s
  | askWaiting : s.pc = .head → s.state = .waitingAgent →
      Moves T s { s with pc := .pingWaiting s.sys.time }
  | createEntities : s.pc = .head → s.state = .agentAvailable →
      Moves T s { s with
        handles := s.zeroInit
        trace := s.trace ++ [.createEntities]
        pc := .create createCalls }
  | askConnected : s.pc = .head → s.state = .agentConnected →
      Moves T s { s with pc := .pingConnected s.sys.time }
  | spinSome : s.pc = .head → s.state = .agentConnected →
      Moves T s { s with pc := .spin }
  | fullStop (y : System F E I) : s.pc = .head →
      s.state = .agentDisconnected →
      System.apply T (.setCmd Cmd.zero) s.sys = some y →
      Moves T s { s with sys := y, pc := .fullStop }
  | setFrames : s.pc = .create [] →
      Moves T s { s.setFrameIds with pc := .sync }
  | fullStopWrite (y : System F E I) : s.pc = .fullStop →
      System.apply T .setCmdWrite s.sys = some y →
      Moves T s { s with sys := y, pc := .destroy destroyOrder }
  | destroyed : s.pc = .destroy [] →
      Moves T s { s with state := .waitingAgent, pc := .head }
  | pongWaiting (ok : Bool) (now : Nat) : s.pc = .pingWaiting now →
      Moves T s { s with
        state := if ok then .agentAvailable else .waitingAgent
        lastWaiting := linoMillis now
        pc := .head }
  | pongConnected (ok : Bool) (now : Nat) : s.pc = .pingConnected now →
      Moves T s { s with
        state := if ok then .agentConnected else .agentDisconnected
        lastConnected := linoMillis now
        pc := if ok then .spin else .head }
  | init (e : Entity) (rest : List CreateCall) (a : R.Answer) :
      s.pc = .create (.init e :: rest) →
      Moves T s (rccheck (R.init e a (s.handles e)).1 rest
        { s.setHandle e (R.init e a (s.handles e)).2 with
          trace := s.trace ++ [.init e (R.init e a (s.handles e)).1] })
  | executor (c : ExecutorCall) (rest : List CreateCall) (a : R.Answer) :
      s.pc = .create (.executor c :: rest) →
      Moves T s
        (rccheck (R.executorCall c a (s.handles .executor)).1 rest
          (s.setHandle .executor
            (R.executorCall c a (s.handles .executor)).2))
  | spun (a : R.Answer) : s.pc = .spin → s.sys.uros = .idle →
      Moves T s { s.setHandle .executor
          (R.executorCall .spinSome a (s.handles .executor)).2 with
        pc := .head }
  | fini (e : Entity) (rest : List Entity) (a : R.Answer) :
      s.pc = .destroy (e :: rest) →
      Moves T s { s.setHandle e (R.fini e a (s.handles e)) with
        trace := s.trace ++ [.fini e (R.live e (s.handles e))]
        pc := .destroy rest }
  | synced (offset : Int) : s.pc = .sync →
      Moves T s { s with
        timeOffsetNs := offset, state := .agentConnected, pc := .head }
  | callback (c : Callback F) (y : System F E I) : s.pc = .spin →
      System.apply T c.act s.sys = some y →
      Moves T s { s with sys := y }

/-- Every step taken is one of these. -/
theorem moves_of_apply {T : Trig F} {a : UrosAct R E I}
    {s s' : Uros R F E I} (h : apply T a s = some s') : Moves T s s' := by
  cases a with
  | clock =>
      cases h
      exact .clock
  | ctrl inp bus =>
      cases h
      exact .ctrl inp bus
  | task =>
      simp only [apply, taskStep] at h
      split at h
      · next hpc =>
          split at h
          · next hst =>
              split at h
              · cases h; exact .askWaiting hpc hst
              · cases h; exact .notDue hpc hst
          · next hst => cases h; exact .createEntities hpc hst
          · next hst =>
              split at h
              · cases h; exact .askConnected hpc hst
              · cases h; exact .spinSome hpc hst
          · next hst =>
              obtain ⟨y, hy, hs⟩ := Option.map_eq_some_iff.mp h
              cases hs
              exact .fullStop y hpc hst hy
      · next hpc => cases h; exact .setFrames hpc
      · next hpc =>
          obtain ⟨y, hy, hs⟩ := Option.map_eq_some_iff.mp h
          cases hs
          exact .fullStopWrite y hpc hy
      · next hpc => cases h; exact .destroyed hpc
      · cases h
  | ping ok =>
      simp only [apply, pingStep] at h
      split at h
      · next now hpc => cases h; exact .pongWaiting ok now hpc
      · next now hpc => cases h; exact .pongConnected ok now hpc
      · cases h
  | rcl a =>
      simp only [apply, rclStep] at h
      split at h
      · next e rest hpc => cases h; exact .init e rest a hpc
      · next c rest hpc => cases h; exact .executor c rest a hpc
      · next hpc =>
          split at h
          · next hu => cases h; exact .spun a hpc hu
          · cases h
      · next e rest hpc => cases h; exact .fini e rest a hpc
      · cases h
  | sync epochNanos =>
      simp only [apply, syncStep] at h
      split at h
      · next hpc => cases h; exact .synced _ hpc
      · cases h
  | callback c =>
      simp only [apply, callbackStep] at h
      split at h
      · next hpc =>
          obtain ⟨y, hy, hs⟩ := Option.map_eq_some_iff.mp h
          cases hs
          exact .callback c y hpc hy
      · cases h

-- ============================================== the two-task system in it

/-- What a step does to the two-task system is a step of it, or nothing. -/
theorem Moves.sys {T : Trig F} {s s' : Uros R F E I}
    (h : Moves T s s') :
    s'.sys = s.sys ∨ ∃ a, System.apply T a s.sys = some s'.sys := by
  cases h with
  | clock => exact .inr ⟨.clock, rfl⟩
  | ctrl inp bus => exact .inr ⟨.ctrl inp bus, rfl⟩
  | fullStop y _ _ hy => exact .inr ⟨_, hy⟩
  | fullStopWrite y _ hy => exact .inr ⟨_, hy⟩
  | callback c y _ hy => exact .inr ⟨_, hy⟩
  | init e rest a _ => exact .inl (rccheck_sys _ _ _)
  | executor c rest a _ => exact .inl (rccheck_sys _ _ _)
  | setFrames _ => exact .inl s.setFrameIds_sys
  | _ => exact .inl rfl

/-- The true time never goes back. -/
theorem Moves.time_le {T : Trig F} {s s' : Uros R F E I}
    (h : Moves T s s') : s.sys.time ≤ s'.sys.time := by
  rcases h.sys with hsys | ⟨a, ha⟩
  · rw [hsys]
  · exact System.time_le_of_apply ha

/-- The offset is written nowhere but at the time synchronisation. -/
theorem Moves.timeOffsetNs {T : Trig F} {s s' : Uros R F E I}
    (h : Moves T s s') :
    s'.timeOffsetNs = s.timeOffsetNs ∨ s.pc = .sync := by
  cases h with
  | init e rest a _ => exact .inl (rccheck_timeOffsetNs _ _ _)
  | executor c rest a _ => exact .inl (rccheck_timeOffsetNs _ _ _)
  | setFrames _ => exact .inl s.setFrameIds_timeOffsetNs
  | synced offset hpc => exact .inr hpc
  | _ => exact .inl rfl

/-- So only its return writes it: there, all that can be done otherwise
is the tick and `control_task`. -/
theorem timeOffsetNs_of_apply {T : Trig F} {a : UrosAct R E I}
    {s s' : Uros R F E I} (h : apply T a s = some s')
    (ha : ∀ epochNanos, a ≠ .sync epochNanos) :
    s'.timeOffsetNs = s.timeOffsetNs := by
  rcases (moves_of_apply h).timeOffsetNs with hsame | hpc
  · exact hsame
  cases a with
  | clock => cases h; rfl
  | ctrl inp bus => cases h; rfl
  | task => simp [apply, taskStep, hpc] at h
  | ping ok => simp [apply, pingStep, hpc] at h
  | rcl ans => simp [apply, rclStep, hpc] at h
  | sync epochNanos => exact absurd rfl (ha epochNanos)
  | callback c => simp [apply, callbackStep, hpc] at h

/-- And it does so from the agent's clock and one tick read. -/
theorem sync_of_apply {T : Trig F} {epochNanos : Option Int}
    {s s' : Uros R F E I} (h : apply T (.sync epochNanos) s = some s') :
    s'.sys = s.sys ∧ ∀ ns, epochNanos = some ns →
      s'.timeOffsetNs
        = ns - ((linoMillis s.sys.time).toNat : Int) * 1000000 := by
  simp only [apply, syncStep] at h
  split at h
  · cases h
    refine ⟨rfl, ?_⟩
    rintro ns rfl
    rfl
  · cases h

/-- The calls `uros_task` makes on the control loop. -/
inductive Calls (s : Uros R F E I) : UrosAct R E I → Act E I → Prop
  | callback (c : Callback F) : s.pc = .spin →
      Calls s (.callback c) c.act
  | fullStop : s.pc = .head → Calls s .task (.setCmd Cmd.zero)
  | fullStopWrite : s.pc = .fullStop → Calls s .task .setCmdWrite

theorem Calls.ne_clock {s : Uros R F E I}
    {a : UrosAct R E I} {b : Act E I} (h : s.Calls a b) : b ≠ .clock := by
  cases h with
  | callback c _ => cases c <;> exact nofun
  | fullStop _ => exact nofun
  | fullStopWrite _ => exact nofun

theorem Calls.ne_ctrl {s : Uros R F E I}
    {a : UrosAct R E I} {b : Act E I} (h : s.Calls a b) (inp : E.Input)
    (bus : I.Bus) : b ≠ .ctrl inp bus := by
  cases h with
  | callback c _ => cases c <;> exact nofun
  | fullStop _ => exact nofun
  | fullStopWrite _ => exact nofun

/-- A step of `uros_task` is one of them, or leaves the control loop
alone. -/
theorem calls_of_apply {T : Trig F} {a : UrosAct R E I} {s s' : Uros R F E I}
    (h : apply T a s = some s') (hclock : a ≠ .clock)
    (hctrl : ∀ inp bus, a ≠ .ctrl inp bus) :
    s'.sys = s.sys
      ∨ ∃ b, s.Calls a b ∧ System.apply T b s.sys = some s'.sys := by
  cases a with
  | clock => exact absurd rfl hclock
  | ctrl inp bus => exact absurd rfl (hctrl inp bus)
  | task =>
      simp only [apply, taskStep] at h
      split at h
      · next hpc =>
        split at h
        · split at h <;>
            · cases h
              exact Or.inl rfl
        · cases h
          exact Or.inl rfl
        · split at h <;>
            · cases h
              exact Or.inl rfl
        · obtain ⟨y, hy, rfl⟩ := Option.map_eq_some_iff.mp h
          exact Or.inr ⟨_, .fullStop hpc, hy⟩
      · cases h
        exact Or.inl (setFrameIds_sys s)
      · next hpc =>
        obtain ⟨y, hy, rfl⟩ := Option.map_eq_some_iff.mp h
        exact Or.inr ⟨_, .fullStopWrite hpc, hy⟩
      · cases h
        exact Or.inl rfl
      · cases h
  | ping ok =>
      simp only [apply, pingStep] at h
      split at h <;>
        · cases h <;> exact Or.inl rfl
  | rcl ans =>
      simp only [apply, rclStep] at h
      split at h
      · cases h
        exact Or.inl (rccheck_sys _ _ _)
      · cases h
        exact Or.inl (rccheck_sys _ _ _)
      · split at h <;>
          · cases h <;> exact Or.inl rfl
      · cases h
        exact Or.inl rfl
      · cases h
  | sync ns =>
      simp only [apply, syncStep] at h
      split at h <;>
        · cases h <;> exact Or.inl rfl
  | callback c =>
      simp only [apply, callbackStep] at h
      split at h
      · next hpc =>
        obtain ⟨y, hy, rfl⟩ := Option.map_eq_some_iff.mp h
        exact Or.inr ⟨_, .callback c hpc, hy⟩
      · cases h

/-- Only the callback's `control_get_odom` adds to what that returned. -/
theorem odomReads_of_apply {T : Trig F} {a : UrosAct R E I}
    {s s' : Uros R F E I} (h : apply T a s = some s')
    (ha : a ≠ .callback .getOdom) :
    s'.sys.odomReads = s.sys.odomReads := by
  have hcalls : (∀ inp bus, a ≠ .ctrl inp bus) → a ≠ .clock →
      s'.sys.odomReads = s.sys.odomReads := by
    intro hctrl hclock
    rcases calls_of_apply h hclock hctrl with hsys | ⟨b, hb, hy⟩
    · rw [hsys]
    · refine System.odomReads_of_apply hy ?_
      cases hb with
      | callback c _ =>
          cases c with
          | getOdom => exact absurd rfl ha
          | _ => exact nofun
      | fullStop _ => exact nofun
      | fullStopWrite _ => exact nofun
  cases a with
  | clock => cases h; rfl
  | ctrl inp bus =>
      cases h
      exact System.ctrlStep_odomReads _ inp bus s.sys
  | _ => exact hcalls (fun _ _ => nofun) nofun

/-- It adds the tuple the control loop holds. -/
theorem odomReads_of_getOdom {T : Trig F} {s s' : Uros R F E I}
    (h : apply T (.callback .getOdom) s = some s') :
    s'.sys.odomReads
      = s.sys.odomReads ++ [controlGetOdom s.sys.loop] := by
  simp only [apply, callbackStep] at h
  split at h
  · obtain ⟨y, hy, rfl⟩ := Option.map_eq_some_iff.mp h
    cases System.moves_of_apply hy with
    | getOdom _ => rfl
  · cases h

/-- The firmware's two-task system is in a state the two-task system
reaches by itself: what holds of every run of the tasks holds inside the
firmware. -/
theorem reachable_sys {T : Trig F} {cfg : BoardConfig F}
    {s : Uros R F E I} (h : (firmware R E I T cfg).Reachable s) :
    (tasks E I T cfg).Reachable s.sys := by
  apply h.refines
  · intro s hs
    obtain ⟨y, hy, rfl⟩ := hs
    exact hy
  · intro s a s' happ
    exact (moves_of_apply happ).sys

end Uros

end LinoStm32
