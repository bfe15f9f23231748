/-
The life of one resource over a run that is cut into sessions.

Each event of a run means one of four things to a resource (`Sign`): a
session begins, the resource is acquired, it is released while held or
while not held, or nothing. `watch` follows a resource through its
phases and gives up at the first event out of turn:

    closed --session--> fresh --acquire--> opened
      ^                   |                  |
      +--release false----+---release true---+

A run the watch survives from `closed` therefore consists of whole
sessions, and in each session that another one follows the resource was
acquired at most once, and released exactly once after that
(`session_matched`).

Inside the last session, which need not be over, the phase tells whether
the resource was acquired since the session began (`Acquired`).
-/
import LinoStm32.Lib.Machine
import LinoStm32.Lib.Window
import Mathlib.Data.List.Basic

namespace LinoStm32.Lib.Lifecycle

inductive Phase
  | closed
  | fresh
  | opened
  deriving DecidableEq

/-- What an event means to the resource. -/
inductive Sign
  | session
  | acquire
  | release (held : Bool)
  | other
  deriving DecidableEq

/-- The phase after an event, if it comes in turn. -/
def watch : Sign → Phase → Option Phase
  | .session, .closed => some .fresh
  | .acquire, .fresh => some .opened
  | .release true, .opened => some .closed
  | .release false, .fresh => some .closed
  | .other, p => some p
  | _, _ => none

/-- The watch as a machine over events, read through `sign`. -/
def watcher {ε : Type*} (sign : ε → Sign) : Machine Phase ε where
  start p := p = .closed
  apply e p := watch (sign e) p

variable {ε : Type*} {sign : ε → Sign}

/-- The events that mean something, in order. -/
def signs (sign : ε → Sign) (l : List ε) : List Sign :=
  (l.map sign).filter fun g => decide (g ≠ .other)

theorem signs_cons_other {e : ε} {l : List ε} (h : sign e = .other) :
    signs sign (e :: l) = signs sign l := by
  rw [signs, List.map_cons, List.filter_cons_of_neg (by simp [h])]
  rfl

theorem signs_cons_of_ne {e : ε} {l : List ε} (h : sign e ≠ .other) :
    signs sign (e :: l) = sign e :: signs sign l := by
  rw [signs, List.map_cons, List.filter_cons_of_pos (by simp [h])]
  rfl

-- ================================================== inside one session

/-- What a run inside a session means to a resource, by the phase it
starts in, if it ends closed. -/
theorem signs_of_run {l : List ε} {p : Phase}
    (hl : ∀ e ∈ l, sign e ≠ .session)
    (hrun : (watcher sign).run l p = some .closed) :
    match p with
    | .closed => signs sign l = []
    | .opened => signs sign l = [.release true]
    | .fresh => signs sign l = [.acquire, .release true]
        ∨ signs sign l = [.release false] := by
  induction l generalizing p with
  | nil =>
      injection hrun with hp
      subst hp
      rfl
  | cons e rest ih =>
      have hrest : ∀ e' ∈ rest, sign e' ≠ .session :=
        fun e' he => hl e' (List.mem_cons_of_mem e he)
      have hself : sign e ≠ .session := hl e List.mem_cons_self
      obtain ⟨q, hq, hrun'⟩ := Machine.run_cons.mp hrun
      have hih := ih (p := q) hrest hrun'
      change watch (sign e) p = some q at hq
      cases hsign : sign e with
      | session => exact absurd hsign hself
      | other =>
          rw [hsign] at hq
          rw [signs_cons_other hsign]
          cases p <;> cases hq <;> exact hih
      | acquire =>
          rw [hsign] at hq
          have hne : sign e ≠ .other := by rw [hsign]; decide
          rw [signs_cons_of_ne hne, hsign]
          cases p with
          | closed => cases hq
          | opened => cases hq
          | fresh =>
              cases hq
              exact .inl (congrArg (Sign.acquire :: ·) hih)
      | release held =>
          rw [hsign] at hq
          have hne : sign e ≠ .other := by rw [hsign]; simp
          rw [signs_cons_of_ne hne, hsign]
          cases p with
          | closed => cases held <;> cases hq
          | opened =>
              cases held with
              | false => cases hq
              | true =>
                  cases hq
                  exact congrArg (Sign.release true :: ·) hih
          | fresh =>
              cases held with
              | true => cases hq
              | false =>
                  cases hq
                  exact .inr (congrArg (Sign.release false :: ·) hih)

-- ====================================================== a whole session

/-- A session begins only from `closed`, and always leads to `fresh`. -/
theorem phases_of_session {b : ε} {q q' : Phase} (hb : sign b = .session)
    (happ : (watcher sign).apply b q = some q') :
    q = .closed ∧ q' = .fresh := by
  change watch (sign b) q = some q' at happ
  rw [hb] at happ
  cases q with
  | closed => cases happ; exact ⟨rfl, rfl⟩
  | fresh => cases happ
  | opened => cases happ

/-- Before the first session nothing happens to the resource. -/
theorem before_session {p : Phase} {pre post : List ε} {b : ε}
    (hb : sign b = .session) (hpre : ∀ e ∈ pre, sign e ≠ .session)
    (hrun : (watcher sign).run (pre ++ b :: post) .closed = some p) :
    signs sign pre = [] := by
  obtain ⟨q, hq, hrest⟩ := Machine.run_append.mp hrun
  obtain ⟨q₁, hb₁, -⟩ := Machine.run_cons.mp hrest
  obtain ⟨rfl, -⟩ := phases_of_session hb hb₁
  exact signs_of_run (p := .closed) hpre hq

/-- Between the beginnings of two consecutive sessions the resource was
acquired once and then released once, or only found not held. -/
theorem session_matched {p : Phase} {pre mid post : List ε} {b b' : ε}
    (hb : sign b = .session) (hb' : sign b' = .session)
    (hmid : ∀ e ∈ mid, sign e ≠ .session)
    (hrun : (watcher sign).run (pre ++ b :: (mid ++ b' :: post)) .closed
      = some p) :
    signs sign mid = [.acquire, .release true]
      ∨ signs sign mid = [.release false] := by
  obtain ⟨q, -, hq⟩ := Machine.run_append.mp hrun
  obtain ⟨q₁, hb₁, hq₁⟩ := Machine.run_cons.mp hq
  obtain ⟨q₂, hmid₂, hq₂⟩ := Machine.run_append.mp hq₁
  obtain ⟨q₃, hb₃, -⟩ := Machine.run_cons.mp hq₂
  obtain ⟨-, rfl⟩ := phases_of_session hb hb₁
  obtain ⟨rfl, -⟩ := phases_of_session hb' hb₃
  exact signs_of_run (p := .fresh) hmid hmid₂

-- ====================================================== the last session

/-- The events since the last session began. -/
def current (sign : ε → Sign) (l : List ε) : List ε :=
  window (fun e => if sign e = .session then some () else none) l

theorem current_concat_session {l : List ε} {e : ε}
    (h : sign e = .session) : current sign (l ++ [e]) = [] :=
  window_concat_some (a := ()) l (if_pos h)

theorem current_concat_of_ne {l : List ε} {e : ε}
    (h : sign e ≠ .session) :
    current sign (l ++ [e]) = current sign l ++ [e] :=
  window_concat_none l (if_neg h)

/-- The resource was acquired in the last session. -/
def Acquired (sign : ε → Sign) (l : List ε) : Prop :=
  ∃ e ∈ current sign l, sign e = .acquire

/-- A session begins without it. -/
theorem not_acquired_concat_session {l : List ε} {e : ε}
    (h : sign e = .session) : ¬ Acquired sign (l ++ [e]) := by
  rintro ⟨e', hmem, -⟩
  rw [current_concat_session h] at hmem
  exact absurd hmem List.not_mem_nil

theorem acquired_concat_acquire {l : List ε} {e : ε}
    (h : sign e = .acquire) : Acquired sign (l ++ [e]) := by
  have hne : sign e ≠ .session := by rw [h]; decide
  refine ⟨e, ?_, h⟩
  rw [current_concat_of_ne hne]
  exact List.mem_append_right _ (List.mem_singleton_self e)

/-- An event that means nothing changes nothing. -/
theorem acquired_concat_other {l : List ε} {e : ε} (h : sign e = .other) :
    Acquired sign (l ++ [e]) ↔ Acquired sign l := by
  have hne : sign e ≠ .session := by rw [h]; decide
  unfold Acquired
  rw [current_concat_of_ne hne]
  constructor
  · intro hacq
    obtain ⟨e', hmem, hsign⟩ := hacq
    rcases List.mem_append.mp hmem with hmem | hmem
    · exact ⟨e', hmem, hsign⟩
    · rw [List.mem_singleton.mp hmem, h] at hsign
      cases hsign
  · intro hacq
    obtain ⟨e', hmem, hsign⟩ := hacq
    exact ⟨e', List.mem_append_left _ hmem, hsign⟩

/-- What the phase says of the last session: the resource is fresh before
it was acquired and open once it was. -/
theorem acquired_of_run {l : List ε} {p : Phase}
    (hrun : (watcher sign).run l .closed = some p) :
    match p with
    | .closed => True
    | .fresh => ¬ Acquired sign l
    | .opened => Acquired sign l := by
  induction l using List.reverseRecOn generalizing p with
  | nil =>
      injection hrun with hp
      subst hp
      trivial
  | append_singleton l e ih =>
      obtain ⟨q, hq, hstep⟩ := Machine.run_concat.mp hrun
      have hih := ih hq
      change watch (sign e) q = some p at hstep
      cases hsign : sign e with
      | session =>
          obtain ⟨-, rfl⟩ := phases_of_session hsign hstep
          exact not_acquired_concat_session hsign
      | acquire =>
          rw [hsign] at hstep
          cases q with
          | closed => cases hstep
          | fresh => cases hstep; exact acquired_concat_acquire hsign
          | opened => cases hstep
      | release held =>
          -- whichever way it was released, it is closed now
          rw [hsign] at hstep
          cases q <;> cases held <;> cases hstep <;> trivial
      | other =>
          rw [hsign] at hstep
          have hsame := acquired_concat_other (l := l) hsign
          cases q with
          | closed => cases hstep; trivial
          | fresh => cases hstep; exact hsame.not.mpr hih
          | opened => cases hstep; exact hsame.mpr hih

/-- A resource that is not closed is in some session. -/
theorem session_of_not_closed {l : List ε} {p : Phase} (hp : p ≠ .closed)
    (hrun : (watcher sign).run l .closed = some p) :
    ∃ e ∈ l, sign e = .session := by
  induction l using List.reverseRecOn generalizing p with
  | nil =>
      injection hrun with hp'
      exact absurd hp'.symm hp
  | append_singleton l e ih =>
      obtain ⟨q, hq, hstep⟩ := Machine.run_concat.mp hrun
      by_cases hsign : sign e = .session
      · exact ⟨e, List.mem_append_right _ (List.mem_singleton_self e), hsign⟩
      · have hqc : q ≠ .closed := by
          rintro rfl
          change watch (sign e) .closed = some p at hstep
          cases hs : sign e with
          | session => exact hsign hs
          | acquire => rw [hs] at hstep; cases hstep
          | release held => rw [hs] at hstep; cases held <;> cases hstep
          | other => rw [hs] at hstep; cases hstep; exact hp rfl
        obtain ⟨e', hmem, hs⟩ := ih hqc hq
        exact ⟨e', List.mem_append_left _ hmem, hs⟩

end LinoStm32.Lib.Lifecycle
