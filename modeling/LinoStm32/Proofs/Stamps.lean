/-
Header stamps: exactly when they are the agent's time.

The offset of a session is computed from one read of the 32-bit tick, and
every stamp adds it to another. The two residues differ by the true
milliseconds between the reads as long as both lie in the same turn of
the counter (`stampAt_true_iff`); after it has wrapped, a stamp is a whole
turn early, 49.7 days.

`Kept` is what every step keeps of the open session: where its stamps came
from, and that their clock reads came in order. A session records the stamp
of the odometry header; the IMU header carries the same one (`OneStamp`).
-/
import LinoStm32.Publish
import LinoStm32.Proofs.Reconnect

namespace LinoStm32

-- ======================================================= the arithmetic

/-- Seconds and nanoseconds together are the tick. -/
theorem stampNs_clockGettime (tick : UInt32T) (timeOffsetNs : Int) :
    stampNs (clockGettime tick) timeOffsetNs
      = (tick.toNat : Int) * 1000000 + timeOffsetNs := by
  unfold stampNs clockGettime
  push_cast
  omega

namespace Stamp

/-- A time that is not negative is split into nanoseconds below a
second. -/
theorem nanosec_lt {ns : Int} (h : 0 ≤ ns) :
    (ofNs ns).nanosec < 1000000000 := by
  show (BitVec.ofInt 32 (ns.tmod 1000000000)).toNat < 1000000000
  rw [Int.tmod_eq_emod_of_nonneg h, BitVec.toNat_ofInt]
  omega

/-- While the seconds fit 32 bits, a stamp with nanoseconds below a second
says the time it was made from: a negative time that leaves a remainder
wraps to more than three seconds of nanoseconds. -/
theorem toNs_ofNs {ns : Int} (hlo : -(2 ^ 31 * 1000000000) ≤ ns)
    (hhi : ns < 2 ^ 31 * 1000000000)
    (hnano : (ofNs ns).nanosec < 1000000000) : (ofNs ns).toNs = ns := by
  have hsplit := Int.mul_tdiv_add_tmod ns 1000000000
  have hmod := Int.tmod_lt_of_pos ns (show (0 : Int) < 1000000000 by decide)
  have hneg := Int.lt_tmod_of_pos ns
    (show (0 : Int) < 1000000000 by decide)
  have hnanosec : ((ofNs ns).nanosec : Int)
      = ns.tmod 1000000000 % 4294967296 := by
    show (((BitVec.ofInt 32 (ns.tmod 1000000000)).toNat : Nat) : Int) = _
    rw [BitVec.toNat_ofInt]
    exact Int.toNat_of_nonneg (Int.emod_nonneg _ (by decide))
  -- so there is no negative remainder
  have hsec : (ofNs ns).sec = ns.tdiv 1000000000 := by
    show (BitVec.ofInt 32 (ns.tdiv 1000000000)).toInt = _
    rw [BitVec.toInt_ofInt]
    exact Int.bmod_eq_of_le_mul_two (by omega) (by omega)
  unfold toNs
  omega

end Stamp

-- ========================================================= what it should

namespace Session

/-- What the agent's clock shows at a true time. -/
def epochAt (e : Session) (readAt : Nat) : Int :=
  e.epoch + ((readAt : Int) - (e.syncAt : Int)) * 1000000

/-- The times of the session are not negative, and their seconds below
2^31. -/
structure InRange (e : Session) : Prop where
  epoch : 0 ≤ e.epoch
  seconds : ∀ p ∈ e.stamps, e.epochAt p.readAt < 2 ^ 31 * 1000000000

/-- Every stamp of the session is the agent's time at its clock read, and
they never go back. -/
structure StampsTrue (e : Session) : Prop where
  nanosec : ∀ p ∈ e.stamps, p.stamp.nanosec < 1000000000
  time : ∀ p ∈ e.stamps, p.stamp.toNs = e.epochAt p.readAt
  ordered : e.stamps.IsChain fun a b => a.stamp.toNs ≤ b.stamp.toNs

/-- The offset the session's synchronisation left. -/
def offset (e : Session) : Int :=
  e.epoch - ((linoMillis e.syncAt).toNat : Int) * 1000000

/-- The stamp a clock read gives in the session. -/
def stampAt (e : Session) (readAt : Nat) : Stamp :=
  .ofNs (stampNs (clockGettime (linoMillis readAt)) e.offset)

section StampAt

variable {e : Session} {readAt : Nat}

theorem linoMillis_toNat (t : Nat) :
    ((linoMillis t).toNat : Int) = (t : Int) % 4294967296 := by
  show (((BitVec.ofNat 32 t).toNat : Nat) : Int) = _
  rw [BitVec.toNat_ofNat]
  exact Int.natCast_emod _ _

/-- Before it is split, a stamp is early by the turns of the tick since
the synchronisation. -/
theorem ns_eq (e : Session) (readAt : Nat) :
    stampNs (clockGettime (linoMillis readAt)) e.offset
      = e.epochAt readAt
        - ((readAt / 4294967296 : Nat) - (e.syncAt / 4294967296 : Nat) : Int)
          * 4294967296000000 := by
  rw [stampNs_clockGettime, offset, epochAt, linoMillis_toNat,
    linoMillis_toNat]
  push_cast
  omega

/-- In range it is at most one turn before the start of the epoch, and its
seconds are below 2^31. -/
theorem ns_bounds (hepoch : 0 ≤ e.epoch)
    (hsec : e.epochAt readAt < 2 ^ 31 * 1000000000)
    (hle : e.syncAt ≤ readAt) :
    -4294967296000000 ≤ stampNs (clockGettime (linoMillis readAt)) e.offset
      ∧ stampNs (clockGettime (linoMillis readAt)) e.offset
        < 2 ^ 31 * 1000000000 := by
  have hturns : e.syncAt / 4294967296 ≤ readAt / 4294967296 :=
    Nat.div_le_div_right hle
  constructor
  · rw [stampNs_clockGettime, offset, linoMillis_toNat, linoMillis_toNat]
    omega
  · rw [ns_eq]
    omega

/-- Neither it nor the offset leaves `int64_t`. -/
theorem fits_int64 (hepoch : 0 ≤ e.epoch)
    (hsec : e.epochAt readAt < 2 ^ 31 * 1000000000)
    (hle : e.syncAt ≤ readAt) :
    (-2 ^ 63 ≤ e.offset ∧ e.offset < 2 ^ 63)
      ∧ -2 ^ 63 ≤ stampNs (clockGettime (linoMillis readAt)) e.offset
      ∧ stampNs (clockGettime (linoMillis readAt)) e.offset < 2 ^ 63 := by
  obtain ⟨hlo, hhi⟩ := ns_bounds hepoch hsec hle
  refine ⟨?_, by omega, by omega⟩
  unfold epochAt at hsec
  rw [offset, linoMillis_toNat]
  omega

/-- A stamp read later than the synchronisation is true exactly in the
same turn of the tick. -/
theorem stampAt_true_iff (hepoch : 0 ≤ e.epoch)
    (hsec : e.epochAt readAt < 2 ^ 31 * 1000000000)
    (hle : e.syncAt ≤ readAt) :
    ((e.stampAt readAt).nanosec < 1000000000
        ∧ (e.stampAt readAt).toNs = e.epochAt readAt)
      ↔ readAt / 4294967296 = e.syncAt / 4294967296 := by
  have hns := ns_eq e readAt
  have hepochAt : 0 ≤ e.epochAt readAt := by
    unfold epochAt
    omega
  obtain ⟨hlo, hhi⟩ := ns_bounds hepoch hsec hle
  unfold stampAt
  constructor
  · rintro ⟨hnano, htime⟩
    rw [Stamp.toNs_ofNs (by omega) hhi hnano, hns] at htime
    omega
  · intro hsame
    rw [hsame, sub_self, zero_mul, sub_zero] at hns
    have hnano := Stamp.nanosec_lt (hepochAt.trans_eq hns.symm)
    exact ⟨hnano, (Stamp.toNs_ofNs (by omega) hhi hnano).trans hns⟩

end StampAt

-- ========================================================= the invariant

variable {R : Rcl} {F : Type} [CFloat F] {E : RpmSource F}
  {I : ImuDriver F}

/-- Where the stamps of the open session, and the one about to be
published, came from. -/
structure Kept (e : Session) (s : Publisher R F E I) : Prop where
  offset : s.uros.timeOffsetNs = e.offset
  started : e.syncAt ≤ s.uros.sys.time
  stamps : ∀ p ∈ e.stamps, p.stamp = e.stampAt p.readAt
    ∧ e.syncAt ≤ p.readAt ∧ p.readAt ≤ s.uros.sys.time
  ordered : e.stamps.IsChain fun a b => a.readAt ≤ b.readAt
  pending : ∀ r, s.callback = .publish r →
    s.odomMsg.stamp = e.stampAt r ∧ e.syncAt ≤ r
      ∧ r ≤ s.uros.sys.time ∧ ∀ p ∈ e.stamps, p.readAt ≤ r

section Steps

variable {T : Trig F} {s s' : Publisher R F E I} {e : Session}

omit [CFloat F] in
/-- Time may pass, and the callback go on to anything but its publish. -/
theorem Kept.mono (h : e.Kept s)
    (hoffset : s'.uros.timeOffsetNs = s.uros.timeOffsetNs)
    (htime : s.uros.sys.time ≤ s'.uros.sys.time)
    (hpending : ∀ r, s'.callback = .publish r →
      s.callback = .publish r ∧ s'.odomMsg.stamp = s.odomMsg.stamp) :
    e.Kept s' := by
  refine ⟨hoffset.trans h.offset, h.started.trans htime, ?_, h.ordered, ?_⟩
  · intro p hp
    obtain ⟨hstamp, hle, hread⟩ := h.stamps p hp
    exact ⟨hstamp, hle, hread.trans htime⟩
  · intro r hr
    obtain ⟨hpc, hsame⟩ := hpending r hr
    obtain ⟨hstamp, hle, hread, hlast⟩ := h.pending r hpc
    exact ⟨hsame.trans hstamp, hle, hread.trans htime, hlast⟩

/-- A step of the firmware inside the session. -/
theorem Kept.firmware (h : e.Kept s) {a : UrosAct R E I}
    {u : Uros R F E I} (hu : Uros.apply T a s.uros = some u)
    (ha : ∀ epochNanos, a ≠ .sync epochNanos) (m : Odometry F)
    (hm : m.stamp = s.odomMsg.stamp) (o : Option Session) :
    e.Kept { s with uros := u, odomMsg := m, session := o } :=
  h.mono (Uros.timeOffsetNs_of_apply hu ha)
    (Uros.moves_of_apply hu).time_le fun _ hr => ⟨hr, hm⟩

/-- A synchronisation opens a session with nothing published. -/
theorem kept_sync {ns : Int} {u : Uros R F E I}
    (hidle : s.callback = .idle)
    (hu : Uros.apply T (.sync (some ns)) s.uros = some u) (m : Odometry F)
    (o : Option Session) :
    Kept ⟨ns, s.uros.sys.time, []⟩
      { s with uros := u, odomMsg := m, session := o } := by
  obtain ⟨hsys, hoffset⟩ := Uros.sync_of_apply hu
  refine ⟨hoffset ns rfl, ?_, ?_, .nil, ?_⟩
  · show s.uros.sys.time ≤ u.sys.time
    rw [hsys]
  · exact fun p hp => absurd hp (List.not_mem_nil)
  · intro r hr
    exact absurd (hidle.symm.trans hr) (by simp)

omit [CFloat F] in
/-- The clock read: the stamp is the session's at this moment. -/
theorem Kept.stamp (h : e.Kept s) :
    e.Kept { s with
      odomMsg := { s.odomMsg with stamp := s.now }
      imuMsg := { s.imuMsg with stamp := s.now }
      callback := .publish s.uros.sys.time } := by
  refine ⟨h.offset, h.started, h.stamps, h.ordered, ?_⟩
  rintro r ⟨⟩
  refine ⟨?_, h.started, le_rfl, fun p hp => (h.stamps p hp).2.2⟩
  show s.now = _
  rw [Publisher.now, h.offset]
  rfl

omit [CFloat F] in
/-- The publish: the pending stamp is the latest. -/
theorem Kept.publish (h : e.Kept s) {r : Nat}
    (hpc : s.callback = .publish r) (l : List (Publication F))
    (o : Option Session) :
    Kept { e with stamps := e.stamps ++ [⟨r, s.odomMsg.stamp⟩] }
      { s with published := l, session := o, callback := .idle } := by
  obtain ⟨hstamp, hle, hread, hlast⟩ := h.pending r hpc
  refine ⟨h.offset, h.started, ?_, ?_, fun r' hr' => by cases hr'⟩
  · intro p hp
    rcases List.mem_append.mp hp with hp | hp
    · exact h.stamps p hp
    · obtain rfl := List.mem_singleton.mp hp
      exact ⟨hstamp, hle, hread⟩
  · refine List.isChain_append.mpr ⟨h.ordered, .singleton _, ?_⟩
    rintro p hp q ⟨⟩
    exact hlast p (List.mem_of_getLast? hp)

omit [CFloat F] in
/-- Only a synchronisation opens or closes a session. -/
theorem sessionAfter_of_ne {a : UrosAct R E I}
    (ha : ∀ epochNanos, a ≠ .sync epochNanos) :
    s.sessionAfter a = s.session := by
  cases a with
  | sync epochNanos => exact absurd rfl (ha epochNanos)
  | _ => rfl

/-- Every step keeps what is known of the open session. -/
theorem kept_step (h : ∀ e, s.session = some e → e.Kept s)
    (hm : Publisher.Moves T s s') :
    ∀ e, s'.session = some e → e.Kept s' := by
  intro e he
  cases hm with
  | firmware a u hallowed hu =>
      have hstamp : (if u.framesSet && !s.uros.framesSet
          then s.odomMsg.preset else s.odomMsg).stamp
            = s.odomMsg.stamp := by
        split <;> rfl
      by_cases ha : ∃ epochNanos, a = .sync epochNanos
      · obtain ⟨epochNanos, rfl⟩ := ha
        cases epochNanos with
        | none => cases he
        | some ns =>
            obtain rfl := Option.some.inj he
            exact kept_sync (of_decide_eq_true hallowed) hu _ _
      · have ha' : ∀ epochNanos, a ≠ .sync epochNanos :=
          fun epochNanos heq => ha ⟨epochNanos, heq⟩
        have he' : s.session = some e :=
          (sessionAfter_of_ne ha').symm.trans he
        exact (h e he').firmware hu ha' _ hstamp _
  | getOdom u hpc hu =>
      exact (h e he).mono
        (Uros.timeOffsetNs_of_apply hu fun _ heq => by cases heq)
        (Uros.moves_of_apply hu).time_le fun _ hr => by cases hr
  | getImu u hpc hu =>
      exact (h e he).mono
        (Uros.timeOffsetNs_of_apply hu fun _ heq => by cases heq)
        (Uros.moves_of_apply hu).time_le fun _ hr => by cases hr
  | stamp hpc => exact (h e he).stamp
  | publish r hpc =>
      obtain ⟨e', he', rfl⟩ := Option.map_eq_some_iff.mp he
      exact (h e' he').publish hpc _ _

/-- In every reachable state. -/
theorem kept_of_reachable {cfg : BoardConfig F}
    (h : (publishing R E I T cfg).Reachable s) :
    ∀ e, s.session = some e → e.Kept s := by
  refine h.invariant
    (I := fun s => ∀ e, s.session = some e → e.Kept s) ?_ ?_
  · intro s hs e he
    obtain ⟨u, -, rfl⟩ := hs
    cases he
  · intro s a s' hs happ
    exact kept_step hs (Publisher.moves_of_apply happ)

end Steps

-- ================================================== one stamp, two headers

/-- Both messages of a call carry one stamp: those about to be published,
and all that were. -/
structure OneStamp (s : Publisher R F E I) : Prop where
  pending : ∀ r, s.callback = .publish r → s.imuMsg.stamp = s.odomMsg.stamp
  published : ∀ p ∈ s.published, p.imu.stamp = p.odom.stamp

/-- In every reachable state. -/
theorem oneStamp_of_reachable {T : Trig F} {cfg : BoardConfig F}
    {s : Publisher R F E I} (h : (publishing R E I T cfg).Reachable s) :
    OneStamp s := by
  refine h.invariant (I := OneStamp) ?_ ?_
  · intro s hs
    obtain ⟨u, -, rfl⟩ := hs
    exact ⟨fun r hr => (by cases hr), fun p hp => absurd hp List.not_mem_nil⟩
  · intro s a s' hs happ
    cases Publisher.moves_of_apply happ with
    | firmware a u _ _ =>
        refine ⟨fun r hr => (hs.pending r hr).trans ?_, hs.published⟩
        show _ = (if _ then s.odomMsg.preset else s.odomMsg).stamp
        split <;> rfl
    | getOdom u _ _ => exact ⟨fun r hr => (by cases hr), hs.published⟩
    | getImu u _ _ => exact ⟨fun r hr => (by cases hr), hs.published⟩
    | stamp _ => exact ⟨fun _ _ => rfl, hs.published⟩
    | publish r hpc =>
        refine ⟨fun r hr => (by cases hr), fun p hp => ?_⟩
        rcases List.mem_append.mp hp with hp | hp
        · exact hs.published p hp
        · obtain rfl := List.mem_singleton.mp hp
          exact hs.pending r hpc

-- ============================================================== the result

section Result

variable {T : Trig F} {s : Publisher R F E I} {e : Session}

/-- In every session of every run, the stamps published are the agent's
time and never go back exactly when the tick has not wrapped between the
read that computed the offset and any read for a stamp. -/
theorem stamps_true_iff {cfg : BoardConfig F}
    (h : (publishing R E I T cfg).Reachable s) (he : s.session = some e)
    (hrange : e.InRange) :
    e.StampsTrue ↔ ∀ p ∈ e.stamps,
      p.readAt / 4294967296 = e.syncAt / 4294967296 := by
  have hkept := kept_of_reachable h e he
  have hstamp : ∀ p ∈ e.stamps,
      (p.stamp.nanosec < 1000000000
          ∧ p.stamp.toNs = e.epochAt p.readAt)
        ↔ p.readAt / 4294967296 = e.syncAt / 4294967296 := by
    intro p hp
    obtain ⟨hp', hle, -⟩ := hkept.stamps p hp
    rw [hp']
    exact stampAt_true_iff hrange.epoch (hrange.seconds p hp) hle
  constructor
  · intro htrue p hp
    exact (hstamp p hp).mp ⟨htrue.nanosec p hp, htrue.time p hp⟩
  · intro hsame
    have htime : ∀ p ∈ e.stamps, p.stamp.toNs = e.epochAt p.readAt :=
      fun p hp => ((hstamp p hp).mpr (hsame p hp)).2
    refine ⟨fun p hp => ((hstamp p hp).mpr (hsame p hp)).1, htime, ?_⟩
    -- the clock reads are in order, and each stamp is its own read's time
    refine List.IsChain.imp_of_mem_imp (fun a b ha hb hab => ?_)
      hkept.ordered
    rw [htime a ha, htime b hb, epochAt, epochAt]
    omega

theorem apply_clock (s : Publisher R F E I) :
    Publisher.apply T (.firmware .clock) s = some (s.later 1) := by
  simp [Publisher.apply, Publisher.firmwareStep, UrosAct.allowed,
    Uros.apply, Uros.onSys, System.apply, Publisher.sessionAfter,
    Publisher.later]

/-- The tick alone may advance any number of times. -/
theorem reachable_later {cfg : BoardConfig F}
    (h : (publishing R E I T cfg).Reachable s) (n : Nat) :
    (publishing R E I T cfg).Reachable (s.later n) := by
  induction n with
  | zero => exact h
  | succ n ih => exact .step (.firmware .clock) ih (apply_clock (T := T) _)

end Result

-- ============================================== the configured board, run

/-- The firmware of the configured board with its callback. -/
def f446rePublishing :
    Lib.Machine
      (Publisher Uros.boolRcl ℚ (encoders ℚ) (ImuDriver.absent ℚ))
      (PubAct Uros.boolRcl (encoders ℚ) (ImuDriver.absent ℚ)) :=
  publishing Uros.boolRcl _ _ Trig.level f446re

/-- At the start of its scheduler. -/
def f446reIdle :
    Publisher Uros.boolRcl ℚ (encoders ℚ) (ImuDriver.absent ℚ) :=
  Publisher.start (Uros.start Uros.boolRcl f446reStart)

theorem f446rePublishing_start : f446rePublishing.start f446reIdle :=
  ⟨_, ⟨_, f446reTasks_start, rfl⟩, rfl⟩

/-- Connected in the 501st millisecond, at 1,700,000,000 s of the agent's
clock, with one call of the callback in the last millisecond of the tick's
first turn and one in the first of its second. -/
def aroundWrap : Option
    (Publisher Uros.boolRcl ℚ (encoders ℚ) (ImuDriver.absent ℚ)) :=
  (f446rePublishing.run (connect true 1700000000000000000)
      (f446reIdle.later 501)).bind fun s =>
    (f446rePublishing.run (callback ++ [.firmware .clock] ++ callback)
      (s.later (4294967295 - 501)))

/-- The session it leaves. -/
def wrapped : Session where
  epoch := 1700000000000000000
  syncAt := 501
  stamps := [⟨4294967295, ⟨1704294966, 794000000⟩⟩,
    ⟨4294967296, ⟨1699999999, 499000000⟩⟩]

theorem wrapped_reached :
    ∃ s, f446rePublishing.Reachable s ∧ s.session = some wrapped := by
  have hrun : aroundWrap.map Publisher.session = some (some wrapped) := by
    decide +kernel
  obtain ⟨s', hs', hsession⟩ := Option.map_eq_some_iff.mp hrun
  obtain ⟨s, hs, hrest⟩ := Option.bind_eq_some_iff.mp hs'
  have hconnected : f446rePublishing.Reachable s :=
    (reachable_later (.start f446rePublishing_start) 501).run hs
  exact ⟨s', (reachable_later hconnected _).run hrest, hsession⟩

theorem wrapped_inRange : wrapped.InRange := by
  refine ⟨by decide, fun p hp => ?_⟩
  rcases List.mem_cons.mp hp with rfl | hp
  · decide
  · obtain rfl := List.mem_singleton.mp hp
    decide

/-- The condition, for this session. -/
theorem stamps_true_iff_wrapped :
    ∃ s, f446rePublishing.Reachable s ∧ s.session = some wrapped
      ∧ (wrapped.StampsTrue ↔ ∀ p ∈ wrapped.stamps,
        p.readAt / 4294967296 = wrapped.syncAt / 4294967296) := by
  obtain ⟨s, hs, hsession⟩ := wrapped_reached
  exact ⟨s, hs, hsession, stamps_true_iff hs hsession wrapped_inRange⟩

/-- One millisecond after the other, its second stamp is 49.7 days before
its first. -/
theorem stamps_go_back :
    ∃ s, f446rePublishing.Reachable s ∧ s.session = some wrapped
      ∧ wrapped.InRange ∧ ¬ wrapped.StampsTrue := by
  obtain ⟨s, hs, hsession⟩ := wrapped_reached
  refine ⟨s, hs, hsession, wrapped_inRange, fun h => ?_⟩
  exact absurd (List.isChain_pair.mp h.ordered) (by decide)

end Session

end LinoStm32
