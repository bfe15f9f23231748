/-
The speed limiter: which commands keep their direction when the wheels
cannot go fast enough.

Between the command and the wheels everything but the limiter is linear
and invertible: `demand` is undone by `recover`, `wheels` by `unmix`. So
the velocities of the commanded wheel speeds are a multiple of the
command exactly when the limited demand is that multiple of the demand
(`pathKept_iff_demand`).

# One guarded rescaling

Where one of the two guards can fire, the limiter is a multiplication by
`limit M sum`, which brings the sum of the two magnitudes to the maximum
and so every wheel inside the clamps. This is all there is on a base that
cannot move sideways (`path_kept`).

# The clamps alone

A mecanum command that both moves sideways and turns passes both guards.
Over the limit, the wheel that adds all three magnitudes up is clamped,
others may be, and the three recovered components depend on which. Each
of the other three wheels is `Saturated` or `Free`, either of which
determines how large its magnitude is at a given factor: two of one kind
are equal. So two magnitudes are always equal where the direction
survives, and `OddOne` lists what the third can be (`Balanced`).
-/
import LinoStm32.Config

namespace LinoStm32

variable {K : Type} [Field K] [LinearOrder K] [FloorRing K]

namespace Kinematics

-- ==================================================== the linear stages

/-- A demand scaled. -/
def Demand.scaled (s : K) (d : Demand K) : Demand K :=
  ⟨s * d.x, s * d.y, s * d.tan⟩

/-- The wheel speeds of a demand before the clamps. -/
def Demand.wheels (d : Demand K) : Rpm K where
  motor1 := d.x - d.y - d.tan
  motor2 := d.x + d.y + d.tan
  motor3 := d.x + d.y - d.tan
  motor4 := d.x - d.y + d.tan

/-- The demand that four wheel speeds amount to. -/
def unmix (r : Rpm K) : Demand K where
  x := (r.motor1 + r.motor2 + r.motor3 + r.motor4) / 4
  y := (-r.motor1 + r.motor2 + r.motor3 - r.motor4) / 4
  tan := (-r.motor1 + r.motor2 - r.motor3 + r.motor4) / 4

/-- The body velocity a demand amounts to. -/
def recover (k : Kinematics K) (d : Demand K) : Velocities K where
  linearX := d.x * k.wheelCircumference / 60
  linearY := d.y * k.wheelCircumference / 60
  angularZ := d.tan * k.wheelCircumference / 60 / (k.wheelsYDistance / 2)

/-- `getVelocities` of what `getRPM` returned. -/
def velocitiesOf (k : Kinematics K) (r : Rpm K) : Velocities K :=
  k.getVelocities r.motor1 r.motor2 r.motor3 r.motor4

/-- A geometry with wheels and a track. -/
structure Geometry (k : Kinematics K) : Prop where
  wheelCircumference : 0 < k.wheelCircumference
  wheelsYDistance : 0 < k.wheelsYDistance

section Board

variable {cfg : BoardConfig K}

theorem kinematics_built : cfg.kinematics.Built :=
  ⟨_, _, _, _, _, _, _, rfl⟩

/-- A sane board's geometry. -/
theorem kinematics_geometry [IsStrictOrderedRing K] (h : cfg.Sane) :
    cfg.kinematics.Geometry :=
  ⟨h.wheelCircumference_pos, h.lrWheelsDistance⟩

end Board

section Linear

variable {k : Kinematics K}

theorem recover_demand (h : k.Geometry) (x y wz : K) :
    k.recover (k.demand x y wz) = ⟨x, y, wz⟩ := by
  have hc := h.wheelCircumference.ne'
  have hd := h.wheelsYDistance.ne'
  simp only [recover, demand, Int.cast_ofNat]
  congr 1 <;> field_simp

theorem recover_scaled (s : K) (d : Demand K) :
    k.recover (d.scaled s)
      = ⟨s * (k.recover d).linearX, s * (k.recover d).linearY,
          s * (k.recover d).angularZ⟩ := by
  simp only [recover, Demand.scaled]
  congr 1 <;> ring

/-- The demand of a scaled command is the demand scaled. -/
theorem demand_scaled (s x y wz : K) :
    k.demand (s * x) (s * y) (s * wz) = (k.demand x y wz).scaled s := by
  simp only [demand, Demand.scaled]
  congr 1 <;> ring

/-- The same without a lateral command. -/
theorem demand_scaled_forward (s x wz : K) :
    k.demand (s * x) 0 (s * wz) = (k.demand x 0 wz).scaled s := by
  rw [← demand_scaled, mul_zero]

theorem unmix_wheels (d : Demand K) : unmix d.wheels = d := by
  simp only [unmix, Demand.wheels]
  congr 1 <;> ring

end Linear

-- =================================================== the guarded scaling

variable [IsStrictOrderedRing K]

/-- The factor that brings a sum of magnitudes down to the maximum; 1
where it does not reach it. -/
def limit (max sum : K) : K := if sum = 0 then 1 else min 1 (max / sum)

section Limit

variable {M a b : K}

theorem limit_of_lt (h0 : 0 ≤ a) (h : a < M) :
    limit M a = 1 := by
  unfold limit
  split
  · rfl
  · next hne =>
    have ha : 0 < a := lt_of_le_of_ne h0 (Ne.symm hne)
    exact min_eq_left ((one_le_div ha).mpr h.le)

theorem limit_of_le (hM : 0 < M) (h : M ≤ a) : limit M a = M / a := by
  have ha : 0 < a := hM.trans_le h
  rw [limit, if_neg ha.ne']
  exact min_eq_right ((div_le_one ha).mpr h)

theorem limit_pos (hM : 0 < M) (h0 : 0 ≤ a) : 0 < limit M a := by
  rcases lt_or_ge a M with hlt | hge
  · rw [limit_of_lt h0 hlt]
    exact one_pos
  · rw [limit_of_le hM hge]
    exact div_pos hM (hM.trans_le hge)

theorem limit_le_one (hM : 0 < M) (h0 : 0 ≤ a) : limit M a ≤ 1 := by
  rcases lt_or_ge a M with hlt | hge
  · exact (limit_of_lt h0 hlt).le
  · rw [limit_of_le hM hge]
    exact (div_le_one (hM.trans_le hge)).mpr hge

/-- The scaled sum is at most the maximum. -/
theorem limit_mul_le (hM : 0 < M) (h0 : 0 ≤ a) : limit M a * a ≤ M := by
  rcases lt_or_ge a M with hlt | hge
  · rw [limit_of_lt h0 hlt, one_mul]
    exact hlt.le
  · rw [limit_of_le hM hge, div_mul_cancel₀ M (hM.trans_le hge).ne']

/-- A sum that has been limited is not limited again. -/
theorem limit_limit (hM : 0 < M) (h0 : 0 ≤ a) :
    limit M (limit M a * a) = 1 := by
  have hle := limit_mul_le hM h0
  have hnonneg : 0 ≤ limit M a * a := mul_nonneg (limit_pos hM h0).le h0
  rcases hle.lt_or_eq with hlt | heq
  · exact limit_of_lt hnonneg hlt
  · rw [heq, limit_of_le hM le_rfl, div_self hM.ne']

end Limit

section Scale

variable {k : Kinematics K} {d : Demand K}

/-- A demand that does not move sideways is limited by the sum of its
other two magnitudes. -/
theorem scale_turning (hM : 0 < k.maxRpm) {wz : K} (hy : d.y = 0)
    (hwz : wz = 0 → d.tan = 0) :
    k.scale 0 wz d = d.scaled (limit k.maxRpm (|d.x| + |d.tan|)) := by
  obtain ⟨x, y, tan⟩ := d
  obtain rfl : y = 0 := hy
  have hsum : 0 ≤ |x| + |tan| := by positivity
  unfold scale
  simp only [fabs_eq_abs, feq_eq, abs_zero, add_zero, Int.cast_zero,
    decide_eq_true_eq, and_true, zero_mul]
  split
  · next h =>
    -- not turning: the sum is the forward magnitude alone
    obtain rfl : tan = 0 := hwz h.2
    rw [abs_zero, add_zero, limit_of_le hM h.1]
    simp [Demand.scaled, mul_comm]
  · next h1 =>
    split
    · next h2 =>
      rw [limit_of_le hM h2]
      simp [Demand.scaled, mul_comm]
    · next h2 =>
      rw [limit_of_lt hsum (not_le.mp h2)]
      simp [Demand.scaled]

/-- A demand that does not turn is limited by the sum of its other two
magnitudes. -/
theorem scale_sideways (hM : 0 < k.maxRpm) {y : K} (ht : d.tan = 0)
    (hy : y = 0 → d.y = 0) :
    k.scale y 0 d = d.scaled (limit k.maxRpm (|d.x| + |d.y|)) := by
  obtain ⟨x, y', tan⟩ := d
  obtain rfl : tan = 0 := ht
  have hsum : 0 ≤ |x| + |y'| := by positivity
  unfold scale
  simp only [fabs_eq_abs, feq_eq, abs_zero, add_zero, Int.cast_zero,
    decide_true, and_true, zero_mul]
  split
  · next h =>
    rw [limit_of_le hM h]
    simp [Demand.scaled, mul_comm]
  · next h1 =>
    rw [limit_of_lt hsum (not_le.mp h1), if_neg]
    · simp [Demand.scaled]
    · -- the second sum is part of the first
      intro h2
      have hpart := abs_nonneg y'
      exact h1 (h2.1.trans (le_add_of_nonneg_right hpart))

omit [IsStrictOrderedRing K] in
/-- A demand that does both is not limited by the guards. -/
theorem scale_both {y wz : K} (hy : y ≠ 0) (hwz : wz ≠ 0) :
    k.scale y wz d = d := by
  simp [scale, hy, hwz]

/-- While the magnitudes add up to no more than the maximum, the clamps
change nothing. -/
theorem mix_of_sum_le (h : |d.x| + |d.y| + |d.tan| ≤ k.maxRpm) :
    k.mix d = d.wheels := by
  obtain ⟨hx₁, hx₂⟩ := abs_le.mp (le_refl |d.x|)
  obtain ⟨hy₁, hy₂⟩ := abs_le.mp (le_refl |d.y|)
  obtain ⟨ht₁, ht₂⟩ := abs_le.mp (le_refl |d.tan|)
  unfold mix Demand.wheels
  congr 1 <;> apply constrain_of_mem <;> linarith

/-- Every wheel is within the maximum. -/
theorem abs_mix_le (hM : 0 ≤ k.maxRpm) (w : Fin 4) :
    |(k.mix d).target w| ≤ k.maxRpm := by
  have hclamp : ∀ v : K, |constrain v (-k.maxRpm) k.maxRpm| ≤ k.maxRpm :=
    fun v => abs_le.mpr (constrain_mem (neg_le_self hM) v)
  fin_cases w <;> exact hclamp _

end Scale

-- ============================================= bases that cannot strafe

section Path

variable {k : Kinematics K}

omit [IsStrictOrderedRing K] in
/-- What a scaled demand is recovered as. -/
theorem recover_scaled_demand (h : k.Geometry) (s x y wz : K) :
    k.recover ((k.demand x y wz).scaled s) = ⟨s * x, s * y, s * wz⟩ := by
  rw [recover_scaled, recover_demand h]

omit [IsStrictOrderedRing K] in
/-- Without a lateral component the two or the four wheels a base counts
amount to the demand. -/
theorem velocitiesOf_wheels (hk : k.Built)
    (hb : k.basePlatform ≠ .mecanum) {d : Demand K} (hy : d.y = 0) :
    k.velocitiesOf d.wheels = k.recover d := by
  have htotal := hk.totalWheels
  cases hbase : k.basePlatform with
  | mecanum => exact absurd hbase hb
  | differentialDrive =>
    rw [hbase] at htotal
    simp only [velocitiesOf, getVelocities, hbase, htotal, recover,
      Demand.wheels, hy, getTotalWheels, Int.cast_ofNat, Int.cast_zero]
    congr 1 <;> ring
  | skidSteer =>
    rw [hbase] at htotal
    simp only [velocitiesOf, getVelocities, hbase, htotal, recover,
      Demand.wheels, hy, getTotalWheels, Int.cast_ofNat, Int.cast_zero]
    congr 1 <;> ring

omit [IsStrictOrderedRing K] in
/-- A base that cannot strafe drops the lateral component. -/
theorem getRPM_of_ne (hb : k.basePlatform ≠ .mecanum) (x y wz : K) :
    k.getRPM x y wz = k.mix (k.scale 0 wz (k.demand x 0 wz)) := by
  cases hbase : k.basePlatform with
  | mecanum => exact absurd hbase hb
  | differentialDrive => simp [getRPM, hbase, calculateRPM]
  | skidSteer => simp [getRPM, hbase, calculateRPM]

/-- The factor a command is limited by on a base that cannot strafe. -/
def factor (k : Kinematics K) (x wz : K) : K :=
  limit k.maxRpm (|(k.demand x 0 wz).x| + |(k.demand x 0 wz).tan|)

theorem scale_demand (hM : 0 < k.maxRpm) (x wz : K) :
    k.scale 0 wz (k.demand x 0 wz)
      = (k.demand x 0 wz).scaled (k.factor x wz) :=
  scale_turning hM (by simp [demand]) (fun h => by simp [demand, h])

theorem magnitudes_nonneg (k : Kinematics K) (x wz : K) :
    0 ≤ |(k.demand x 0 wz).x| + |(k.demand x 0 wz).tan| := by
  positivity

theorem factor_nonneg (hM : 0 < k.maxRpm) (x wz : K) :
    0 ≤ k.factor x wz :=
  (limit_pos hM (k.magnitudes_nonneg x wz)).le

/-- Scaling brings the magnitudes within the maximum. -/
theorem sum_scaled_le (hM : 0 < k.maxRpm) (x wz : K) :
    let d := (k.demand x 0 wz).scaled (k.factor x wz)
    |d.x| + |d.y| + |d.tan| ≤ k.maxRpm := by
  have hle : k.factor x wz * (|(k.demand x 0 wz).x|
      + |(k.demand x 0 wz).tan|) ≤ k.maxRpm :=
    limit_mul_le hM (k.magnitudes_nonneg x wz)
  have hy : (k.demand x 0 wz).y = 0 := by simp [demand]
  simpa only [Demand.scaled, hy, mul_zero, abs_zero, add_zero, abs_mul,
    abs_of_nonneg (factor_nonneg hM x wz), ← mul_add] using hle

/-- A command that was limited once is not limited again. -/
theorem factor_scaled (hM : 0 < k.maxRpm) (x wz : K) :
    k.factor (k.factor x wz * x) (k.factor x wz * wz) = 1 := by
  have hlimited : limit k.maxRpm (k.factor x wz
      * (|(k.demand x 0 wz).x| + |(k.demand x 0 wz).tan|)) = 1 :=
    limit_limit hM (k.magnitudes_nonneg x wz)
  rw [factor, demand_scaled_forward]
  simpa only [Demand.scaled, abs_mul, abs_of_nonneg (factor_nonneg hM x wz),
    ← mul_add] using hlimited

/-- What a base that cannot strafe sends to its wheels: the demand scaled
by its factor, no wheel touched by a clamp. -/
theorem getRPM_of_demand (hM : 0 < k.maxRpm)
    (hb : k.basePlatform ≠ .mecanum) (x y wz : K) :
    k.getRPM x y wz = ((k.demand x 0 wz).scaled (k.factor x wz)).wheels := by
  rw [getRPM_of_ne hb, scale_demand hM, mix_of_sum_le (sum_scaled_le hM x wz)]

/-- On a base that cannot strafe the limiter keeps the path: the wheel
speeds amount to the command slowed down by its factor, no clamp changes
a value, every wheel is within the maximum, and commanding the velocities
that came out commands the same wheel speeds. -/
theorem path_kept (hk : k.Built)
    (hb : k.basePlatform = .differentialDrive
      ∨ k.basePlatform = .skidSteer)
    (hM : 0 < k.maxRpm) (hg : k.Geometry) (x y wz : K) :
    let d := k.demand x 0 wz
    let s := limit k.maxRpm (|d.x| + |d.tan|)
    let v := k.velocitiesOf (k.getRPM x y wz)
    v = ⟨s * x, 0, s * wz⟩
      ∧ k.getRPM x y wz = (k.scale 0 wz d).wheels
      ∧ (∀ w, |(k.getRPM x y wz).target w| ≤ k.maxRpm)
      ∧ k.getRPM v.linearX v.linearY v.angularZ = k.getRPM x y wz := by
  intro d s v
  have hne : k.basePlatform ≠ .mecanum := by
    rcases hb with hb | hb <;> rw [hb] <;> decide
  have hrpm : k.getRPM x y wz = (d.scaled s).wheels :=
    getRPM_of_demand hM hne x y wz
  have hy : (d.scaled s).y = 0 := by simp [Demand.scaled, d, demand]
  have hv : v = ⟨s * x, 0, s * wz⟩ := by
    show k.velocitiesOf (k.getRPM x y wz) = _
    rw [hrpm, velocitiesOf_wheels hk hne hy, recover_scaled_demand hg,
      mul_zero]
  refine ⟨hv, ?_, ?_, ?_⟩
  · rw [hrpm, show k.scale 0 wz d = d.scaled s from scale_demand hM x wz]
  · intro w
    rw [getRPM_of_ne hne]
    exact abs_mix_le hM.le w
  · -- the slower command has the scaled demand and factor 1
    have hfactor : k.factor (s * x) (s * wz) = 1 := factor_scaled hM x wz
    have hdemand : k.demand (s * x) 0 (s * wz) = d.scaled s :=
      demand_scaled_forward s x wz
    rw [hrpm, hv, getRPM_of_demand hM hne, hfactor, hdemand]
    simp [Demand.scaled]

/-- The configured board, commanded to drive and turn at once. -/
theorem path_kept_f446re :
    let k : Kinematics ℚ := f446re.kinematics
    let d := k.demand 1 0 3
    let s := limit k.maxRpm (|d.x| + |d.tan|)
    let v := k.velocitiesOf (k.getRPM 1 2 3)
    v = ⟨s * 1, 0, s * 3⟩
      ∧ k.getRPM 1 2 3 = (k.scale 0 3 d).wheels
      ∧ (∀ w, |(k.getRPM 1 2 3).target w| ≤ k.maxRpm)
      ∧ k.getRPM v.linearX v.linearY v.angularZ = k.getRPM 1 2 3 :=
  path_kept kinematics_built (Or.inl rfl) f446re_sane.maxRpm_pos
    (kinematics_geometry f446re_sane) 1 2 3

end Path

-- ====================================================== the four clamps

/-- Four times one component of what the clamped wheel speeds amount to:
`a` is that component of the demand, `b` and `c` the other two. -/
def spread (M a b c : K) : K :=
  constrain (a + b + c) (-M) M + constrain (a + b - c) (-M) M
    + constrain (a - b + c) (-M) M + constrain (a - b - c) (-M) M

/-- Behind the clamps all three components are slowed by one factor. -/
def Slowed (M s a b c : K) : Prop :=
  spread M a b c = 4 * s * a ∧ spread M b a c = 4 * s * b
    ∧ spread M c a b = 4 * s * c

section Spread

variable {M s a b c : K}

omit [IsStrictOrderedRing K] in
theorem spread_comm : spread M a b c = spread M a c b := by
  unfold spread
  rw [add_right_comm a b c, show a + b - c = a - c + b by ring,
    show a - b + c = a + c - b by ring, show a - b - c = a - c - b by ring]
  ring

omit [IsStrictOrderedRing K] in
theorem spread_neg_mid : spread M a (-b) c = spread M a b c := by
  unfold spread
  rw [sub_neg_eq_add, ← sub_eq_add_neg]
  ring

theorem spread_neg (hM : 0 ≤ M) : spread M (-a) b c = -spread M a b c := by
  unfold spread
  rw [show -a + b + c = -(a - b - c) by ring,
    show -a + b - c = -(a - b + c) by ring,
    show -a - b + c = -(a + b - c) by ring,
    show -a - b - c = -(a + b + c) by ring]
  simp only [constrain_neg hM]
  ring

omit [IsStrictOrderedRing K] in
/-- A component depends on the magnitudes of the other two. -/
theorem spread_abs : spread M a |b| |c| = spread M a b c := by
  have habs : ∀ b c : K, spread M a |b| c = spread M a b c := by
    intro b c
    rcases abs_choice b with h | h <;> rw [h]
    exact spread_neg_mid
  rw [habs, spread_comm, habs, spread_comm]

/-- Which factor slows a component depends on its magnitude. -/
theorem spread_abs_iff (hM : 0 ≤ M) :
    spread M |a| b c = 4 * s * |a| ↔ spread M a b c = 4 * s * a := by
  rcases abs_choice a with h | h <;> rw [h]
  rw [spread_neg hM, mul_neg, neg_inj]

/-- The direction survives or not by the magnitudes alone. -/
theorem slowed_abs (hM : 0 ≤ M) :
    Slowed M s |a| |b| |c| ↔ Slowed M s a b c := by
  simp only [Slowed, spread_abs, spread_abs_iff hM]

omit [IsStrictOrderedRing K] in
/-- The three components are alike. -/
theorem slowed_swap_first : Slowed M s a b c ↔ Slowed M s b a c := by
  unfold Slowed
  rw [spread_comm (a := c)]
  exact and_left_comm

omit [IsStrictOrderedRing K] in
theorem slowed_swap_last : Slowed M s a b c ↔ Slowed M s a c b := by
  unfold Slowed
  rw [spread_comm (a := a), and_comm (a := spread M b a c = 4 * s * b)]

end Spread

/-- A wheel turned the other way is clamped the other way. -/
theorem constrain_flip {M u v : K} (hM : 0 ≤ M) (h : u = -v) :
    constrain u (-M) M = -constrain v (-M) M := by
  rw [h, constrain_neg hM]

/-- One of the wheels other than the one that adds up all magnitudes: it
takes `a` the other way, and together the two must be slowed like the
rest of the sum. -/
def Fits (M s S a : K) : Prop :=
  constrain S (-M) M + constrain (S - 2 * a) (-M) M = 2 * s * (S - a)

/-- Two components at a time: the sum of two spreads has two of its
wheels cancelled. -/
theorem slowed_iff_fits {M : K} (hM : 0 ≤ M) (s a b c : K) :
    Slowed M s a b c ↔ Fits M s (a + b + c) a ∧ Fits M s (a + b + c) b
      ∧ Fits M s (a + b + c) c := by
  have ha : constrain (a - b - c) (-M) M
      = -constrain (a + b + c - 2 * a) (-M) M :=
    constrain_flip hM (by ring)
  have hb : constrain (b - a - c) (-M) M
      = -constrain (a + b + c - 2 * b) (-M) M :=
    constrain_flip hM (by ring)
  have hc : constrain (c - a - b) (-M) M
      = -constrain (a + b + c - 2 * c) (-M) M :=
    constrain_flip hM (by ring)
  unfold Slowed spread Fits
  rw [ha, hb, hc, show b + a + c = a + b + c by ring,
    show c + a + b = a + b + c by ring,
    show a + b - c = a + b + c - 2 * c by ring,
    show b + a - c = a + b + c - 2 * c by ring,
    show a - b + c = a + b + c - 2 * b by ring,
    show c + a - b = a + b + c - 2 * b by ring,
    show b - a + c = a + b + c - 2 * a by ring,
    show c - a + b = a + b + c - 2 * a by ring]
  constructor
  · rintro ⟨h1, h2, h3⟩
    refine ⟨?_, ?_, ?_⟩ <;> linarith
  · rintro ⟨h1, h2, h3⟩
    refine ⟨?_, ?_, ?_⟩ <;> linarith

/-- A wheel that is clamped although it takes `a` the other way. -/
def Saturated (M s S a : K) : Prop :=
  M ≤ S - 2 * a ∧ s * (S - a) = M

/-- A wheel that is not. -/
def Free (M s S a : K) : Prop :=
  |S - 2 * a| ≤ M ∧ M + (S - 2 * a) = 2 * s * (S - a)

/-- Two of the magnitudes are `b`, and `a` is the third: the ways they can
fit. All are equal; there is no third; the two are the maximum and the
third is no more; or the third is over the maximum and so far from the
two that their wheels, both clamped, and its own lose in proportion. -/
def OddOne (M a b : K) : Prop :=
  a = b ∨ a = 0 ∨ (b = M ∧ a ≤ M)
    ∨ (M ≤ a ∧ |2 * b - a| ≤ M ∧ (a - 2 * b) * (a + b) = M * (a - 3 * b))

/-- Three magnitudes whose four clamped wheels lose in proportion. -/
def Balanced (M p q r : K) : Prop :=
  (q = r ∧ OddOne M p q) ∨ (p = r ∧ OddOne M q p)
    ∨ (p = q ∧ OddOne M r p)

section Balance

variable {M s S a b : K}

theorem constrain_of_ge (hM : 0 < M) (h : M ≤ a) :
    constrain a (-M) M = M := by
  rw [constrain_eq (neg_le_self hM.le), min_eq_right h,
    max_eq_right (neg_le_self hM.le)]

/-- Over the limit, a wheel that fits is saturated or free: clamped at
the other end it would cancel a sum that is not zero. -/
theorem fits_iff (hM : 0 < M) (hs : 0 < s) (hS : M < S) (ha : a < S) :
    Fits M s S a ↔ Saturated M s S a ∨ Free M s S a := by
  have hsum : 0 < 2 * s * (S - a) :=
    mul_pos (mul_pos two_pos hs) (sub_pos.mpr ha)
  unfold Fits Saturated Free
  rw [constrain_of_ge hM hS.le]
  rcases le_or_gt M (S - 2 * a) with hhigh | hhigh
  · rw [constrain_of_ge hM hhigh]
    constructor
    · intro h
      exact Or.inl ⟨hhigh, by linarith⟩
    · rintro (⟨-, h⟩ | ⟨hle, h⟩)
      · linarith
      · -- the boundary belongs to both
        have heq := le_antisymm ((abs_le.mp hle).2) hhigh
        linarith
  · rcases le_or_gt (-M) (S - 2 * a) with hlow | hlow
    · rw [constrain_of_mem hlow hhigh.le]
      constructor
      · intro h
        exact Or.inr ⟨abs_le.mpr ⟨hlow, hhigh.le⟩, h⟩
      · rintro (⟨hle, -⟩ | ⟨-, h⟩)
        · exact absurd hle (not_le.mpr hhigh)
        · exact h
    · rw [constrain, if_pos hlow]
      constructor
      · intro h
        linarith
      · rintro (⟨hle, -⟩ | ⟨hle, -⟩)
        · exact absurd hle (not_le.mpr hhigh)
        · exact absurd (abs_le.mp hle).1 (not_le.mpr hlow)

theorem Saturated.unique (hs : 0 < s) (ha : Saturated M s S a)
    (hb : Saturated M s S b) : a = b := by
  have hsub := mul_left_cancel₀ hs.ne' (ha.2.trans hb.2.symm)
  linarith

/-- Two free wheels can only lose the same fraction when they are equal:
otherwise nothing is lost, and the sum is the maximum. -/
theorem Free.unique (hS : M < S) (ha : Free M s S a)
    (hb : Free M s S b) : a = b := by
  have hprod : (1 - s) * (a - b) = 0 := by linarith [ha.2, hb.2]
  rcases mul_eq_zero.mp hprod with h | h
  · obtain rfl : s = 1 := by linarith
    have hsum := ha.2
    linarith
  · linarith

/-- Two equal magnitudes that fit beside a third. -/
theorem oddOne_of_fits (hs : 0 < s) (hS : M < a + 2 * b)
    (ha : Saturated M s (a + 2 * b) a ∨ Free M s (a + 2 * b) a)
    (hb : Saturated M s (a + 2 * b) b ∨ Free M s (a + 2 * b) b) :
    OddOne M a b := by
  rcases ha with ha | ha <;> rcases hb with hb | hb
  · exact Or.inl (ha.unique hs hb)
  · -- the wheel of the third is clamped: it is nothing, or the factor 1/2
    have hfactor : 2 * s * b = M := by linarith [ha.2]
    have hprod : (1 - 2 * s) * a = 0 := by linarith [hb.2]
    rcases mul_eq_zero.mp hprod with h | h
    · have hbM : b = M := by
        rw [← hfactor, ← sub_eq_zero.mp h, one_mul]
      have hle := ha.1
      exact Or.inr (Or.inr (Or.inl ⟨hbM, by linarith⟩))
    · exact Or.inr (Or.inl h)
  · -- the wheels of the two are clamped: the factor comes from them
    have hle := hb.1
    have hfactor : s * (a + b) = M := by linarith [hb.2]
    have hfree : M + (2 * b - a) = 4 * s * b := by linarith [ha.2]
    refine Or.inr (Or.inr (Or.inr ⟨by linarith, ?_, ?_⟩))
    · rw [show 2 * b - a = a + 2 * b - 2 * a by ring]
      exact ha.1
    · calc (a - 2 * b) * (a + b)
          = M * (a + b) - 4 * b * (s * (a + b)) := by
            rw [show a - 2 * b = M - 4 * s * b by linarith]
            ring
        _ = M * (a - 3 * b) := by
            rw [hfactor]
            ring
  · exact Or.inl (ha.unique hS hb)

/-- And the factor of each of the ways. -/
theorem fits_of_oddOne (hM : 0 < M) (ha : 0 ≤ a) (hb : 0 < b)
    (hS : M < a + 2 * b) (h : OddOne M a b) :
    ∃ s, 0 < s ∧ s ≤ 1
      ∧ (Saturated M s (a + 2 * b) a ∨ Free M s (a + 2 * b) a)
      ∧ (Saturated M s (a + 2 * b) b ∨ Free M s (a + 2 * b) b) := by
  rcases h with rfl | rfl | ⟨rfl, hle⟩ | ⟨hge, hnear, hcurve⟩
  · rcases le_total a M with h | h
    · -- all three equal and within the maximum
      have hfree : Free M ((M + a) / (4 * a)) (a + 2 * a) a := by
        refine ⟨abs_le.mpr ⟨by linarith, by linarith⟩, ?_⟩
        field_simp
        ring
      refine ⟨(M + a) / (4 * a), by positivity, ?_, Or.inr hfree,
        Or.inr hfree⟩
      rw [div_le_one (by positivity)]
      linarith
    · have hsat : Saturated M (M / (2 * a)) (a + 2 * a) a := by
        refine ⟨by linarith, ?_⟩
        field_simp
        ring
      refine ⟨M / (2 * a), by positivity, ?_, Or.inl hsat, Or.inl hsat⟩
      rw [div_le_one (by positivity)]
      linarith
  · refine ⟨M / (2 * b), by positivity, ?_, Or.inl ⟨by linarith, ?_⟩,
      Or.inr ⟨?_, ?_⟩⟩
    · rw [div_le_one (by positivity)]
      linarith
    · field_simp
      ring
    · rw [zero_add, sub_self, abs_zero]
      exact hM.le
    · field_simp
      ring
  · refine ⟨1 / 2, by positivity, by linarith, Or.inl ⟨by linarith, by ring⟩,
      Or.inr ⟨?_, by ring⟩⟩
    rw [add_sub_cancel_right, abs_of_nonneg ha]
    exact hle
  · have hpos : 0 < a + b := add_pos_of_nonneg_of_pos ha hb
    refine ⟨M / (a + b), by positivity, ?_, Or.inr ⟨?_, ?_⟩,
      Or.inl ⟨by linarith, ?_⟩⟩
    · rw [div_le_one hpos]
      linarith
    · rw [show a + 2 * b - 2 * a = 2 * b - a by ring]
      exact hnear
    · field_simp
      linarith
    · field_simp
      ring

/-- Over the limit, two equal magnitudes and a third are slowed alike
exactly when the third is an odd one they can have. -/
theorem exists_slowed_pair_iff (hM : 0 < M) (ha : 0 ≤ a) (hb : 0 < b)
    (hS : M < a + 2 * b) :
    (∃ s, 0 < s ∧ s ≤ 1 ∧ Slowed M s a b b) ↔ OddOne M a b := by
  have hsplit : ∀ s, 0 < s → (Slowed M s a b b
      ↔ (Saturated M s (a + 2 * b) a ∨ Free M s (a + 2 * b) a)
        ∧ (Saturated M s (a + 2 * b) b ∨ Free M s (a + 2 * b) b)) := by
    intro s hs
    rw [slowed_iff_fits hM.le, show a + b + b = a + 2 * b by ring,
      fits_iff hM hs hS (by linarith), fits_iff hM hs hS (by linarith),
      and_self]
  constructor
  · rintro ⟨s, hs, -, h⟩
    obtain ⟨fa, fb⟩ := (hsplit s hs).mp h
    exact oddOne_of_fits hs hS fa fb
  · intro h
    obtain ⟨s, hs, hs1, fits⟩ := fits_of_oddOne hM ha hb hS h
    exact ⟨s, hs, hs1, (hsplit s hs).mpr fits⟩

/-- Over the limit two of three wheels are of one kind, so equal. -/
theorem two_equal_of_slowed {p q r : K} (hM : 0 < M) (hs : 0 < s)
    (hp : 0 ≤ p) (hq : 0 < q) (hr : 0 < r) (hS : M < p + q + r)
    (h : Slowed M s p q r) : q = r ∨ p = r ∨ p = q := by
  rw [slowed_iff_fits hM.le, fits_iff hM hs hS (by linarith),
    fits_iff hM hs hS (by linarith),
    fits_iff hM hs hS (by linarith)] at h
  obtain ⟨fp, fq, fr⟩ := h
  rcases fp with fp | fp <;> rcases fq with fq | fq
  · exact Or.inr (Or.inr (fp.unique hs fq))
  · rcases fr with fr | fr
    · exact Or.inr (Or.inl (fp.unique hs fr))
    · exact Or.inl (fq.unique hS fr)
  · rcases fr with fr | fr
    · exact Or.inl (fq.unique hs fr)
    · exact Or.inr (Or.inl (fp.unique hS fr))
  · exact Or.inr (Or.inr (fp.unique hS fq))

/-- Over the limit, with two magnitudes that are not zero, the direction
survives the clamps exactly when the magnitudes fit. -/
theorem exists_slowed_iff {p q r : K} (hM : 0 < M) (hp : 0 ≤ p)
    (hq : 0 < q) (hr : 0 < r) (hS : M < p + q + r) :
    (∃ s, 0 < s ∧ s ≤ 1 ∧ Slowed M s p q r) ↔ Balanced M p q r := by
  constructor
  · rintro ⟨s, hs, hs1, h⟩
    rcases two_equal_of_slowed hM hs hp hq hr hS h with rfl | rfl | rfl
    · have hpair := exists_slowed_pair_iff hM hp hq (by linarith)
      exact Or.inl ⟨rfl, hpair.mp ⟨s, hs, hs1, h⟩⟩
    · have hpair := exists_slowed_pair_iff hM hq.le hr (by linarith)
      exact Or.inr (Or.inl ⟨rfl,
        hpair.mp ⟨s, hs, hs1, slowed_swap_first.mp h⟩⟩)
    · have hpair := exists_slowed_pair_iff hM hr.le hq (by linarith)
      exact Or.inr (Or.inr ⟨rfl, hpair.mp ⟨s, hs, hs1,
        slowed_swap_first.mp (slowed_swap_last.mp h)⟩⟩)
  · rintro (⟨rfl, h⟩ | ⟨rfl, h⟩ | ⟨rfl, h⟩)
    · exact (exists_slowed_pair_iff hM hp hq (by linarith)).mpr h
    · obtain ⟨s, hs, hs1, hslowed⟩ :=
        (exists_slowed_pair_iff hM hq.le hr (by linarith)).mpr h
      exact ⟨s, hs, hs1, slowed_swap_first.mpr hslowed⟩
    · obtain ⟨s, hs, hs1, hslowed⟩ :=
        (exists_slowed_pair_iff hM hr.le hq (by linarith)).mpr h
      exact ⟨s, hs, hs1,
        slowed_swap_last.mpr (slowed_swap_first.mpr hslowed)⟩

end Balance

-- ========================================================= mecanum bases

section Mecanum

variable {k : Kinematics K}

/-- The wheels achieve the commanded motion, only slower. -/
def PathKept (k : Kinematics K) (x y wz : K) : Prop :=
  ∃ s, 0 < s ∧ s ≤ 1
    ∧ k.velocitiesOf (k.getRPM x y wz) = ⟨s * x, s * y, s * wz⟩

omit [IsStrictOrderedRing K] in
/-- A mecanum base recovers its velocities from all four wheels. -/
theorem velocitiesOf_mecanum (hk : k.Built)
    (hb : k.basePlatform = .mecanum) (r : Rpm K) :
    k.velocitiesOf r = k.recover (unmix r) := by
  have htotal := hk.totalWheels
  rw [hb] at htotal
  simp only [velocitiesOf, getVelocities, hb, htotal, recover, unmix,
    getTotalWheels, Int.cast_ofNat]
  congr 1 <;> ring

omit [IsStrictOrderedRing K] in
/-- No two demands amount to the same velocities. -/
theorem recover_injective (hg : k.Geometry) :
    Function.Injective k.recover := by
  intro d d' h
  have hc := hg.wheelCircumference.ne'
  have hd := hg.wheelsYDistance.ne'
  obtain ⟨x, y, tan⟩ := d
  obtain ⟨x', y', tan'⟩ := d'
  simp only [recover, Velocities.mk.injEq] at h
  field_simp at h
  obtain ⟨rfl, rfl, rfl⟩ := h
  rfl

omit [IsStrictOrderedRing K] in
/-- So the path is kept when the limited demand is a slower demand. -/
theorem pathKept_iff_demand (hk : k.Built)
    (hb : k.basePlatform = .mecanum) (hg : k.Geometry) (x y wz : K) :
    k.PathKept x y wz ↔ ∃ s, 0 < s ∧ s ≤ 1
      ∧ unmix (k.mix (k.scale y wz (k.demand x y wz)))
          = (k.demand x y wz).scaled s := by
  unfold PathKept
  refine exists_congr fun s => and_congr_right fun _ =>
    and_congr_right fun _ => ?_
  rw [velocitiesOf_mecanum hk hb, ← recover_scaled_demand hg,
    (recover_injective hg).eq_iff]
  simp only [getRPM, hb, calculateRPM]

/-- What the clamped wheels of a demand amount to. -/
theorem unmix_mix_eq_iff {d : Demand K} (hM : 0 ≤ k.maxRpm) (s : K) :
    unmix (k.mix d) = d.scaled s
      ↔ Slowed k.maxRpm s |d.x| |d.y| |d.tan| := by
  have h1 : constrain (d.y - d.x + d.tan) (-k.maxRpm) k.maxRpm
      = -constrain (d.x - d.y - d.tan) (-k.maxRpm) k.maxRpm :=
    constrain_flip hM (by ring)
  have h3 : constrain (d.tan - d.x - d.y) (-k.maxRpm) k.maxRpm
      = -constrain (d.x + d.y - d.tan) (-k.maxRpm) k.maxRpm :=
    constrain_flip hM (by ring)
  have h4 : constrain (d.y - d.x - d.tan) (-k.maxRpm) k.maxRpm
      = -constrain (d.x - d.y + d.tan) (-k.maxRpm) k.maxRpm :=
    constrain_flip hM (by ring)
  rw [slowed_abs hM]
  unfold Slowed spread unmix mix Demand.scaled
  rw [Demand.mk.injEq, h1, h3, h4,
    show d.y + d.x + d.tan = d.x + d.y + d.tan by ring,
    show d.y + d.x - d.tan = d.x + d.y - d.tan by ring,
    show d.tan + d.x + d.y = d.x + d.y + d.tan by ring,
    show d.tan + d.x - d.y = d.x - d.y + d.tan by ring,
    show d.tan - d.x + d.y = d.y - d.x + d.tan by ring, h1]
  constructor
  · rintro ⟨hx, hy, ht⟩
    refine ⟨?_, ?_, ?_⟩ <;> linarith
  · rintro ⟨hx, hy, ht⟩
    refine ⟨?_, ?_, ?_⟩ <;> linarith

/-- A guarded rescaling keeps the path. -/
theorem pathKept_of_scale (hk : k.Built) (hb : k.basePlatform = .mecanum)
    (hM : 0 < k.maxRpm) (hg : k.Geometry) {x y wz sum : K}
    (hsum : 0 ≤ sum)
    (hscale : k.scale y wz (k.demand x y wz)
      = (k.demand x y wz).scaled (limit k.maxRpm sum))
    (habs : |(k.demand x y wz).x| + |(k.demand x y wz).y|
      + |(k.demand x y wz).tan| = sum) : k.PathKept x y wz := by
  have hpos := limit_pos hM hsum
  rw [pathKept_iff_demand hk hb hg]
  refine ⟨limit k.maxRpm sum, hpos, limit_le_one hM hsum, ?_⟩
  rw [hscale, mix_of_sum_le, unmix_wheels]
  simp only [Demand.scaled, abs_mul, abs_of_pos hpos, ← mul_add, habs]
  exact limit_mul_le hM hsum

/-- On a mecanum base the path is kept exactly when the command does not
turn, or does not move sideways, or asks for no more than the maximum,
or has magnitudes that fit behind the clamps. -/
theorem mecanum_path_kept_iff (hk : k.Built)
    (hb : k.basePlatform = .mecanum) (hM : 0 < k.maxRpm)
    (hg : k.Geometry) (x y wz : K) :
    let d := k.demand x y wz
    k.PathKept x y wz ↔ wz = 0 ∨ y = 0
      ∨ |d.x| + |d.y| + |d.tan| ≤ k.maxRpm
      ∨ Balanced k.maxRpm |d.x| |d.y| |d.tan| := by
  intro d
  by_cases hwz : wz = 0
  · subst hwz
    have ht : d.tan = 0 := by simp [d, demand]
    refine iff_of_true ?_ (Or.inl rfl)
    refine pathKept_of_scale hk hb hM hg (by positivity)
      (scale_sideways hM ht fun hy => ?_) ?_
    · simp [demand, hy]
    · show |d.x| + |d.y| + |d.tan| = |d.x| + |d.y|
      rw [ht, abs_zero, add_zero]
  by_cases hy : y = 0
  · subst hy
    have hy0 : d.y = 0 := by simp [d, demand]
    refine iff_of_true ?_ (Or.inr (Or.inl rfl))
    refine pathKept_of_scale hk hb hM hg (by positivity)
      (scale_turning hM hy0 fun h => absurd h hwz) ?_
    show |d.x| + |d.y| + |d.tan| = |d.x| + |d.tan|
    rw [hy0, abs_zero, add_zero]
  -- sideways and turning: only the clamps
  have hc := hg.wheelCircumference.ne'
  have hd := hg.wheelsYDistance.ne'
  have hq : 0 < |d.y| := by
    refine abs_pos.mpr ?_
    simp only [d, demand, Int.cast_ofNat]
    positivity
  have hr : 0 < |d.tan| := by
    refine abs_pos.mpr ?_
    simp only [d, demand, Int.cast_ofNat]
    positivity
  rw [pathKept_iff_demand hk hb hg, scale_both hy hwz]
  simp only [hwz, hy, false_or]
  rcases le_or_gt (|d.x| + |d.y| + |d.tan|) k.maxRpm with hle | hgt
  · refine iff_of_true ⟨1, one_pos, le_rfl, ?_⟩ (Or.inl hle)
    rw [mix_of_sum_le hle, unmix_wheels]
    simp [Demand.scaled, d]
  · rw [or_iff_right (not_le.mpr hgt),
      ← exists_slowed_iff hM (abs_nonneg _) hq hr hgt]
    exact exists_congr fun s => and_congr_right fun _ =>
      and_congr_right fun _ => unmix_mix_eq_iff hM.le s

/-- The configured board's motors and wheels on a mecanum base. -/
def f446reMecanum : BoardConfig ℚ := { f446re with linoBase := .mecanum }

theorem f446reMecanum_sane : f446reMecanum.Sane := by
  constructor <;> norm_num [f446reMecanum, f446re]

/-- The condition, for one command to it. -/
theorem mecanum_path_kept_f446re :
    let k := f446reMecanum.kinematics
    let d := k.demand (1 / 10) (1 / 5) 1
    k.PathKept (1 / 10) (1 / 5) 1 ↔ (1 : ℚ) = 0 ∨ (1 / 5 : ℚ) = 0
      ∨ |d.x| + |d.y| + |d.tan| ≤ k.maxRpm
      ∨ Balanced k.maxRpm |d.x| |d.y| |d.tan| :=
  mecanum_path_kept_iff kinematics_built rfl
    f446reMecanum_sane.maxRpm_pos (kinematics_geometry f446reMecanum_sane)
    _ _ _

/-- Forward, to the left and turning at once, the velocities that come
out point elsewhere. -/
theorem mecanum_leaves_path :
    let k := f446reMecanum.kinematics
    k.Built ∧ k.basePlatform = .mecanum ∧ 0 < k.maxRpm ∧ k.Geometry
      ∧ ¬ k.PathKept (2 / 5) (1 / 5) 1 := by
  refine ⟨kinematics_built, rfl, f446reMecanum_sane.maxRpm_pos,
    kinematics_geometry f446reMecanum_sane, ?_⟩
  rintro ⟨s, -, -, h⟩
  have hratio : (f446reMecanum.kinematics.velocitiesOf
      (f446reMecanum.kinematics.getRPM (2 / 5) (1 / 5) 1)).linearX
        ≠ 2 * (f446reMecanum.kinematics.velocitiesOf
      (f446reMecanum.kinematics.getRPM (2 / 5) (1 / 5) 1)).linearY := by
    decide +kernel
  refine hratio ?_
  rw [h]
  ring

end Mecanum

end Kinematics

end LinoStm32
