/-
Encoder tracking: position and speed against the true motion of a wheel
of which only residues are ever seen.

`since` is what the calls leave to measure by: the updates after the last
`set_position`, each with what it returned. The first of them seeds, and
every later one counts the true change from the one before it
(`delta_eq_signed`), so that

- the position is the base plus the signed change between the first and
  the last of them (`change`), modulo its 32 bits;
- the returned speeds, each over its own interval, add up to the same
  change in revolutions (`turned`).

`Tracks` says this of one state, `Tracks.update` and
`Tracks.setPosition` that a call keeps it, and `wheel_tracked` that a run
does. Nothing is asked of two updates with a `set_position` between them.
-/
import LinoStm32.Encoder
import LinoStm32.Lib.Window

namespace LinoStm32

namespace EncoderMath

variable {K : Type}

-- ============================================================== the calls

/-- A call on an encoder: an update when the wheel has truly made `pos`
counts and the clock truly stands at `us` microseconds, or a new base. -/
inductive Call
  | update (pos : Int) (us : Nat)
  | setPosition (p : BitVec 32)

/-- Between two updates in a row the wheel moves less than half a turn of
its counter and the clock less than a turn. -/
def Moves (is32 : Bool) : Call → Call → Prop
  | .update pos us, .update pos' us' =>
      |pos' - pos| < 2 ^ (counterBits is32 - 1) ∧ us < us'
        ∧ us' - us < 2 ^ 32
  | _, _ => True

/-- The base a call sets. -/
def Call.base : Call → Option Int
  | .update _ _ => none
  | .setPosition p => some p.toInt

-- =========================================================== the measure

/-- An update and the speed it returned. -/
structure Reading (K : Type) where
  pos : Int
  us : Nat
  rpm : K

/-- What a call read. -/
def reading : Call × K → Option (Reading K)
  | (.update pos us, rpm) => some ⟨pos, us, rpm⟩
  | (.setPosition _, _) => none

/-- The readings since the last base was set. -/
def since (h : List (Call × K)) : List (Reading K) :=
  (Lib.window (fun e => e.1.base) h).filterMap reading

/-- The true change of the wheel over some readings. -/
def change (l : List (Reading K)) : Int :=
  match l.head?, l.getLast? with
  | some a, some b => b.pos - a.pos
  | _, _ => 0

section Measure

variable {h : List (Call × K)} {l : List (Reading K)} {a b : Reading K}

theorem since_update (pos : Int) (us : Nat) (rpm : K) :
    since (h ++ [(.update pos us, rpm)]) = since h ++ [⟨pos, us, rpm⟩] := by
  unfold since
  rw [Lib.window_concat_none h rfl, List.filterMap_append]
  rfl

theorem since_setPosition (p : BitVec 32) (rpm : K) :
    since (h ++ [(.setPosition p, rpm)]) = [] := by
  unfold since
  rw [Lib.window_concat_some h (a := p.toInt) rfl]
  rfl

/-- The last reading is of the last call. -/
theorem getLast_call (hlast : (since h).getLast? = some a) :
    (h.map Prod.fst).getLast? = some (.update a.pos a.us) := by
  induction h using List.reverseRecOn with
  | nil => exact absurd hlast (by simp [since])
  | append_singleton h e _ =>
      obtain ⟨c, rpm⟩ := e
      cases c with
      | update pos us =>
          rw [since_update, List.getLast?_concat] at hlast
          obtain rfl := Option.some.inj hlast
          rw [List.map_append]
          exact List.getLast?_concat
      | setPosition p =>
          rw [since_setPosition] at hlast
          exact absurd hlast (by simp)

theorem change_concat (hlast : l.getLast? = some a) :
    change (l ++ [b]) = change l + (b.pos - a.pos) := by
  unfold change
  cases l with
  | nil => exact absurd hlast (by simp)
  | cons x l =>
      rw [List.getLast?_concat, hlast, List.cons_append]
      simp only [List.head?_cons]
      ring

@[simp] theorem change_nil : change ([] : List (Reading K)) = 0 := rfl

@[simp] theorem change_singleton : change [a] = 0 := by
  simp [change]

/-- The base the calls so far have set. -/
theorem base_update (pos : Int) (us : Nat) (rpm : K) :
    Lib.latest Call.base ((h ++ [(Call.update pos us, rpm)]).map Prod.fst)
      = Lib.latest Call.base (h.map Prod.fst) := by
  rw [List.map_append]
  exact Lib.latest_concat_none _ rfl

theorem base_setPosition (p : BitVec 32) (rpm : K) :
    Lib.latest Call.base ((h ++ [(Call.setPosition p, rpm)]).map Prod.fst)
      = some p.toInt := by
  rw [List.map_append]
  exact Lib.latest_concat_some _ rfl

end Measure

/-- The position is the accumulator modulo 32 bits. -/
theorem position_modEq {m : EncoderMath} {n : Int}
    (h : m.accum = BitVec.ofInt 64 n) :
    m.position ≡ n [ZMOD 2 ^ 32] := by
  have hdvd : ((2 ^ 32 : Nat) : Int) ∣ ((2 ^ 64 : Nat) : Int) := by decide
  have hnat : ((m.accum.toNat : Nat) : Int) = n % (2 ^ 64 : Nat) := by
    rw [h, BitVec.toNat_ofInt]
    exact Int.toNat_of_nonneg (Int.emod_nonneg _ (by decide))
  show (m.accum.setWidth 32).toInt % ((2 ^ 32 : Nat) : Int)
    = n % ((2 ^ 32 : Nat) : Int)
  rw [BitVec.toInt_eq_toNat_bmod, Int.bmod_emod, BitVec.toNat_setWidth,
    Int.natCast_emod, Int.emod_emod_of_dvd _ dvd_rfl, hnat,
    Int.emod_emod_of_dvd _ hdvd]

-- ========================================================= the invariant

variable [Field K] [LinearOrder K] [FloorRing K]

/-- The call made: an update is passed what the counter and the clock
show. -/
def Call.exec (is32 : Bool) (m : EncoderMath) : Call → EncoderMath × K
  | .update pos us =>
      let r := m.update (counterReg is32 pos) (BitVec.ofNat 32 us)
      (r.2, r.1)
  | .setPosition p => (m.setPosition p, 0)

/-- Calls in sequence. -/
def machine (K : Type) [Field K] [LinearOrder K] [FloorRing K]
    (is32 : Bool) : Lib.Mealy EncoderMath Call K :=
  ⟨fun m c => c.exec is32 m⟩

/-- The revolutions the returned speeds amount to: each over the minutes
since the reading before it. -/
def turned (l : List (Reading K)) : K :=
  Lib.pairSum
    (fun a b => b.rpm * (((b.us : K) - (a.us : K)) / 60000000)) l

/-- What a state holds after the calls made so far, each with what it
returned. -/
structure Tracks (cpr : Int) (is32 invert : Bool) (h : List (Call × K))
    (m : EncoderMath) : Prop where
  cpr_eq : m.cpr = cpr
  is32_eq : m.is32 = is32
  invert_eq : m.invert = invert
  unseeded : since h = [] → m.first = true
  seeded : ∀ r ∈ (since h).getLast?, m.first = false
    ∧ m.prevCnt = counterReg is32 r.pos ∧ m.prevUs = BitVec.ofNat 32 r.us
  accum : m.accum = BitVec.ofInt 64
    ((Lib.latest Call.base (h.map Prod.fst)).getD 0
      + signed invert (change (since h)))
  turned_eq : turned (since h)
    = ((signed invert (change (since h)) : Int) : K) / (cpr : K)

section Steps

variable {cpr : Int} {is32 invert : Bool} {h : List (Call × K)}
  {m : EncoderMath}

theorem tracks_new : Tracks (K := K) cpr is32 invert []
    (EncoderMath.new cpr is32 invert) where
  cpr_eq := rfl
  is32_eq := rfl
  invert_eq := rfl
  unseeded _ := rfl
  seeded r hr := absurd hr (by simp [since])
  accum := by cases invert <;> rfl
  turned_eq := by simp [since, turned, signed_zero]

theorem Tracks.setPosition (ht : Tracks cpr is32 invert h m)
    (p : BitVec 32) :
    Tracks cpr is32 invert (h ++ [(.setPosition p, 0)])
      (m.setPosition p) := by
  refine ⟨ht.cpr_eq, ht.is32_eq, ht.invert_eq, fun _ => rfl, ?_, ?_, ?_⟩
  · rw [since_setPosition]
    exact fun r hr => absurd hr (by simp)
  · rw [since_setPosition, base_setPosition, change_nil, signed_zero,
      add_zero]
    rfl
  · rw [since_setPosition, change_nil, signed_zero]
    simp [turned]

/-- No value of an update within bounds leaves 32 bits. -/
theorem Tracks.ints_mem (ht : Tracks cpr is32 invert h m) {pos : Int}
    {us : Nat} (hmoves : ∀ c ∈ (h.map Prod.fst).getLast?,
      Moves is32 c (.update pos us)) :
    ∀ v ∈ m.ints (counterReg is32 pos), -2 ^ 31 ≤ v ∧ v < 2 ^ 31 := by
  intro v hv
  cases hlast : (since h).getLast? with
  | none =>
      have hfirst := ht.unseeded (List.getLast?_eq_none_iff.mp hlast)
      rw [ints, if_pos (Or.inr hfirst)] at hv
      exact absurd hv (by simp)
  | some a =>
      obtain ⟨-, hprev, -⟩ := ht.seeded a (by rw [hlast]; rfl)
      obtain ⟨hpos, -, -⟩ := hmoves _ (getLast_call hlast)
      rw [← ht.is32_eq] at hprev hpos hv
      exact EncoderMath.ints_mem hprev hpos hv

/-- The first reading since the base seeds. -/
theorem Tracks.seed (ht : Tracks cpr is32 invert h m) (hnil : since h = [])
    (pos : Int) (us : Nat) (rpm : K) :
    Tracks cpr is32 invert (h ++ [(.update pos us, rpm)])
      { m with
        first := false
        prevCnt := counterReg is32 pos
        prevUs := BitVec.ofNat 32 us } := by
  have hsince : since (h ++ [(Call.update pos us, rpm)])
      = [⟨pos, us, rpm⟩] := by rw [since_update, hnil]; rfl
  have haccum := ht.accum
  rw [hnil, change_nil] at haccum
  refine ⟨ht.cpr_eq, ht.is32_eq, ht.invert_eq, ?_, ?_, ?_, ?_⟩
  · rw [hsince]
    exact fun hne => absurd hne (by simp)
  · rw [hsince]
    rintro a ⟨rfl⟩
    exact ⟨rfl, rfl, rfl⟩
  · rw [hsince, base_update, change_singleton]
    exact haccum
  · rw [hsince, change_singleton, signed_zero]
    simp [turned]

/-- A later reading counts the change from the one before it, and so does
its speed over the interval between them. -/
theorem Tracks.sample (ht : Tracks cpr is32 invert h m) {a : Reading K}
    (hlast : (since h).getLast? = some a) {pos : Int} {us : Nat} {rpm : K}
    (hrpm : rpm * (((us : K) - (a.us : K)) / 60000000)
      = ((signed invert (pos - a.pos) : Int) : K) / (cpr : K)) :
    Tracks cpr is32 invert (h ++ [(.update pos us, rpm)])
      { m with
        accum := m.accum + BitVec.ofInt 64 (signed invert (pos - a.pos))
        prevCnt := counterReg is32 pos
        prevUs := BitVec.ofNat 32 us } := by
  obtain ⟨hfirst, -, -⟩ := ht.seeded a (by rw [hlast]; rfl)
  have hchange : signed invert
        (change (since (h ++ [(Call.update pos us, rpm)])))
      = signed invert (change (since h)) + signed invert (pos - a.pos) := by
    rw [since_update, change_concat hlast, signed_add]
  refine ⟨ht.cpr_eq, ht.is32_eq, ht.invert_eq, ?_, ?_, ?_, ?_⟩
  · rw [since_update]
    exact fun hne => absurd hne (by simp)
  · rw [since_update, List.getLast?_concat]
    rintro b ⟨rfl⟩
    exact ⟨hfirst, rfl, rfl⟩
  · rw [hchange, base_update, ht.accum, ← BitVec.ofInt_add, add_assoc]
  · rw [hchange, since_update, Int.cast_add, add_div, ← ht.turned_eq,
      ← hrpm]
    exact Lib.pairSum_concat _ hlast _

/-- A speed times the interval it was measured over. -/
theorem speed_mul_span [IsStrictOrderedRing K] (delta cpr : K) {us us' : Nat}
    (hus : us < us') :
    delta / cpr / (((us' - us : Nat) : K) / 60000000)
        * (((us' : K) - (us : K)) / 60000000) = delta / cpr := by
  have hspan : ((us' - us : Nat) : K) = (us' : K) - (us : K) :=
    Nat.cast_sub hus.le
  have hspan0 : (us' : K) - (us : K) ≠ 0 := by
    rw [sub_ne_zero]
    exact_mod_cast hus.ne'
  rw [hspan]
  field_simp

/-- An update keeps the invariant when the last call, if it was an update,
is one the wheel and the clock moved on from within bounds. -/
theorem Tracks.update [IsStrictOrderedRing K] (hcpr : 0 < cpr)
    (ht : Tracks cpr is32 invert h m) {pos : Int} {us : Nat}
    (hmoves : ∀ c ∈ (h.map Prod.fst).getLast?,
      Moves is32 c (.update pos us)) :
    let r := m.update (F := K) (counterReg is32 pos) (BitVec.ofNat 32 us)
    Tracks cpr is32 invert (h ++ [(.update pos us, r.1)]) r.2 := by
  intro r
  have hcpr' : 0 < m.cpr := by rw [ht.cpr_eq]; exact hcpr
  cases hlast : (since h).getLast? with
  | none =>
      have hnil : since h = [] := List.getLast?_eq_none_iff.mp hlast
      have hupdate : r = _ := update_first (F := K) (counterReg is32 pos)
        (BitVec.ofNat 32 us) hcpr' (ht.unseeded hnil)
      rw [hupdate]
      exact ht.seed hnil pos us _
  | some a =>
      obtain ⟨hfirst, hprev, hprevUs⟩ := ht.seeded a (by rw [hlast]; rfl)
      obtain ⟨hpos, hus, hlt⟩ := hmoves _ (getLast_call hlast)
      have hdelta : m.delta (counterReg is32 pos)
          = signed invert (pos - a.pos) := by
        rw [← ht.is32_eq] at hprev hpos ⊢
        rw [delta_eq_signed hprev hpos, ht.invert_eq]
      have helapsed : (BitVec.ofNat 32 us - m.prevUs).toNat = us - a.us := by
        rw [hprevUs]
        exact Lib.elapsed_of_lt 32 hus.le hlt
      have hdt : BitVec.ofNat 32 us - m.prevUs ≠ 0 := by
        intro h0
        rw [h0] at helapsed
        have : us - a.us = 0 := helapsed.symm
        omega
      have hupdate : r = _ := update_sample (F := K) (counterReg is32 pos)
        (BitVec.ofNat 32 us) hcpr' hfirst hdt
      rw [hdelta, helapsed] at hupdate
      have hspeed : r.1 * (((us : K) - (a.us : K)) / 60000000)
          = ((signed invert (pos - a.pos) : Int) : K) / (cpr : K) := by
        simp only [hupdate, ht.cpr_eq, Int.cast_natCast, Int.cast_ofNat]
        exact speed_mul_span _ _ hus
      have hsample := ht.sample hlast hspeed
      rw [hupdate] at hsample ⊢
      exact hsample

end Steps

-- ================================================================ the runs

section Runs

variable [IsStrictOrderedRing K] {cpr : Int} {is32 : Bool}

/-- After any calls the state holds what they determine. -/
theorem tracks_run (hcpr : 0 < cpr) (invert : Bool) {calls : List Call}
    (h : calls.IsChain (Moves is32)) :
    Tracks cpr is32 invert
      ((machine K is32).transcript (EncoderMath.new cpr is32 invert) calls)
      ((machine K is32).final (EncoderMath.new cpr is32 invert) calls) := by
  induction calls using List.reverseRecOn with
  | nil => exact tracks_new
  | append_singleton calls c ih =>
      obtain ⟨hcalls, -, hlast⟩ := List.isChain_append.mp h
      rw [Lib.Mealy.transcript_concat, Lib.Mealy.final_concat]
      cases c with
      | setPosition p => exact (ih hcalls).setPosition p
      | update pos us =>
          refine (ih hcalls).update hcpr fun c hc => ?_
          rw [Lib.Mealy.map_fst_transcript] at hc
          exact hlast c hc _ rfl

/-- Over any calls within bounds the position is the base plus the signed
change since it was set, modulo 32 bits, the returned speeds add up to
the same change in revolutions, and no value on the way leaves 32
bits. -/
theorem wheel_tracked (hcpr : 0 < cpr) (invert : Bool) {calls : List Call}
    (h : calls.IsChain (Moves is32)) :
    let M := machine K is32
    let start := EncoderMath.new cpr is32 invert
    let readings := since (M.transcript start calls)
    (M.final start calls).position
        ≡ (Lib.latest Call.base calls).getD 0
          + signed invert (change readings) [ZMOD 2 ^ 32]
      ∧ turned readings
        = ((signed invert (change readings) : Int) : K) / (cpr : K)
      ∧ ∀ pre pos us post, calls = pre ++ .update pos us :: post →
        ∀ v ∈ (M.final start pre).ints (counterReg is32 pos),
          -2 ^ 31 ≤ v ∧ v < 2 ^ 31 := by
  intro M start readings
  have ht := tracks_run (K := K) hcpr invert h
  have haccum := ht.accum
  rw [Lib.Mealy.map_fst_transcript] at haccum
  refine ⟨position_modEq haccum, ht.turned_eq, ?_⟩
  rintro pre pos us post rfl
  obtain ⟨hpre, -, hlast⟩ := List.isChain_append.mp h
  have hmoves : ∀ c ∈ ((M.transcript start pre).map Prod.fst).getLast?,
      Moves is32 c (.update pos us) := by
    intro c hc
    rw [Lib.Mealy.map_fst_transcript] at hc
    exact hlast c hc _ rfl
  exact (tracks_run hcpr invert hpre).ints_mem hmoves

/-- A 16-bit encoder over a turn of its counter, its clock over one of
its own, and a new base. -/
theorem wheel_tracked_wraps :
    let calls := [Call.update 32000 4294967290, .update 34000 4294967310,
      .setPosition 7, .update 34100 4294987310, .update 60000 4295007310]
    let M := machine ℚ false
    let start := EncoderMath.new 144000 false true
    let readings := since (M.transcript start calls)
    (M.final start calls).position
        ≡ (Lib.latest Call.base calls).getD 0
          + signed true (change readings) [ZMOD 2 ^ 32]
      ∧ turned readings
        = ((signed true (change readings) : Int) : ℚ) / ((144000 : Int) : ℚ)
      ∧ ∀ pre pos us post, calls = pre ++ .update pos us :: post →
        ∀ v ∈ (M.final start pre).ints (counterReg false pos),
          -2 ^ 31 ≤ v ∧ v < 2 ^ 31 :=
  wheel_tracked (by decide) true (by
    simp [Moves, counterBits])

end Runs

end EncoderMath

end LinoStm32
