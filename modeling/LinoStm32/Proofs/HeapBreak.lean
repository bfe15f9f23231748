/-
The program break stays between `end` and the reserve below `_estack`,
and no address is out twice.

The guard of `_sbrk` tests a sum that may wrap, and only for positive
increments. That is enough below half of the address space: a positive
increment cannot wrap there, and a release cannot pass `end` because no
more than what is out is released, which is exactly the distance between
`end` and the break (`Abstracts.outstanding`).

`Abstracts` ties a state to a `Lib.Region` between `end` and the limit;
every call is one of its moves, or nothing (`Abstracts.call`).
-/
import LinoStm32.Heap

namespace LinoStm32

/-- The heap begins below the limit, and the limit lies in the lower half
of the address space. -/
structure LinkerSymbols.Laid (m : LinkerSymbols) : Prop where
  endAddr_le : m.endAddr ≤ m.limit
  limit_lt : m.limit < 0x80000000

namespace Heap

variable {m : LinkerSymbols} {s s' : Heap} {incr : BitVec 32}

-- ========================================================= the refinement

/-- The state is a region between `end` and the limit. -/
def Abstracts (m : LinkerSymbols) (s : Heap) : Prop :=
  ∃ r : Lib.Region m.endAddr.toNat m.limit.toNat,
    r.top = s.heapEnd.toNat ∧ r.blocks = s.out

theorem abstracts_start (hm : m.Laid) : Abstracts m (start m) :=
  ⟨.empty hm.endAddr_le, rfl, rfl⟩

/-- The break is inside the region. -/
theorem Abstracts.bounds (h : Abstracts m s) :
    m.endAddr.toNat ≤ s.heapEnd.toNat
      ∧ s.heapEnd.toNat ≤ m.limit.toNat := by
  obtain ⟨r, htop, -⟩ := h
  rw [← htop]
  exact ⟨r.tiles.base_le, r.top_le⟩

/-- What is out is what lies between `end` and the break. -/
theorem Abstracts.outstanding (h : Abstracts m s) :
    s.outstanding = s.heapEnd.toNat - m.endAddr.toNat := by
  obtain ⟨r, htop, hout⟩ := h
  rw [Heap.outstanding, ← hout, ← htop]
  exact r.tiles.size

theorem Abstracts.lt_half (hm : m.Laid) (h : Abstracts m s) :
    s.heapEnd.toNat < 2 ^ 31 := by
  have hlimit : m.limit.toNat < 2 ^ 31 := hm.limit_lt
  exact h.bounds.2.trans_lt hlimit

/-- A positive request that fits grows the region. -/
theorem Abstracts.grow (hm : m.Laid) (h : Abstracts m s)
    (hpos : 0 < incr.toInt)
    (hfits : s.heapEnd.toNat + incr.toNat ≤ m.limit.toNat) :
    Abstracts m ⟨s.heapEnd + incr, block s.heapEnd incr :: s.out⟩ := by
  have hsum := toNat_add_of_pos (h.lt_half hm) hpos
  have hsize : 0 < incr.toNat := by
    have hincr := BitVec.toInt_eq_toNat_cond incr
    omega
  obtain ⟨r, htop, hout⟩ := h
  refine ⟨r.grow (t := s.heapEnd.toNat + incr.toNat) ?_ hfits, hsum.symm, ?_⟩
  · rw [htop]
    omega
  · show ⟨r.top, _⟩ :: r.blocks = _
    rw [htop, hout]
    rfl

/-- A release of no more than what is out shrinks it. -/
theorem Abstracts.release (h : Abstracts m s) (hneg : incr.toInt ≤ 0)
    (hle : (-incr.toInt).toNat ≤ s.outstanding) :
    Abstracts m ⟨s.heapEnd + incr,
      Lib.cut (s.heapEnd.toNat - (-incr.toInt).toNat) s.out⟩ := by
  have hbounds := h.bounds
  rw [h.outstanding] at hle
  have hsum : (s.heapEnd + incr).toNat
      = s.heapEnd.toNat - (-incr.toInt).toNat :=
    toNat_add_of_nonpos hneg (by omega)
  obtain ⟨r, htop, hout⟩ := h
  refine ⟨r.release (t := s.heapEnd.toNat - (-incr.toInt).toNat) ?_ ?_,
    hsum.symm, ?_⟩
  · omega
  · rw [htop]
    exact Nat.sub_le _ _
  · show Lib.cut _ r.blocks = _
    rw [hout]

/-- Every call is one of these, or a refusal. -/
theorem Abstracts.call (hm : m.Laid) (h : Abstracts m s)
    (hcall : Heap.call m incr s = some s') : Abstracts m s' := by
  unfold Heap.call at hcall
  split at hcall
  · cases hcall
  · next hout =>
    obtain rfl := Option.some.inj hcall
    rcases lt_or_ge 0 incr.toInt with hpos | hneg
    · rcases le_or_gt (s.heapEnd.toNat + incr.toNat) m.limit.toNat
        with hfits | hfits
      · simp only [sbrk_of_fits hpos (h.lt_half hm) hfits, outAfter,
          if_pos hpos]
        exact h.grow hm hpos hfits
      · simp only [sbrk_of_not_fits hpos (h.lt_half hm) hfits, outAfter]
        exact h
    · simp only [sbrk_of_nonpos hneg, outAfter, if_neg (not_lt.mpr hneg)]
      exact h.release hneg (not_lt.mp hout)

theorem abstracts_of_reachable (hm : m.Laid)
    (h : (heap m).Reachable s) : Abstracts m s := by
  refine h.invariant ?_ ?_
  · rintro s rfl
    exact abstracts_start hm
  · intro s incr s' hs hcall
    exact hs.call hm hcall

-- ============================================================= the result

/-- What holds of the break at a moment of a run, and of the next call. -/
structure BreakSafe (m : LinkerSymbols) (s : Heap) : Prop where
  /-- the break is in its region -/
  endAddr_le : m.endAddr ≤ s.heapEnd
  le_limit : s.heapEnd ≤ m.limit
  /-- no two blocks that are out share an address -/
  apart : s.out.Pairwise Lib.Block.Apart
  /-- a positive request succeeds exactly when it fits -/
  succeeds : ∀ incr, 0 < incr.toInt →
    ((∃ p, (sbrk m incr s.heapEnd).1 = .ok p)
      ↔ s.heapEnd.toNat + incr.toNat ≤ m.limit.toNat)
  /-- it then returns the old break, and a block apart from all others -/
  granted : ∀ incr p, 0 < incr.toInt →
    (sbrk m incr s.heapEnd).1 = .ok p →
      p = s.heapEnd ∧ ∀ b ∈ s.out, (block p incr).Apart b
  /-- a refusal leaves the break where it was -/
  refused : ∀ incr e, (sbrk m incr s.heapEnd).1 = .error e →
    (sbrk m incr s.heapEnd).2 = s.heapEnd

theorem Abstracts.apart_next (h : Abstracts m s) (incr : BitVec 32) :
    ∀ b ∈ s.out, (block s.heapEnd incr).Apart b := by
  obtain ⟨r, htop, hout⟩ := h
  rw [← hout, block, ← htop]
  exact r.apart_of_grow _

/-- In every sequence of calls that never releases more than is out. -/
theorem break_safe (hm : m.Laid) (h : (heap m).Reachable s) :
    BreakSafe m s := by
  have habs := abstracts_of_reachable hm h
  have hhalf := habs.lt_half hm
  have hcases : ∀ incr : BitVec 32, 0 < incr.toInt →
      (s.heapEnd.toNat + incr.toNat ≤ m.limit.toNat
        ∧ sbrk m incr s.heapEnd = (.ok s.heapEnd, s.heapEnd + incr))
      ∨ (m.limit.toNat < s.heapEnd.toNat + incr.toNat
        ∧ sbrk m incr s.heapEnd = (.error .enomem, s.heapEnd)) := by
    intro incr hpos
    rcases le_or_gt (s.heapEnd.toNat + incr.toNat) m.limit.toNat
      with hfits | hfits
    · exact Or.inl ⟨hfits, sbrk_of_fits hpos hhalf hfits⟩
    · exact Or.inr ⟨hfits, sbrk_of_not_fits hpos hhalf hfits⟩
  refine ⟨habs.bounds.1, habs.bounds.2, ?_, ?_, ?_, ?_⟩
  · obtain ⟨r, -, hout⟩ := habs
    rw [← hout]
    exact r.tiles.pairwise_apart
  · intro incr hpos
    rcases hcases incr hpos with ⟨hfits, hret⟩ | ⟨hfits, hret⟩
    · rw [hret]
      exact iff_of_true ⟨_, rfl⟩ hfits
    · rw [hret]
      exact iff_of_false nofun (not_le.mpr hfits)
  · intro incr p hpos hp
    rcases hcases incr hpos with ⟨-, hret⟩ | ⟨-, hret⟩
    · rw [hret] at hp
      obtain rfl := Except.ok.inj hp
      exact ⟨rfl, habs.apart_next incr⟩
    · rw [hret] at hp
      cases hp
  · intro incr e he
    unfold sbrk at he ⊢
    split at he
    · next hrefused => rw [if_pos hrefused]
    · cases he

/-- The configured chip's RAM, with 64 KiB of data below the heap. -/
def f446reSymbols : LinkerSymbols := ⟨0x20010000, 0x20020000⟩

theorem f446reSymbols_laid : f446reSymbols.Laid := by
  constructor <;> decide

/-- Two requests, a release across both, a request that is too large, and
one more. -/
theorem break_safe_f446re :
    ∃ s, (heap f446reSymbols).run [0x1000, 0x200, -0x300, 0x7FFFFFFF, 0x40]
        (start f446reSymbols) = some s
      ∧ s.out = [⟨0x20010F00, 0x20010F40⟩, ⟨0x20010000, 0x20010F00⟩]
      ∧ BreakSafe f446reSymbols s := by
  have hrun : ((heap f446reSymbols).run
      [0x1000, 0x200, -0x300, 0x7FFFFFFF, 0x40]
      (start f446reSymbols)).map Heap.out
        = some [⟨0x20010F00, 0x20010F40⟩, ⟨0x20010000, 0x20010F00⟩] := by
    decide +kernel
  obtain ⟨s, hs, hout⟩ := Option.map_eq_some_iff.mp hrun
  exact ⟨s, hs, hout,
    break_safe f446reSymbols_laid (Lib.Machine.reachable_of_run rfl hs)⟩

end Heap

end LinoStm32
