/-
A region handed out from its bottom up: one boundary, the blocks below it
that are still out, and a limit it never passes.

Growing moves the boundary up and hands out what it passed; releasing moves
it down and takes back what it passes, from whichever blocks that was. The
blocks, latest first, always tile the part below the boundary (`Tiles`), so
no address is in two of them and what is out adds up to the distance moved.

`Region` carries the tiling and the limit as fields: a region whose blocks
overlap cannot be built.
-/
import Mathlib

namespace LinoStm32.Lib

/-- A block of addresses, its end excluded. -/
@[ext] structure Block (α : Type*) where
  lo : α
  hi : α
  deriving DecidableEq

/-- The addresses of a block. -/
def Block.addresses {α : Type*} [Preorder α] (b : Block α) : Set α :=
  Set.Ico b.lo b.hi

/-- Two blocks have no address in common. -/
def Block.Apart {α : Type*} [Preorder α] (b b' : Block α) : Prop :=
  Disjoint b.addresses b'.addresses

variable {α : Type*} [LinearOrder α]

/-- What is left of some blocks when everything from `t` on is taken
back. -/
def cut (t : α) (bs : List (Block α)) : List (Block α) :=
  (bs.filter fun b => decide (b.lo < t)).map fun b => ⟨b.lo, min b.hi t⟩

/-- The blocks tile what lies between `base` and `top`, the topmost
first. -/
inductive Tiles (base : α) : α → List (Block α) → Prop
  | nil : Tiles base base []
  | cons {b : Block α} {bs : List (Block α)} :
      Tiles base b.lo bs → b.lo < b.hi → Tiles base b.hi (b :: bs)

namespace Tiles

variable {base top t : α} {bs : List (Block α)}

theorem base_le (h : Tiles base top bs) : base ≤ top := by
  induction h with
  | nil => exact le_rfl
  | cons _ hlt ih => exact ih.trans hlt.le

/-- Every block is inside. -/
theorem mem_bounds (h : Tiles base top bs) :
    ∀ b ∈ bs, base ≤ b.lo ∧ b.lo < b.hi ∧ b.hi ≤ top := by
  induction h with
  | nil => exact fun b hb => absurd hb List.not_mem_nil
  | cons hrest hlt ih =>
      intro b hb
      rcases List.mem_cons.mp hb with rfl | hb
      · exact ⟨hrest.base_le, hlt, le_rfl⟩
      · obtain ⟨hbase, hne, hhi⟩ := ih b hb
        exact ⟨hbase, hne, hhi.trans hlt.le⟩

/-- A block above the tiled part is apart from all that tile it. -/
theorem apart_of_le (h : Tiles base top bs) {b : Block α}
    (hb : top ≤ b.lo) : ∀ b' ∈ bs, b.Apart b' := by
  intro b' hb'
  obtain ⟨-, -, hhi⟩ := h.mem_bounds b' hb'
  refine Set.disjoint_left.mpr fun x hx hx' => ?_
  exact absurd (hx'.2.trans_le (hhi.trans hb)) (not_lt.mpr hx.1)

/-- No two blocks share an address. -/
theorem pairwise_apart (h : Tiles base top bs) :
    bs.Pairwise Block.Apart := by
  induction h with
  | nil => exact .nil
  | cons hrest _ ih =>
      exact List.pairwise_cons.mpr ⟨hrest.apart_of_le le_rfl, ih⟩

/-- Taking back nothing changes nothing. -/
theorem cut_eq (h : Tiles base top bs) (ht : top ≤ t) : cut t bs = bs := by
  have hbelow : ∀ b ∈ bs, b.lo < t ∧ b.hi ≤ t := by
    intro b hb
    obtain ⟨-, hlt, hhi⟩ := h.mem_bounds b hb
    exact ⟨hlt.trans_le (hhi.trans ht), hhi.trans ht⟩
  have hkeep : bs.filter (fun b => decide (b.lo < t)) = bs :=
    List.filter_eq_self.mpr fun b hb => decide_eq_true (hbelow b hb).1
  calc cut t bs
      = bs.map fun b => ⟨b.lo, min b.hi t⟩ := by rw [cut, hkeep]
    _ = bs.map id := List.map_congr_left fun b hb =>
        Block.ext rfl (min_eq_left (hbelow b hb).2)
    _ = bs := List.map_id bs

/-- What is left after taking back from `t` on tiles what is below `t`. -/
theorem cut (h : Tiles base top bs) (hbase : base ≤ t) (ht : t ≤ top) :
    Tiles base t (cut t bs) := by
  induction h with
  | nil =>
      obtain rfl := le_antisymm hbase ht
      exact .nil
  | @cons b bs hrest hlt ih =>
      rcases lt_or_ge b.lo t with hlo | hlo
      · -- the topmost block is cut short, the others are whole
        have hsplit : Lib.cut t (b :: bs) = ⟨b.lo, t⟩ :: bs := by
          rw [Lib.cut, List.filter_cons_of_pos (by simpa using hlo),
            List.map_cons, min_eq_right ht]
          exact congrArg _ (hrest.cut_eq hlo.le)
        rw [hsplit]
        exact .cons (b := ⟨b.lo, t⟩) hrest hlo
      · -- the topmost block goes
        have hsplit : Lib.cut t (b :: bs) = Lib.cut t bs := by
          rw [Lib.cut, List.filter_cons_of_neg (by simp [hlo])]
          rfl
        rw [hsplit]
        exact ih hlo

/-- What is out adds up to the distance between the ends. -/
theorem size {base top : ℕ} {bs : List (Block ℕ)} (h : Tiles base top bs) :
    (bs.map fun b => b.hi - b.lo).sum = top - base := by
  induction h with
  | nil => simp
  | @cons b bs hrest hlt ih =>
      have hle := hrest.base_le
      rw [List.map_cons, List.sum_cons, ih]
      omega

end Tiles

-- ============================================================ the region

/-- A region above `base` and below `limit`: where its boundary is, and
the blocks that are out. -/
structure Region (base limit : α) where
  top : α
  blocks : List (Block α)
  tiles : Tiles base top blocks
  top_le : top ≤ limit

namespace Region

variable {base limit : α}

/-- Nothing handed out yet. -/
def empty (h : base ≤ limit) : Region base limit :=
  ⟨base, [], .nil, h⟩

/-- Hand out everything up to `t`. -/
def grow (r : Region base limit) {t : α} (htop : r.top < t)
    (hlimit : t ≤ limit) : Region base limit :=
  ⟨t, ⟨r.top, t⟩ :: r.blocks, .cons (b := ⟨r.top, t⟩) r.tiles htop, hlimit⟩

/-- Take back everything from `t` on. -/
def release (r : Region base limit) {t : α} (hbase : base ≤ t)
    (htop : t ≤ r.top) : Region base limit :=
  ⟨t, cut t r.blocks, r.tiles.cut hbase htop, htop.trans r.top_le⟩

/-- What is handed out next is apart from all that is out. -/
theorem apart_of_grow (r : Region base limit) (t : α) :
    ∀ b ∈ r.blocks, (⟨r.top, t⟩ : Block α).Apart b :=
  r.tiles.apart_of_le le_rfl

end Region

end LinoStm32.Lib
