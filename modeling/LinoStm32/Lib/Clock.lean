/-
Free-running counters of fixed width, read through modular subtraction.

Hardware shows an unbounded count `t` only as its residue modulo `2^w`.
Software that wants an elapsed count subtracts two readings modulo
`2^w`. What it gets back:

- `elapsed`: forward in time, the true difference modulo `2^w`;
- `elapsed_of_lt`: exactly the true difference while that is below
  `2^w`;
- `elapsed_backward`: when the reading taken FIRST is the minuend, the
  complement, so that a small step backward reads as an almost full
  turn;
- `signed_delta`: read as a signed number, the true signed change while
  that is inside the half range.
-/
import Mathlib.Tactic.Linarith
import Mathlib.Tactic.Ring

namespace LinoStm32.Lib

-- ==================================================== unsigned readings

/-- Two readings in order subtract to the true difference modulo the
counter's range. -/
theorem elapsed (w : Nat) {a b : Nat} (hab : a ≤ b) :
    (BitVec.ofNat w b - BitVec.ofNat w a).toNat = (b - a) % 2 ^ w := by
  have hsum : BitVec.ofNat w b
      = BitVec.ofNat w (b - a) + BitVec.ofNat w a := by
    rw [← BitVec.ofNat_add, Nat.sub_add_cancel hab]
  rw [hsum, BitVec.add_sub_cancel, BitVec.toNat_ofNat]

/-- Below a full turn the modular difference is the true one. -/
theorem elapsed_of_lt (w : Nat) {a b : Nat} (hab : a ≤ b)
    (hlt : b - a < 2 ^ w) :
    (BitVec.ofNat w b - BitVec.ofNat w a).toNat = b - a := by
  rw [elapsed w hab, Nat.mod_eq_of_lt hlt]

/-- Subtracting the later reading from the earlier one reads the
complement of the true difference. -/
theorem elapsed_backward (w : Nat) {a b : Nat} (hab : a ≤ b) :
    (BitVec.ofNat w a - BitVec.ofNat w b).toNat
      = (2 ^ w - (b - a) % 2 ^ w) % 2 ^ w := by
  have hneg : BitVec.ofNat w a - BitVec.ofNat w b
      = -(BitVec.ofNat w b - BitVec.ofNat w a) := by
    rw [BitVec.neg_sub, BitVec.add_comm, ← BitVec.sub_eq_add_neg]
  rw [hneg, BitVec.toNat_neg, elapsed w hab]

-- ====================================================== signed readings

/-- Two readings subtract, as a signed number, to the true signed change
while that change is inside the counter's half range. -/
theorem signed_delta (w : Nat) {a b : Int}
    (hlo : -2 ^ w ≤ 2 * (b - a)) (hhi : 2 * (b - a) < 2 ^ w) :
    (BitVec.ofInt w b - BitVec.ofInt w a).toInt = b - a := by
  have hsum : BitVec.ofInt w b
      = BitVec.ofInt w (b - a) + BitVec.ofInt w a := by
    rw [← BitVec.ofInt_add, Int.sub_add_cancel]
  rw [hsum, BitVec.add_sub_cancel, BitVec.toInt_ofInt]
  refine Int.bmod_eq_of_le_mul_two ?_ ?_
  · push_cast
    linarith
  · push_cast
    linarith

end LinoStm32.Lib
