import Mathlib.Data.BitVec

/-!
# Bit ranges of a fixed-width word

Setting or clearing the bits `low, low + 1, ..., high` one after the other, as a `for` loop over a
bitmap does. Both are characterised by their effect on a single bit, so that no later proof looks
inside the loop.
-/

namespace Bits

variable {w : Nat} (bits : BitVec w)

def setBit (i : Nat) : BitVec w := bits ||| BitVec.twoPow w i

def clearBit (i : Nat) : BitVec w := bits &&& ~~~BitVec.twoPow w i

def span (low high : Nat) : List Nat := List.range' low (high + 1 - low)

def setRange (low high : Nat) : BitVec w :=
  (span low high).foldl setBit bits

def clearRange (low high : Nat) : BitVec w :=
  (span low high).foldl clearBit bits

@[simp]
theorem mem_span {low high i : Nat} : i ∈ span low high ↔ low ≤ i ∧ i ≤ high := by
  rw [span, List.mem_range'_1]
  omega

theorem getLsbD_setBit (i j : Nat) :
    (setBit bits i).getLsbD j = (bits.getLsbD j || (decide (j = i) && decide (j < w))) := by
  rw [setBit, BitVec.getLsbD_or, BitVec.getLsbD_twoPow]
  by_cases heq : j = i
  · subst heq
    simp
  · simp [heq, Ne.symm heq]

theorem getLsbD_clearBit (i j : Nat) :
    (clearBit bits i).getLsbD j = (bits.getLsbD j && !decide (j = i)) := by
  rw [clearBit, BitVec.getLsbD_and, BitVec.getLsbD_not, BitVec.getLsbD_twoPow]
  by_cases hlt : j < w
  · by_cases heq : j = i
    · subst heq
      simp [hlt]
    · simp [heq, Ne.symm heq, hlt]
  · simp [BitVec.getLsbD_of_ge bits j (by omega)]

theorem getLsbD_foldl_setBit (indices : List Nat) (bits : BitVec w) (j : Nat) :
    (indices.foldl setBit bits).getLsbD j
      = (bits.getLsbD j || (decide (j ∈ indices) && decide (j < w))) := by
  induction indices generalizing bits with
  | nil => simp
  | cons i indices ih =>
      rw [List.foldl_cons, ih, getLsbD_setBit]
      simp only [List.mem_cons, Bool.decide_or, Bool.and_or_distrib_right, Bool.or_assoc]

theorem getLsbD_foldl_clearBit (indices : List Nat) (bits : BitVec w) (j : Nat) :
    (indices.foldl clearBit bits).getLsbD j = (bits.getLsbD j && !decide (j ∈ indices)) := by
  induction indices generalizing bits with
  | nil => simp
  | cons i indices ih =>
      rw [List.foldl_cons, ih, getLsbD_clearBit]
      simp only [List.mem_cons, Bool.decide_or, Bool.not_or, Bool.and_assoc]

theorem getLsbD_setRange (low high : Nat) {j : Nat} (hj : j < w) :
    (setRange bits low high).getLsbD j = true ↔
      bits.getLsbD j = true ∨ (low ≤ j ∧ j ≤ high) := by
  rw [setRange, getLsbD_foldl_setBit]
  simp [hj]

theorem getLsbD_clearRange (low high : Nat) (j : Nat) : (clearRange bits low high).getLsbD j = true ↔
      bits.getLsbD j = true ∧ ¬(low ≤ j ∧ j ≤ high) := by
  rw [clearRange, getLsbD_foldl_clearBit]
  simp only [mem_span, Bool.and_eq_true, Bool.not_eq_true', decide_eq_false_iff_not]

end Bits
