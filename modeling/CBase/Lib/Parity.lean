import Mathlib.Algebra.BigOperators.Fin
import Mathlib.Algebra.Field.ZMod

/-!
# The parity of a bit vector

A rotation keeps the number of ones modulo two, flipping a bit changes it. So two words that differ
in an odd number of bits are different under any two rotations.
-/

namespace Parity

variable {w : ℕ}

/-- The number of ones modulo two. -/
def parity (x : BitVec w) : ZMod 2 := ∑ i : Fin w, if x[i] then 1 else 0

theorem parity_xor (x y : BitVec w) : parity (x ^^^ y) = parity x + parity y := by
  rw [parity, parity, parity, ← Finset.sum_add_distrib]
  refine Finset.sum_congr rfl fun i _ => ?_
  have hbit : (x ^^^ y)[i] = (x[i] ^^ y[i]) := by simp
  rw [hbit]
  cases x[i] <;> cases y[i] <;> decide

theorem parity_twoPow {i : ℕ} (hi : i < w) : parity (BitVec.twoPow w i) = 1 := by
  have hbit (j : Fin w) : (if (BitVec.twoPow w i)[j] then 1 else 0) =
      if j = ⟨i, hi⟩ then (1 : ZMod 2) else 0 := by
    simp [Fin.ext_iff, eq_comm]
  rw [parity, Finset.sum_congr rfl fun j _ => hbit j, Finset.sum_ite_eq' Finset.univ,
    if_pos (Finset.mem_univ _)]

theorem getElem_rotateRight [NeZero w] (x : BitVec w) (r : ℕ) (i : Fin w) :
    (x.rotateRight r)[i] = x[i + Fin.ofNat w r] := by
  have hr : r % w < w := Nat.mod_lt _ (NeZero.pos w)
  have hi := i.isLt
  have hval : (i + Fin.ofNat w r).val =
      if i.val < w - r % w then r % w + i.val else i.val - (w - r % w) := by
    rw [Fin.val_add, Fin.val_ofNat]
    split_ifs with h
    · rw [Nat.mod_eq_of_lt (by omega), Nat.add_comm]
    · rw [Nat.mod_eq_sub_mod (by omega), Nat.mod_eq_of_lt (by omega)]
      omega
  simp only [Fin.getElem_fin, hval, BitVec.getElem_rotateRight]
  split_ifs <;> rfl

theorem parity_rotateRight (x : BitVec w) (r : ℕ) : parity (x.rotateRight r) = parity x := by
  cases w with
  | zero => rfl
  | succ w =>
    simp only [parity, getElem_rotateRight]
    exact Equiv.sum_comp (Equiv.addRight (Fin.ofNat (w + 1) r)) fun i : Fin (w + 1) =>
      if x[i] then (1 : ZMod 2) else 0

/-- Two words that differ in one bit are not rotations of one another. -/
theorem rotateRight_ne {x y : BitVec w} {i : ℕ} (hi : i < w) (h : y = x ^^^ BitVec.twoPow w i)
    (r s : ℕ) : x.rotateRight r ≠ y.rotateRight s := by
  intro heq
  have hpar := congrArg parity heq
  rw [parity_rotateRight, parity_rotateRight, h, parity_xor, parity_twoPow hi, left_eq_add] at hpar
  exact one_ne_zero hpar

/-- Adding the highest bit flips it. -/
theorem getLsbD_add_top (x : BitVec (w + 1)) (i : ℕ) :
    (x + BitVec.twoPow (w + 1) w).getLsbD i = (x.getLsbD i ^^ decide (i = w)) := by
  rcases Nat.lt_or_ge i (w + 1) with hi | hi
  · have htop : 2 ^ w % 2 ^ (w + 1) = 2 ^ w :=
      Nat.mod_eq_of_lt (Nat.pow_lt_pow_right (by decide) (Nat.lt_succ_self w))
    rw [BitVec.getLsbD, BitVec.toNat_add, Nat.testBit_mod_two_pow, decide_eq_true hi, Bool.true_and,
      BitVec.toNat_twoPow, htop, Nat.add_comm]
    rcases Nat.lt_or_eq_of_le (Nat.le_of_lt_succ hi) with hlt | rfl
    · rw [Nat.testBit_two_pow_add_gt hlt, decide_eq_false (Nat.ne_of_lt hlt), Bool.xor_false,
        BitVec.testBit_toNat]
    · rw [Nat.testBit_two_pow_add_eq, decide_eq_true rfl, Bool.xor_true, BitVec.testBit_toNat]
  · rw [BitVec.getLsbD_of_ge _ _ hi, BitVec.getLsbD_of_ge _ _ hi,
      decide_eq_false (Nat.ne_of_gt hi), Bool.xor_false]

end Parity
