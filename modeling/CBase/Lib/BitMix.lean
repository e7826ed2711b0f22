import CBase.Lib.Parity

/-!
# Mixing the bits of a word

A right xorshift and a rotation lose nothing of a word, and a xorshift by `s` keeps its upper `s`
bits as they are.
-/

namespace BitMix

variable {w : ℕ}

/-- Combining a word with its upper part loses nothing. -/
theorem xorShiftRight_injective {s : ℕ} (hs : 0 < s) :
    Function.Injective fun x : BitVec w => x ^^^ x >>> s := by
  intro x y hxy
  have hshift : x >>> s = x ^^^ (y ^^^ y >>> s) := by
    rw [← show x ^^^ x >>> s = y ^^^ y >>> s from hxy, ← BitVec.xor_assoc, BitVec.xor_self,
      BitVec.zero_xor]
  have hdiff : (x ^^^ y) >>> s = x ^^^ y := by
    rw [BitVec.ushiftRight_xor_distrib, hshift, BitVec.xor_assoc, BitVec.xor_assoc,
      BitVec.xor_self, BitVec.xor_zero]
  have hzero : (x ^^^ y).toNat = 0 := by
    have hnat := congrArg BitVec.toNat hdiff
    rw [BitVec.toNat_ushiftRight, Nat.shiftRight_eq_div_pow] at hnat
    rcases Nat.eq_zero_or_pos (x ^^^ y).toNat with h0 | hpos
    · exact h0
    · have := Nat.div_lt_self hpos (Nat.one_lt_two_pow hs.ne')
      omega
  exact BitVec.xor_eq_zero_iff.mp (BitVec.eq_of_toNat_eq hzero)

theorem rotateRight_injective (r : ℕ) : Function.Injective fun x : BitVec w => x.rotateRight r := by
  cases w with
  | zero => exact fun x y _ => Subsingleton.elim x y
  | succ w =>
    intro x y hxy
    refine BitVec.eq_of_getElem_eq fun i hi => ?_
    have hbit := congrArg (fun z : BitVec (w + 1) => z[(⟨i, hi⟩ : Fin (w + 1)) - Fin.ofNat (w + 1) r]) hxy
    simp only [Parity.getElem_rotateRight, sub_add_cancel] at hbit
    exact hbit

theorem xorShiftRight_top (x : BitVec w) {s t : ℕ} (h : w ≤ s + t) :
    (x ^^^ x >>> s) >>> t = x >>> t := by
  refine BitVec.eq_of_getLsbD_eq fun i _ => ?_
  rw [BitVec.ushiftRight_xor_distrib, BitVec.getLsbD_xor, BitVec.getLsbD_ushiftRight,
    BitVec.getLsbD_ushiftRight, BitVec.getLsbD_ushiftRight,
    BitVec.getLsbD_of_ge x (s + (t + i)) (by omega), Bool.xor_false]

end BitMix
