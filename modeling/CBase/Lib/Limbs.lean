import Mathlib.Algebra.Group.Nat.Defs
import Mathlib.Data.Nat.Basic

/-!
# Numbers of two limbs

A pair of 64-bit limbs stands for the 128-bit number `val`. The operations work on the limbs, with a
carry or a borrow between them where there is one, and each is the operation on 128 bits: also where
the result wraps.
-/

/-- Two 64-bit limbs of a 128-bit number. -/
structure Limbs where
  hi : UInt64
  lo : UInt64
deriving DecidableEq, Repr

namespace Limbs

/-- The number that the limbs stand for. -/
def val (a : Limbs) : BitVec 128 := a.hi.toBitVec ++ a.lo.toBitVec

/-- `a > b`. -/
def Above (a b : Limbs) : Prop := b.hi < a.hi ∨ a.hi = b.hi ∧ b.lo < a.lo

/-- `a >= b`. -/
def AtLeast (a b : Limbs) : Prop := b.hi < a.hi ∨ a.hi = b.hi ∧ b.lo ≤ a.lo

instance (a b : Limbs) : Decidable (Above a b) := inferInstanceAs (Decidable (_ ∨ _ ∧ _))

instance (a b : Limbs) : Decidable (AtLeast a b) := inferInstanceAs (Decidable (_ ∨ _ ∧ _))

def add (a b : Limbs) : Limbs :=
  let lo := a.lo + b.lo
  let carry := if lo < a.lo then 1 else 0
  ⟨a.hi + b.hi + carry, lo⟩

def sub (a b : Limbs) : Limbs :=
  let lo := a.lo - b.lo
  let borrow := if a.lo < b.lo then 1 else 0
  ⟨a.hi - b.hi - borrow, lo⟩

/-- `a >> 1`. -/
def half (a : Limbs) : Limbs := ⟨a.hi >>> 1, (a.lo >>> 1) ||| (a.hi <<< 63)⟩

/-- `a >> 2`. -/
def quarter (a : Limbs) : Limbs := ⟨a.hi >>> 2, (a.lo >>> 2) ||| (a.hi <<< 62)⟩

variable (a b : Limbs)

theorem toNat_val : a.val.toNat = a.hi.toNat * 2 ^ 64 + a.lo.toNat := by
  rw [val, BitVec.toNat_append, UInt64.toNat_toBitVec, UInt64.toNat_toBitVec, Nat.shiftLeft_eq,
    Nat.mul_comm, ← Nat.two_pow_add_eq_or_of_lt a.lo.toNat_lt]

theorem val_ne_zero_iff : a.hi ≠ 0 ∨ a.lo ≠ 0 ↔ a.val ≠ 0 := by
  have hval := a.toNat_val
  rw [ne_eq, ne_eq, ne_eq, ← BitVec.toNat_inj, ← UInt64.toNat_inj, ← UInt64.toNat_inj,
    UInt64.toNat_zero, BitVec.ofNat_eq_ofNat, BitVec.toNat_ofNat, Nat.zero_mod]
  omega

theorem above_iff : Above a b ↔ b.val < a.val := by
  have hlo := a.lo.toNat_lt
  have hlo' := b.lo.toNat_lt
  rw [BitVec.lt_def, toNat_val, toNat_val, Above, UInt64.lt_iff_toNat_lt, UInt64.lt_iff_toNat_lt,
    ← UInt64.toNat_inj]
  omega

theorem atLeast_iff : AtLeast a b ↔ b.val ≤ a.val := by
  have hlo := a.lo.toNat_lt
  have hlo' := b.lo.toNat_lt
  rw [BitVec.le_def, toNat_val, toNat_val, AtLeast, UInt64.lt_iff_toNat_lt, UInt64.le_iff_toNat_le,
    ← UInt64.toNat_inj]
  omega

/-- The carry out of a sum of two limbs. -/
theorem toNat_carry (x y : UInt64) :
    (x + y).toNat + (if x + y < x then 1 else 0 : UInt64).toNat * 2 ^ 64 = x.toNat + y.toNat := by
  have hx := x.toNat_lt
  have hy := y.toNat_lt
  have hone : (1 : UInt64).toNat = 1 := rfl
  rw [apply_ite UInt64.toNat, hone, UInt64.toNat_zero]
  simp only [UInt64.lt_iff_toNat_lt, UInt64.toNat_add]
  split_ifs with hlt <;> omega

/-- The borrow into a difference of two limbs. -/
theorem toNat_borrow (x y : UInt64) :
    (x - y).toNat + y.toNat = x.toNat + (if x < y then 1 else 0 : UInt64).toNat * 2 ^ 64 := by
  have hx := x.toNat_lt
  have hy := y.toNat_lt
  have hone : (1 : UInt64).toNat = 1 := rfl
  rw [apply_ite UInt64.toNat, hone, UInt64.toNat_zero]
  simp only [UInt64.lt_iff_toNat_lt, UInt64.toNat_sub]
  split_ifs with hlt <;> omega

theorem val_add : (a.add b).val = a.val + b.val := by
  have hcarry := toNat_carry a.lo b.lo
  apply BitVec.eq_of_toNat_eq
  rw [BitVec.toNat_add, toNat_val, toNat_val, toNat_val, add]
  simp only [UInt64.toNat_add] at hcarry ⊢
  omega

theorem val_sub : (a.sub b).val = a.val - b.val := by
  have hborrow := toNat_borrow a.lo b.lo
  have hhi := b.hi.toNat_lt
  have hlo := b.lo.toNat_lt
  apply BitVec.eq_of_toNat_eq
  rw [BitVec.toNat_sub, toNat_val, toNat_val, toNat_val, sub]
  have hle : (if a.lo < b.lo then 1 else 0 : UInt64).toNat ≤ 1 := by
    split_ifs
    · exact le_rfl
    · exact Nat.zero_le _
  simp only [UInt64.toNat_sub] at hborrow ⊢
  omega

/-- The low limb of a right shift gets the bits that the high limb loses. -/
theorem toNat_shifted_low (hi lo : UInt64) {k m : Nat} (hkm : k + m = 64) {s t : UInt64}
    (hs : s.toNat % 64 = k) (ht : t.toNat % 64 = m) :
    ((lo >>> s) ||| (hi <<< t)).toNat = hi.toNat % 2 ^ k * 2 ^ m + lo.toNat / 2 ^ k := by
  have hsplit : (2 : Nat) ^ 64 = 2 ^ k * 2 ^ m := by rw [← Nat.pow_add, hkm]
  have hlow : lo.toNat / 2 ^ k < 2 ^ m := by
    rw [Nat.div_lt_iff_lt_mul (Nat.two_pow_pos k), Nat.mul_comm, ← hsplit]
    exact lo.toNat_lt
  have hhigh : hi.toNat * 2 ^ m % 2 ^ 64 = 2 ^ m * (hi.toNat % 2 ^ k) := by
    rw [hsplit, Nat.mul_mod_mul_right, Nat.mul_comm]
  rw [UInt64.toNat_or, UInt64.toNat_shiftRight, UInt64.toNat_shiftLeft, hs, ht,
    Nat.shiftRight_eq_div_pow, Nat.shiftLeft_eq, hhigh, Nat.or_comm, ← Nat.two_pow_add_eq_or_of_lt hlow,
    Nat.mul_comm]

theorem val_half : a.half.val = a.val >>> 1 := by
  have hlow := toNat_shifted_low a.hi a.lo (k := 1) (m := 63) rfl (s := 1) (t := 63) rfl rfl
  have hone : (1 : UInt64).toNat % 64 = 1 := rfl
  apply BitVec.eq_of_toNat_eq
  rw [BitVec.toNat_ushiftRight, toNat_val, toNat_val, half, hlow, UInt64.toNat_shiftRight, hone,
    Nat.shiftRight_eq_div_pow, Nat.shiftRight_eq_div_pow]
  omega

theorem val_quarter : a.quarter.val = a.val >>> 2 := by
  have hlow := toNat_shifted_low a.hi a.lo (k := 2) (m := 62) rfl (s := 2) (t := 62) rfl rfl
  have htwo : (2 : UInt64).toNat % 64 = 2 := rfl
  apply BitVec.eq_of_toNat_eq
  rw [BitVec.toNat_ushiftRight, toNat_val, toNat_val, quarter, hlow, UInt64.toNat_shiftRight, htwo,
    Nat.shiftRight_eq_div_pow, Nat.shiftRight_eq_div_pow]
  omega

/-- A shift of a number that is not zero makes it smaller. -/
theorem quarter_lt {a : Limbs} (h : a.val ≠ 0) : a.quarter.val.toNat < a.val.toNat := by
  rw [val_quarter, BitVec.toNat_ushiftRight, Nat.shiftRight_eq_div_pow]
  exact Nat.div_lt_self (Nat.pos_of_ne_zero fun h0 => h (BitVec.eq_of_toNat_eq h0)) (by decide)

theorem Above.quarter_lt {a b : Limbs} (h : Above a b) : a.quarter.val.toNat < a.val.toNat := by
  rw [above_iff] at h
  refine Limbs.quarter_lt fun h0 => ?_
  rw [h0] at h
  exact BitVec.not_lt_zero h

/-- The low limb is the number in 64 bits. -/
theorem setWidth_val : a.val.setWidth 64 = a.lo.toBitVec := by
  rw [val, BitVec.setWidth_append_eq_right]

end Limbs
