import CBase.Fixed.Arith

/-!
# The two builds of `cb_fx32_mul`

One build divides the 128-bit product and truncates towards zero, the other shifts it and rounds
down.

* `fx32MulMsvc_eq_iff`: the builds agree on a product that is not negative, a multiple of `2 ^ 32`, or
  so small that both saturate, and on no other.
* `fx32MulMsvc_neg_one`: they differ on `-1` and `1`.
-/

namespace CBase.Fixed

open MachineInt

/-- `_mul128` returns the exact signed product of its arguments. -/
def Mul128Exact (mul128 : Int64 → Int64 → Int64 × Int64) : Prop :=
  ∀ a b, (mul128 a b).1.toInt * 2 ^ 64 + (mul128 a b).2.toUInt64.toNat = a.toInt * b.toInt

theorem toInt_shiftRight {x n : Int64} {k : Nat} (h : (n.toBitVec.smod 64).toNat = k) :
    (x >>> n).toInt = x.toInt / 2 ^ k := by
  rw [← Int64.toInt_toBitVec, Int64.toBitVec_shiftRight, BitVec.toInt_sshiftRight', h,
    Int.shiftRight_eq_div_pow, Int64.toInt_toBitVec]
  rfl

theorem toInt_cond (x : UInt64) :
    x.toInt64.toInt = if 2 * x.toNat < 2 ^ 64 then (x.toNat : Int) else x.toNat - 2 ^ 64 :=
  BitVec.toInt_eq_toNat_cond x.toBitVec

/-- The word between the halves of a product. -/
theorem toNat_middle (hi : Int64) (ulo : UInt64) :
    ((ulo >>> 32) ||| (hi.toUInt64 <<< 32)).toNat =
      hi.toUInt64.toNat % 2 ^ 32 * 2 ^ 32 + ulo.toNat / 2 ^ 32 := by
  have hlow : ulo.toNat / 2 ^ 32 < 2 ^ 32 := by
    have hlt := ulo.toNat_lt
    omega
  have hshift : (32 : UInt64).toNat % 64 = 32 := rfl
  have hhigh : hi.toUInt64.toNat * 2 ^ 32 % 2 ^ 64 = 2 ^ 32 * (hi.toUInt64.toNat % 2 ^ 32) := by
    omega
  rw [UInt64.toNat_or, UInt64.toNat_shiftRight, UInt64.toNat_shiftLeft, hshift,
    Nat.shiftRight_eq_div_pow, Nat.shiftLeft_eq, hhigh, Nat.or_comm,
    ← Nat.two_pow_add_eq_or_of_lt hlow, Nat.mul_comm]

/-- The middle word of a product is the shifted product up to a multiple of its range, and the shifted
high half shows which. -/
theorem shifted_halves {hi : Int64} {ulo : UInt64} {p : Int}
    (hprod : hi.toInt * 2 ^ 64 + ulo.toNat = p) :
    ∃ t : Int, p / 2 ^ 32 =
        ((ulo >>> 32) ||| (hi.toUInt64 <<< 32)).toInt64.toInt + t * 2 ^ 64 ∧
      hi.toInt / 2 ^ 32 = t + ((ulo >>> 32) ||| (hi.toUInt64 <<< 32)).toInt64.toInt / 2 ^ 63 := by
  have hword := toInt_cond ((ulo >>> 32) ||| (hi.toUInt64 <<< 32))
  rw [toNat_middle] at hword
  have hhi : hi.toInt = _ := toInt_cond hi.toUInt64
  have hulo := ulo.toNat_lt
  have hrange := hi.toUInt64.toNat_lt
  refine ⟨hi.toInt / 2 ^ 32 - ((ulo >>> 32) ||| (hi.toUInt64 <<< 32)).toInt64.toInt / 2 ^ 63, ?_, ?_⟩
  · split_ifs at hword hhi <;> omega
  · omega

/-- The other build computes the product rounded down, saturated. -/
theorem toInt_fx32MulMsvc {mul128 : Int64 → Int64 → Int64 × Int64} (hexact : Mul128Exact mul128)
    (a b : Int64) : (fx32MulMsvc mul128 a b).toInt = clamp32 (a.toInt * b.toInt / 2 ^ 32) := by
  have hprod := hexact a b
  rcases hmul : mul128 a b with ⟨hi, lo⟩
  rw [hmul] at hprod
  obtain ⟨t, hquot, hhigh⟩ := shifted_halves hprod
  simp only at hquot hhigh
  simp only [fx32MulMsvc, hmul]
  generalize ((lo.toUInt64 >>> 32) ||| (hi.toUInt64 <<< 32)).toInt64 = shiftedLo at hquot hhigh ⊢
  have hlo := shiftedLo.le_toInt
  have hhi := shiftedLo.toInt_lt
  have hsHi : (hi >>> 32).toInt = hi.toInt / 2 ^ 32 := toInt_shiftRight rfl
  have hsLo : (shiftedLo >>> 63).toInt = shiftedLo.toInt / 2 ^ 63 := toInt_shiftRight rfl
  have heq : hi >>> 32 = shiftedLo >>> 63 ↔ t = 0 := by
    rw [← Int64.toInt_inj, hsHi, hsLo]
    omega
  have hneg : hi >>> 32 < 0 ↔ hi.toInt / 2 ^ 32 < 0 := by
    rw [Int64.lt_iff_toInt_lt, hsHi, Int64.toInt_zero]
  have hmin : fx32Min.toInt = -2 ^ 63 := rfl
  have hmax : fx32Max.toInt = 2 ^ 63 - 1 := rfl
  simp only [ne_eq, heq, hneg, clamp32, clamp]
  split_ifs <;> omega

/-- The builds agree on these operands and on no others. -/
theorem fx32MulMsvc_eq_iff {mul128 : Int64 → Int64 → Int64 × Int64} (hexact : Mul128Exact mul128)
    (a b : Int64) : fx32MulMsvc mul128 a b = fx32Mul a b ↔
      0 ≤ a.toInt * b.toInt ∨ 2 ^ 32 ∣ a.toInt * b.toInt ∨ a.toInt * b.toInt < -2 ^ 95 := by
  rw [← Int64.toInt_inj, toInt_fx32MulMsvc hexact, toInt_fx32Mul]
  generalize a.toInt * b.toInt = p
  have hsign : (2 ^ 32 : Int).sign = 1 := rfl
  rw [Int.tdiv_eq_ediv, hsign, clamp32, clamp32, clamp, clamp]
  constructor
  · intro h
    split_ifs at h <;> omega
  · intro h
    split_ifs <;> omega

/-- The product itself, split into its halves. -/
def exactMul128 (a b : Int64) : Int64 × Int64 :=
  (.ofInt (a.toInt * b.toInt / 2 ^ 64), .ofInt (a.toInt * b.toInt))

theorem exactMul128_exact : Mul128Exact exactMul128 := by
  intro a b
  have ha := a.le_toInt
  have ha' := a.toInt_lt
  have hb := b.le_toInt
  have hb' := b.toInt_lt
  have hlo : -2 ^ 126 ≤ a.toInt * b.toInt := by nlinarith
  have hhi : a.toInt * b.toInt ≤ 2 ^ 126 := by nlinarith
  simp only [exactMul128]
  generalize a.toInt * b.toInt = p at hlo hhi ⊢
  have hhigh : (Int64.ofInt (p / 2 ^ 64)).toInt = p / 2 ^ 64 := by
    rw [Int64.toInt_ofInt]
    exact bmod_of_range (by simp [Int64.size]; omega) (by simp [Int64.size]; omega)
  have hlow : ((Int64.ofInt p).toUInt64.toNat : Int) = p % 2 ^ 64 := by
    have hword : (Int64.ofInt p).toUInt64.toNat = (p % 2 ^ 64).toNat := rfl
    rw [hword]
    omega
  rw [hhigh, hlow]
  omega

/-- The shift rounds `-1` times `1` down to `-1`, the division truncates it to zero. -/
theorem fx32MulMsvc_neg_one :
    Mul128Exact exactMul128 ∧ fx32MulMsvc exactMul128 (-1) 1 ≠ fx32Mul (-1) 1 :=
  ⟨exactMul128_exact, by decide⟩

/-- Both builds multiply one half by itself to one quarter. -/
theorem fx32MulMsvc_eq_half :
    fx32MulMsvc exactMul128 2147483648 2147483648 = fx32Mul 2147483648 2147483648 :=
  (fx32MulMsvc_eq_iff exactMul128_exact _ _).mpr (.inl (by decide))

end CBase.Fixed
