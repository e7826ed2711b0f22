import CBase.Fixed.Arith

/-!
# Q16.16 arithmetic is narrowed Q32.32 arithmetic

* `fx16_narrows_fx32`: widen the operands, compute in Q32.32 and narrow the result: this is the
  Q16.16 operation, for every operand and where a result saturates, too.
-/

namespace CBase.Fixed

open MachineInt SquareRoot

/-- Saturation in Q32.32 does not show in the narrowed result. -/
theorem clamp16_clamp32 (r : Int) : clamp16 ((clamp32 r).tdiv (2 ^ 16)) = clamp16 (r.tdiv (2 ^ 16)) :=
  clamp_tdiv_clamp (by decide) (by decide) (by decide) (by decide) r

/-- A Q32.32 result with `2 ^ 16` as a factor narrows to the other factor. -/
theorem narrow_exact {r : Int64} {x : Int} (h : r.toInt = clamp32 (x * 2 ^ 16)) :
    (fx16FromFx32 r).toInt = clamp16 x := by
  rw [toInt_fx16FromFx32, h, clamp16_clamp32, Int.mul_tdiv_cancel _ (by decide)]

theorem clamp16_toInt (a : Int32) : clamp16 a.toInt = a.toInt := by
  obtain ⟨hlo, hhi⟩ := toInt_range a
  rw [clamp16, clamp, if_neg (by omega), if_neg (by omega)]

theorem narrow_widen (a : Int32) : fx16FromFx32 (fx32FromFx16 a) = a := by
  rw [← Int32.toInt_inj, toInt_fx16FromFx32, toInt_fx32FromFx16, Int.mul_tdiv_cancel _ (by decide),
    clamp16_toInt]

theorem narrow_add (a b : Int32) :
    fx16FromFx32 (fx32Add (fx32FromFx16 a) (fx32FromFx16 b)) = fx16Add a b := by
  rw [← Int32.toInt_inj, toInt_fx16Add]
  refine narrow_exact ?_
  rw [toInt_fx32Add, toInt_fx32FromFx16, toInt_fx32FromFx16, Int.add_mul]

theorem narrow_sub (a b : Int32) :
    fx16FromFx32 (fx32Sub (fx32FromFx16 a) (fx32FromFx16 b)) = fx16Sub a b := by
  rw [← Int32.toInt_inj, toInt_fx16Sub]
  refine narrow_exact ?_
  rw [toInt_fx32Sub, toInt_fx32FromFx16, toInt_fx32FromFx16, Int.sub_mul]

theorem narrow_mul (a b : Int32) :
    fx16FromFx32 (fx32Mul (fx32FromFx16 a) (fx32FromFx16 b)) = fx16Mul a b := by
  have hprod : a.toInt * 2 ^ 16 * (b.toInt * 2 ^ 16) = a.toInt * b.toInt * 2 ^ 32 := by ring
  rw [← Int32.toInt_inj, toInt_fx16Mul, toInt_fx16FromFx32, toInt_fx32Mul, clamp16_clamp32,
    toInt_fx32FromFx16, toInt_fx32FromFx16, hprod, Int.mul_tdiv_cancel _ (by decide)]

theorem widen_eq_zero {a : Int32} : fx32FromFx16 a = 0 ↔ a = 0 := by
  rw [← toInt_eq_zero', toInt_fx32FromFx16, ← toInt_eq_zero]
  omega

theorem narrow_div (a b : Int32) :
    fx16FromFx32 (fx32Div (fx32FromFx16 a) (fx32FromFx16 b)) = fx16Div a b := by
  by_cases hb : b = 0
  · rw [widen_eq_zero.mpr hb, hb, ← Int32.toInt_inj, toInt_fx16Div_zero, toInt_fx16FromFx32,
      toInt_fx32Div_zero, toInt_fx32FromFx16]
    split_ifs <;> first | rfl | omega
  · rw [← Int32.toInt_inj, toInt_fx16Div hb, toInt_fx16FromFx32,
      toInt_fx32Div (mt widen_eq_zero.mp hb), clamp16_clamp32, toInt_fx32FromFx16,
      toInt_fx32FromFx16]
    have hnested : (a.toInt * 2 ^ 16 * 2 ^ 32).tdiv (b.toInt * 2 ^ 16) =
        (a.toInt * 2 ^ 16 * 2 ^ 16).tdiv b.toInt := by
      have hfactor : a.toInt * 2 ^ 16 * 2 ^ 32 = a.toInt * 2 ^ 16 * 2 ^ 16 * 2 ^ 16 := by ring
      rw [hfactor, Int.mul_tdiv_mul_of_pos_left _ _ (by decide)]
    rw [hnested, tdiv_tdiv _ _ (by decide), Int.mul_tdiv_mul_of_pos_left _ _ (by decide)]

theorem narrow_abs (a : Int32) : fx16FromFx32 (fx32Abs (fx32FromFx16 a)) = fx16Abs a := by
  rw [← Int32.toInt_inj, toInt_fx16Abs]
  refine narrow_exact ?_
  rw [toInt_fx32Abs, toInt_fx32FromFx16, Int.natAbs_mul]
  rfl

theorem narrow_sqrt (a : Int32) : fx16FromFx32 (fx32Sqrt (fx32FromFx16 a)) = fx16Sqrt a := by
  by_cases ha : 0 < a.toInt
  · have hwide : 0 < (fx32FromFx16 a).toInt := by
      rw [toInt_fx32FromFx16]
      omega
    have hnat : (fx32FromFx16 a).toInt.toNat = a.toInt.toNat * 2 ^ 16 := by
      rw [toInt_fx32FromFx16]
      omega
    have hroot : Nat.sqrt (a.toInt.toNat * 2 ^ 16 * 2 ^ 32) / 2 ^ 16 =
        Nat.sqrt (a.toInt.toNat * 2 ^ 16) := by
      rw [← sqrt_div_square _ (by decide), ← Nat.pow_add, Nat.mul_div_cancel _ (by decide)]
    have hsmall := sqrt_lt (n := a.toInt.toNat * 2 ^ 16) (k := 24) (by
      have hhi := a.toInt_lt
      omega)
    have hcast : ((Nat.sqrt (a.toInt.toNat * 2 ^ 16 * 2 ^ 32) : Nat) : Int).tdiv (2 ^ 16) =
        (Nat.sqrt (a.toInt.toNat * 2 ^ 16) : Nat) := by
      rw [← hroot, Int.ofNat_tdiv]
      rfl
    rw [← Int32.toInt_inj, toInt_fx16FromFx32, toInt_fx32Sqrt hwide, toInt_fx16Sqrt ha, hnat, hcast,
      clamp16, clamp, if_neg (by omega), if_neg (by omega)]
  · have hnarrow : a ≤ 0 := by
      rw [Int32.le_iff_toInt_le, Int32.toInt_zero]
      omega
    have hwide : fx32FromFx16 a ≤ 0 := by
      rw [Int64.le_iff_toInt_le, Int64.toInt_zero, toInt_fx32FromFx16]
      omega
    rw [fx32Sqrt, if_pos hwide, fx16Sqrt, if_pos hnarrow]
    rfl

/-- Q16.16 arithmetic is Q32.32 arithmetic on the widened operands, narrowed. -/
theorem fx16_narrows_fx32 (a b : Int32) :
    fx16FromFx32 (fx32FromFx16 a) = a ∧
    fx16FromFx32 (fx32Add (fx32FromFx16 a) (fx32FromFx16 b)) = fx16Add a b ∧
    fx16FromFx32 (fx32Sub (fx32FromFx16 a) (fx32FromFx16 b)) = fx16Sub a b ∧
    fx16FromFx32 (fx32Mul (fx32FromFx16 a) (fx32FromFx16 b)) = fx16Mul a b ∧
    fx16FromFx32 (fx32Div (fx32FromFx16 a) (fx32FromFx16 b)) = fx16Div a b ∧
    fx16FromFx32 (fx32Abs (fx32FromFx16 a)) = fx16Abs a ∧
    fx16FromFx32 (fx32Sqrt (fx32FromFx16 a)) = fx16Sqrt a :=
  ⟨narrow_widen a, narrow_add a b, narrow_sub a b, narrow_mul a b, narrow_div a b, narrow_abs a,
    narrow_sqrt a⟩

end CBase.Fixed
