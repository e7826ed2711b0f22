import Mathlib.Algebra.Group.Int.Defs
import Mathlib.Algebra.Group.Nat.Defs
import Mathlib.Data.Int.Basic

/-!
# Fixed-width integers that do not wrap

When the exact result of an operation or of a conversion lies in the range of its type, the type has
that result. `clamp` is the result that saturates instead.
-/

namespace MachineInt

theorem bmod_of_range {x : Int} {n : Nat} (hlo : -n ≤ x * 2) (hhi : x * 2 < n) : x.bmod n = x :=
  Int.bmod_eq_of_le_mul_two hlo hhi

theorem toInt_add {a b : Int64} (hlo : -2 ^ 63 ≤ a.toInt + b.toInt)
    (hhi : a.toInt + b.toInt < 2 ^ 63) : (a + b).toInt = a.toInt + b.toInt := by
  rw [Int64.toInt_add]
  exact bmod_of_range (by omega) (by omega)

theorem toInt_sub {a b : Int64} (hlo : -2 ^ 63 ≤ a.toInt - b.toInt)
    (hhi : a.toInt - b.toInt < 2 ^ 63) : (a - b).toInt = a.toInt - b.toInt := by
  rw [Int64.toInt_sub]
  exact bmod_of_range (by omega) (by omega)

theorem toInt_mul {a b : Int64} (hlo : -2 ^ 63 ≤ a.toInt * b.toInt)
    (hhi : a.toInt * b.toInt < 2 ^ 63) : (a * b).toInt = a.toInt * b.toInt := by
  rw [Int64.toInt_mul]
  exact bmod_of_range (by omega) (by omega)

theorem toInt_add32 {a b : Int32} (hlo : -2 ^ 31 ≤ a.toInt + b.toInt)
    (hhi : a.toInt + b.toInt < 2 ^ 31) : (a + b).toInt = a.toInt + b.toInt := by
  rw [Int32.toInt_add]
  exact bmod_of_range (by omega) (by omega)

theorem toInt_sub32 {a b : Int32} (hlo : -2 ^ 31 ≤ a.toInt - b.toInt)
    (hhi : a.toInt - b.toInt < 2 ^ 31) : (a - b).toInt = a.toInt - b.toInt := by
  rw [Int32.toInt_sub]
  exact bmod_of_range (by omega) (by omega)

theorem toInt_mul32 {a b : Int32} (hlo : -2 ^ 31 ≤ a.toInt * b.toInt)
    (hhi : a.toInt * b.toInt < 2 ^ 31) : (a * b).toInt = a.toInt * b.toInt := by
  rw [Int32.toInt_mul]
  exact bmod_of_range (by omega) (by omega)

theorem toInt_toInt32 {a : Int64} (hlo : -2 ^ 31 ≤ a.toInt) (hhi : a.toInt < 2 ^ 31) :
    a.toInt32.toInt = a.toInt := by
  rw [Int64.toInt_toInt32]
  exact bmod_of_range (by omega) (by omega)

theorem toInt_toInt64 {a : UInt64} (h : a.toNat < 2 ^ 63) : a.toInt64.toInt = a.toNat := by
  have hbits : a.toInt64.toInt = (a.toNat : Int).bmod (2 ^ 64) :=
    BitVec.toInt_eq_toNat_bmod a.toBitVec
  rw [hbits]
  exact bmod_of_range (by omega) (by omega)

theorem toInt_ofUInt32 {a : UInt32} (h : a.toNat < 2 ^ 31) : a.toInt32.toInt = a.toNat := by
  have hbits : a.toInt32.toInt = (a.toNat : Int).bmod (2 ^ 32) :=
    BitVec.toInt_eq_toNat_bmod a.toBitVec
  rw [hbits]
  exact bmod_of_range (by omega) (by omega)

theorem toInt_ofUInt32_wrap {a : UInt32} (h : 2 ^ 31 ≤ a.toNat) :
    a.toInt32.toInt = a.toNat - 2 ^ 32 := by
  have hbits : a.toInt32.toInt = (a.toNat : Int).bmod (2 ^ 32) :=
    BitVec.toInt_eq_toNat_bmod a.toBitVec
  have hlt := a.toNat_lt
  rw [hbits, ← Int.sub_bmod_right]
  exact bmod_of_range (by omega) (by omega)

theorem toNat_toUInt64_emod (a : Int64) : (a.toUInt64.toNat : Int) = a.toInt % 2 ^ 64 := by
  have hbits : a.toInt = (a.toUInt64.toNat : Int).bmod (2 ^ 64) := BitVec.toInt_eq_toNat_bmod a.toBitVec
  have hlt := a.toUInt64.toNat_lt
  rw [hbits]
  exact (Int.bmod_emod.trans (Int.emod_eq_of_lt (by omega) (by omega))).symm

theorem toNat_toUInt64 {a : Int64} (h : 0 ≤ a.toInt) : (a.toUInt64.toNat : Int) = a.toInt := by
  rw [Int64.toNat_toUInt64_of_le (Int64.le_iff_toInt_le.mpr h), Int64.toNatClampNeg]
  exact Int.toNat_of_nonneg h

/-! ## Saturation -/

/-- `x`, or the bound that it passes. -/
def clamp (lo hi x : Int) : Int := if hi < x then hi else if x < lo then lo else x

theorem tdiv_tdiv (a b : Int) {c : Int} (hc : 0 < c) : (a.tdiv b).tdiv c = a.tdiv (b * c) := by
  obtain ⟨k, rfl⟩ := Int.eq_ofNat_of_zero_le (Int.le_of_lt hc)
  obtain ⟨m, rfl | rfl⟩ := Int.eq_nat_or_neg a <;> obtain ⟨n, rfl | rfl⟩ := Int.eq_nat_or_neg b <;>
    simp only [Int.neg_mul, Int.neg_tdiv, Int.tdiv_neg, ← Int.natCast_mul, ← Int.ofNat_tdiv,
      Nat.div_div_eq_div_mul]

/-- Saturation in a wide format does not show after a division whose result is saturated in a
narrower one. -/
theorem clamp_tdiv_clamp {lo hi wideLo wideHi c : Int} (hc : 0 < c) (hlohi : lo ≤ hi)
    (hlo : wideLo.tdiv c ≤ lo) (hhi : hi ≤ wideHi.tdiv c) (x : Int) :
    clamp lo hi ((clamp wideLo wideHi x).tdiv c) = clamp lo hi (x.tdiv c) := by
  by_cases habove : wideHi < x
  · have hx := Int.tdiv_le_tdiv hc (Int.le_of_lt habove)
    simp only [clamp, if_pos habove]
    split_ifs <;> omega
  · by_cases hbelow : x < wideLo
    · have hx := Int.tdiv_le_tdiv hc (Int.le_of_lt hbelow)
      simp only [clamp, if_neg habove, if_pos hbelow]
      split_ifs <;> omega
    · simp only [clamp, if_neg habove, if_neg hbelow]

theorem clamp_of_range {lo hi x : Int} (hlo : lo ≤ x) (hhi : x ≤ hi) : clamp lo hi x = x := by
  simp only [clamp]
  split_ifs <;> omega

/-! ## Shares -/

/-- The share `t` of `d`, where `one` is all of it, rounded towards zero. -/
def share (one d t : Int) : Int := (d * t).tdiv one

section

variable {one d t t₁ t₂ : Int}

theorem share_zero (one d : Int) : share one d 0 = 0 := by rw [share, Int.mul_zero, Int.zero_tdiv]

theorem share_one (hone : 0 < one) (d : Int) : share one d one = d :=
  Int.mul_tdiv_cancel _ (Int.ne_of_gt hone)

theorem share_mono (hone : 0 < one) (hd : 0 ≤ d) (h : t₁ ≤ t₂) : share one d t₁ ≤ share one d t₂ :=
  Int.tdiv_le_tdiv hone (Int.mul_le_mul_of_nonneg_left h hd)

theorem share_anti (hone : 0 < one) (hd : d ≤ 0) (h : t₁ ≤ t₂) : share one d t₂ ≤ share one d t₁ :=
  Int.tdiv_le_tdiv hone (Int.mul_le_mul_of_nonpos_left hd h)

/-- A growing share goes from zero to the whole, and stays between them. -/
theorem share_between (hone : 0 < one) (h0 : 0 ≤ t₁) (h : t₁ ≤ t₂) (h1 : t₂ ≤ one) (d : Int) :
    (0 ≤ share one d t₁ ∧ share one d t₁ ≤ share one d t₂ ∧ share one d t₂ ≤ d) ∨
    (d ≤ share one d t₂ ∧ share one d t₂ ≤ share one d t₁ ∧ share one d t₁ ≤ 0) := by
  rcases Int.le_total 0 d with hd | hd
  · have hfirst := share_mono hone hd h0
    have hlast := share_mono hone hd h1
    rw [share_zero] at hfirst
    rw [share_one hone] at hlast
    exact .inl ⟨hfirst, share_mono hone hd h, hlast⟩
  · have hfirst := share_anti hone hd h0
    have hlast := share_anti hone hd h1
    rw [share_zero] at hfirst
    rw [share_one hone] at hlast
    exact .inr ⟨hlast, share_anti hone hd h, hfirst⟩

end

end MachineInt
