import CBase.Lib.MachineInt
import CBase.Lib.SquareRoot

/-!
# Fixed-point arithmetic

Q16.16 values are `Int32`, Q32.32 values are `Int64`. The Q32.32 operations are those of the
`__int128` build; `fx32MulMsvc` is the multiplication of the other build. An `__int128` intermediate
value is the integer itself: sums, products and scaled dividends of two `int64_t` stay below `2^127`.

Each operation has one lemma that says what it computes: the exact result, saturated.
-/

namespace CBase.Fixed

/-! ## Q16.16 -/

def fx16One : Int32 := 65536

def fx16Max : Int32 := 2147483647

def fx16Min : Int32 := -2147483648

/-- The two comparisons that end the Q16.16 operations. -/
def fx16Saturate (r : Int64) : Int32 :=
  if fx16Max.toInt64 < r then fx16Max else if r < fx16Min.toInt64 then fx16Min else r.toInt32

def fx16Add (a b : Int32) : Int32 := fx16Saturate (a.toInt64 + b.toInt64)

def fx16Sub (a b : Int32) : Int32 := fx16Saturate (a.toInt64 - b.toInt64)

def fx16Mul (a b : Int32) : Int32 := fx16Saturate (a.toInt64 * b.toInt64 / fx16One.toInt64)

def fx16Div (a b : Int32) : Int32 :=
  if b = 0 then if a = 0 then 0 else if 0 < a then fx16Max else fx16Min
  else fx16Saturate (a.toInt64 * fx16One.toInt64 / b.toInt64)

def fx16Abs (v : Int32) : Int32 := if v = fx16Min then fx16Max else if v < 0 then -v else v

/-! ## Square roots -/

/-- `while (bit > n) bit >>= 2`. -/
def shrinkBit {w : Nat} (n bit : BitVec w) : BitVec w :=
  if n < bit then shrinkBit n (bit >>> 2) else bit
termination_by bit.toNat
decreasing_by
  simp only [BitVec.toNat_ushiftRight, Nat.shiftRight_eq_div_pow]
  exact Nat.div_lt_self (Nat.zero_lt_of_lt (BitVec.lt_def.mp ‹_›)) (by decide)

/-- The second loop of `cb_fx16_sqrt` and `cb_fx32_sqrt`. -/
def sqrtLoop {w : Nat} (n res bit : BitVec w) : BitVec w :=
  if bit = 0 then res
  else if res + bit ≤ n then sqrtLoop (n - (res + bit)) ((res >>> 1) + bit) (bit >>> 2)
  else sqrtLoop n (res >>> 1) (bit >>> 2)
termination_by bit.toNat
decreasing_by
  all_goals
    simp only [BitVec.toNat_ushiftRight, Nat.shiftRight_eq_div_pow]
    exact Nat.div_lt_self (Nat.pos_of_ne_zero fun h0 => ‹¬ bit = 0› (BitVec.eq_of_toNat_eq h0)) (by decide)

/-- Both loops, from the bit that they start with. -/
def isqrt {w : Nat} (n bit : BitVec w) : BitVec w := sqrtLoop n 0 (shrinkBit n bit)

def fx16Sqrt (v : Int32) : Int32 :=
  if v ≤ 0 then 0
  else
    let n := v.toUInt32.toUInt64 <<< 16
    let bit := (1 : UInt64) <<< 46
    .ofBitVec ((isqrt n.toBitVec bit.toBitVec).setWidth 32)

/-! ## Q32.32 -/

def fx32One : Int64 := 4294967296

def fx32Max : Int64 := 9223372036854775807

def fx32Min : Int64 := -9223372036854775808

/-- The two comparisons that end the Q32.32 operations. -/
def fx32Saturate (r : Int) : Int64 :=
  if fx32Max.toInt < r then fx32Max else if r < fx32Min.toInt then fx32Min else .ofInt r

def fx32Add (a b : Int64) : Int64 := fx32Saturate (a.toInt + b.toInt)

def fx32Sub (a b : Int64) : Int64 := fx32Saturate (a.toInt - b.toInt)

def fx32Mul (a b : Int64) : Int64 := fx32Saturate ((a.toInt * b.toInt).tdiv fx32One.toInt)

/-- `cb_fx32_mul` without `__int128`, by the intrinsic `_mul128`: its result is the high and the low
half of the product. -/
def fx32MulMsvc (mul128 : Int64 → Int64 → Int64 × Int64) (a b : Int64) : Int64 :=
  let (hi, lo) := mul128 a b
  let ulo := lo.toUInt64
  let shiftedLo := ((ulo >>> 32) ||| (hi.toUInt64 <<< 32)).toInt64
  let shiftedHi := hi >>> 32
  if shiftedHi ≠ shiftedLo >>> 63 then if shiftedHi < 0 then fx32Min else fx32Max
  else shiftedLo

def fx32Div (a b : Int64) : Int64 :=
  if b = 0 then if a = 0 then 0 else if 0 < a then fx32Max else fx32Min
  else fx32Saturate ((a.toInt * fx32One.toInt).tdiv b.toInt)

def fx32Abs (v : Int64) : Int64 := if v = fx32Min then fx32Max else if v < 0 then -v else v

def fx32Sqrt (v : Int64) : Int64 :=
  if v ≤ 0 then 0
  else
    let n := v.toUInt64.toBitVec.setWidth 128 <<< 32
    let bit := (1 : BitVec 128) <<< 94
    .ofBitVec ((isqrt n bit).setWidth 64)

/-! ## Conversions -/

def fx32FromFx16 (v : Int32) : Int64 := v.toInt64 * ((1 : Int64) <<< 16)

def fx16FromFx32 (v : Int64) : Int32 := fx16Saturate (v / ((1 : Int64) <<< 16))

/-! ## What the operations compute -/

open MachineInt

abbrev clamp16 (r : Int) : Int := clamp (-2 ^ 31) (2 ^ 31 - 1) r

abbrev clamp32 (r : Int) : Int := clamp (-2 ^ 63) (2 ^ 63 - 1) r

theorem toInt_fx16Saturate (r : Int64) : (fx16Saturate r).toInt = clamp16 r.toInt := by
  have hmax : fx16Max.toInt64.toInt = 2 ^ 31 - 1 := rfl
  have hmin : fx16Min.toInt64.toInt = -2 ^ 31 := rfl
  simp only [fx16Saturate, clamp16, clamp, Int64.lt_iff_toInt_lt, hmax, hmin]
  split_ifs with habove hbelow
  · rfl
  · rfl
  · exact toInt_toInt32 (by omega) (by omega)

theorem toInt_fx32Saturate (r : Int) : (fx32Saturate r).toInt = clamp32 r := by
  have hmax : fx32Max.toInt = 2 ^ 63 - 1 := rfl
  have hmin : fx32Min.toInt = -2 ^ 63 := rfl
  simp only [fx32Saturate, clamp32, clamp, hmax, hmin]
  split_ifs with habove hbelow
  · rfl
  · rfl
  · rw [Int64.toInt_ofInt]
    exact bmod_of_range (by simp [Int64.size]; omega) (by simp [Int64.size]; omega)

theorem toInt_range (a : Int32) : -2 ^ 31 ≤ a.toInt ∧ a.toInt ≤ 2 ^ 31 - 1 :=
  ⟨a.le_toInt, Int.le_sub_one_of_lt a.toInt_lt⟩

theorem toInt_fx16Add (a b : Int32) : (fx16Add a b).toInt = clamp16 (a.toInt + b.toInt) := by
  obtain ⟨ha, ha'⟩ := toInt_range a
  obtain ⟨hb, hb'⟩ := toInt_range b
  rw [fx16Add, toInt_fx16Saturate, toInt_add, Int32.toInt_toInt64, Int32.toInt_toInt64] <;>
    simp only [Int32.toInt_toInt64] <;> omega

theorem toInt_fx16Sub (a b : Int32) : (fx16Sub a b).toInt = clamp16 (a.toInt - b.toInt) := by
  obtain ⟨ha, ha'⟩ := toInt_range a
  obtain ⟨hb, hb'⟩ := toInt_range b
  rw [fx16Sub, toInt_fx16Saturate, toInt_sub, Int32.toInt_toInt64, Int32.toInt_toInt64] <;>
    simp only [Int32.toInt_toInt64] <;> omega

/-- A product of two `int32_t` fits in `int64_t`. -/
theorem toInt_product (a b : Int32) : (a.toInt64 * b.toInt64).toInt = a.toInt * b.toInt ∧
    -2 ^ 62 ≤ a.toInt * b.toInt ∧ a.toInt * b.toInt ≤ 2 ^ 62 := by
  obtain ⟨ha, ha'⟩ := toInt_range a
  obtain ⟨hb, hb'⟩ := toInt_range b
  have hbound : -2 ^ 62 ≤ a.toInt * b.toInt ∧ a.toInt * b.toInt ≤ 2 ^ 62 := by
    constructor <;> nlinarith
  refine ⟨?_, hbound⟩
  rw [toInt_mul] <;> simp only [Int32.toInt_toInt64] <;> omega

theorem toInt_fx16Mul (a b : Int32) :
    (fx16Mul a b).toInt = clamp16 ((a.toInt * b.toInt).tdiv (2 ^ 16)) := by
  obtain ⟨hprod, -, -⟩ := toInt_product a b
  rw [fx16Mul, toInt_fx16Saturate, Int64.toInt_div_of_ne_right _ _ (by decide), hprod]
  rfl

theorem toInt_eq_zero {a : Int32} : a.toInt = 0 ↔ a = 0 := by
  rw [← Int32.toInt_zero, Int32.toInt_inj]

theorem toInt_eq_zero' {a : Int64} : a.toInt = 0 ↔ a = 0 := by
  rw [← Int64.toInt_zero, Int64.toInt_inj]

/-- Division by zero saturates with the sign of the dividend. -/
theorem toInt_fx16Div_zero (a : Int32) : (fx16Div a 0).toInt =
    if a.toInt = 0 then 0 else if 0 < a.toInt then 2 ^ 31 - 1 else -2 ^ 31 := by
  simp only [fx16Div, toInt_eq_zero, Int32.lt_iff_toInt_lt, Int32.toInt_zero, if_true]
  split_ifs <;> rfl

theorem toInt_fx16Div {a b : Int32} (hb : b ≠ 0) :
    (fx16Div a b).toInt = clamp16 ((a.toInt * 2 ^ 16).tdiv b.toInt) := by
  obtain ⟨hnum, hlo, -⟩ := toInt_product a fx16One
  have hne : a.toInt64 * fx16One.toInt64 ≠ Int64.minValue := by
    intro h
    rw [h] at hnum
    have hmin : Int64.minValue.toInt = -2 ^ 63 := rfl
    omega
  rw [fx16Div, if_neg hb, toInt_fx16Saturate, Int64.toInt_div_of_ne_left _ _ hne, hnum,
    Int32.toInt_toInt64]
  rfl

theorem toInt_fx16Abs (v : Int32) : (fx16Abs v).toInt = clamp16 (v.toInt.natAbs : Int) := by
  obtain ⟨hlo, hhi⟩ := toInt_range v
  by_cases hmin : v = fx16Min
  · subst hmin
    rfl
  · have hne : v.toInt ≠ -2 ^ 31 := fun h => hmin (Int32.toInt_inj.mp h)
    have hclamp : clamp16 (v.toInt.natAbs : Int) = v.toInt.natAbs := by
      simp only [clamp]
      split_ifs <;> omega
    rw [fx16Abs, if_neg hmin, hclamp]
    simp only [Int32.lt_iff_toInt_lt, Int32.toInt_zero]
    split_ifs with hneg
    · rw [Int32.toInt_neg, bmod_of_range (by omega) (by omega)]
      omega
    · omega

theorem toInt_fx32Add (a b : Int64) : (fx32Add a b).toInt = clamp32 (a.toInt + b.toInt) :=
  toInt_fx32Saturate _

theorem toInt_fx32Sub (a b : Int64) : (fx32Sub a b).toInt = clamp32 (a.toInt - b.toInt) :=
  toInt_fx32Saturate _

theorem toInt_fx32Mul (a b : Int64) :
    (fx32Mul a b).toInt = clamp32 ((a.toInt * b.toInt).tdiv (2 ^ 32)) :=
  toInt_fx32Saturate _

theorem toInt_fx32Div_zero (a : Int64) : (fx32Div a 0).toInt =
    if a.toInt = 0 then 0 else if 0 < a.toInt then 2 ^ 63 - 1 else -2 ^ 63 := by
  simp only [fx32Div, toInt_eq_zero', Int64.lt_iff_toInt_lt, Int64.toInt_zero, if_true]
  split_ifs <;> rfl

theorem toInt_fx32Div {a b : Int64} (hb : b ≠ 0) :
    (fx32Div a b).toInt = clamp32 ((a.toInt * 2 ^ 32).tdiv b.toInt) := by
  rw [fx32Div, if_neg hb]
  exact toInt_fx32Saturate _

theorem toInt_fx32Abs (v : Int64) : (fx32Abs v).toInt = clamp32 (v.toInt.natAbs : Int) := by
  have hlo := v.le_toInt
  have hhi := v.toInt_lt
  by_cases hmin : v = fx32Min
  · subst hmin
    rfl
  · have hne : v.toInt ≠ -2 ^ 63 := fun h => hmin (Int64.toInt_inj.mp h)
    have hclamp : clamp32 (v.toInt.natAbs : Int) = v.toInt.natAbs := by
      simp only [clamp]
      split_ifs <;> omega
    rw [fx32Abs, if_neg hmin, hclamp]
    simp only [Int64.lt_iff_toInt_lt, Int64.toInt_zero]
    split_ifs with hneg
    · rw [Int64.toInt_neg, bmod_of_range (by omega) (by omega)]
      omega
    · omega

theorem toInt_fx32FromFx16 (v : Int32) : (fx32FromFx16 v).toInt = v.toInt * 2 ^ 16 := by
  obtain ⟨hlo, hhi⟩ := toInt_range v
  have hone : ((1 : Int64) <<< 16).toInt = 2 ^ 16 := rfl
  rw [fx32FromFx16, toInt_mul, Int32.toInt_toInt64, hone] <;>
    simp only [Int32.toInt_toInt64, hone] <;> omega

theorem toInt_fx16FromFx32 (v : Int64) :
    (fx16FromFx32 v).toInt = clamp16 (v.toInt.tdiv (2 ^ 16)) := by
  rw [fx16FromFx32, toInt_fx16Saturate, Int64.toInt_div_of_ne_right _ _ (by decide)]
  rfl

/-! ## What the square roots compute -/

open SquareRoot

theorem toNat_quarter {w k : Nat} {bit : BitVec w} (h : bit.toNat = 4 ^ (k + 1)) :
    (bit >>> 2).toNat = 4 ^ k := by
  rw [BitVec.toNat_ushiftRight, Nat.shiftRight_eq_div_pow, h, Nat.pow_succ]
  exact Nat.mul_div_cancel _ (by decide)

/-- The first loop leaves a power of four of the size of the radicand. -/
theorem shrinkBit_spec {w k : Nat} {n bit : BitVec w} (hbit : bit.toNat = 4 ^ k) (hn : 0 < n.toNat)
    (hsmall : n.toNat < 4 ^ (k + 1)) :
    ∃ j ≤ k, (shrinkBit n bit).toNat = 4 ^ j ∧ n.toNat < 4 ^ (j + 1) := by
  induction k generalizing bit with
  | zero =>
    rw [shrinkBit, if_neg (by rw [BitVec.lt_def, hbit]; omega)]
    exact ⟨0, le_rfl, hbit, hsmall⟩
  | succ k ih =>
    rw [shrinkBit]
    split_ifs with hlt
    · rw [BitVec.lt_def, hbit] at hlt
      obtain ⟨j, hj, hspec⟩ := ih (toNat_quarter hbit) hlt
      exact ⟨j, hj.trans (Nat.le_succ k), hspec⟩
    · exact ⟨k + 1, le_rfl, hbit, hsmall⟩

theorem sqrtLoop_zero {w : Nat} (n res : BitVec w) : sqrtLoop n res 0 = res := by
  rw [sqrtLoop, if_pos rfl]

/-- What holds before the round of the second loop for digit `k`, in a type that has room for the
sums of the round. -/
structure Round {w : Nat} (radicand width k r : Nat) (n res bit : BitVec w) : Prop where
  bit_eq : bit.toNat = 4 ^ k
  digits : Digits radicand (k + 1) r n.toNat res.toNat
  wide : radicand < 4 ^ width
  low : k < width
  room : 2 * 4 ^ width ≤ 2 ^ w

section

variable {w k radicand r width : Nat} {n res bit : BitVec w}

theorem toNat_half (x : BitVec w) : (x >>> 1).toNat = x.toNat / 2 := by
  rw [BitVec.toNat_ushiftRight, Nat.shiftRight_eq_div_pow, Nat.pow_one]

theorem Round.ne_zero (h : Round radicand width k r n res bit) : bit ≠ 0 := by
  rintro rfl
  exact absurd h.bit_eq.symm (Nat.pow_pos (by decide)).ne'

theorem Round.fits (h : Round radicand width k r n res bit) : res.toNat + bit.toNat < 2 ^ w := by
  have hres := h.digits.scaled_lt h.wide h.low
  have hfour : 4 ^ k ≤ 4 ^ width := Nat.pow_le_pow_right (by decide) h.low.le
  have hroom := h.room
  rw [h.bit_eq]
  omega

theorem Round.toNat_sum (h : Round radicand width k r n res bit) :
    (res + bit).toNat = res.toNat + 4 ^ k := by
  rw [BitVec.toNat_add, Nat.mod_eq_of_lt h.fits, h.bit_eq]

/-- The round finds a one. -/
theorem Round.take (h : Round radicand width k r n res bit) (hle : res + bit ≤ n) :
    Digits radicand k (r + 2 ^ k) (n - (res + bit)).toNat ((res >>> 1) + bit).toNat := by
  have hfits := h.fits
  have hnew : ((res >>> 1) + bit).toNat = res.toNat / 2 + 4 ^ k := by
    rw [BitVec.toNat_add, toNat_half, Nat.mod_eq_of_lt (by omega), h.bit_eq]
  rw [BitVec.toNat_sub_of_le hle, h.toNat_sum, hnew]
  rw [BitVec.le_def, h.toNat_sum] at hle
  exact h.digits.take hle

/-- The round finds a zero. -/
theorem Round.skip (h : Round radicand width k r n res bit) (hlt : ¬ res + bit ≤ n) :
    Digits radicand k r n.toNat (res >>> 1).toNat := by
  rw [BitVec.le_def, h.toNat_sum, not_le] at hlt
  rw [toNat_half]
  exact h.digits.skip hlt

/-- The bit of the next round, which is zero after the last one. -/
theorem Round.toNat_next (h : Round radicand width k r n res bit) :
    (bit >>> 2).toNat = if k = 0 then 0 else 4 ^ (k - 1) := by
  cases k with
  | zero => simp [BitVec.toNat_ushiftRight, Nat.shiftRight_eq_div_pow, h.bit_eq]
  | succ k => simpa using toNat_quarter h.bit_eq

/-- The second loop finds the remaining digits, when its sums fit in the type. -/
theorem sqrtLoop_spec (hbit : bit.toNat = if k = 0 then 0 else 4 ^ (k - 1))
    (hdigits : Digits radicand k r n.toNat res.toNat) (hwidth : radicand < 4 ^ width)
    (hk : k ≤ width) (hw : 2 * 4 ^ width ≤ 2 ^ w) :
    (sqrtLoop n res bit).toNat = Nat.sqrt radicand := by
  induction k generalizing r n res bit with
  | zero =>
    have hzero : bit = 0 := BitVec.eq_of_toNat_eq (by simpa using hbit)
    rw [hzero, sqrtLoop_zero]
    exact hdigits.finish
  | succ k ih =>
    have hround : Round radicand width k r n res bit := ⟨by simpa using hbit, hdigits, hwidth, hk, hw⟩
    rw [sqrtLoop, if_neg hround.ne_zero]
    split_ifs with hle
    · exact ih hround.toNat_next (hround.take hle) (by omega)
    · exact ih hround.toNat_next (hround.skip hle) (by omega)

end

/-- Both loops compute the integer square root, from any power of four that is large enough. -/
theorem toNat_isqrt {w k : Nat} {n bit : BitVec w} (hbit : bit.toNat = 4 ^ k) (hn : 0 < n.toNat)
    (hsmall : n.toNat < 4 ^ (k + 1)) (hw : 2 * 4 ^ (k + 1) ≤ 2 ^ w) :
    (isqrt n bit).toNat = Nat.sqrt n.toNat := by
  obtain ⟨j, hj, hshrunk, hclose⟩ := shrinkBit_spec hbit hn hsmall
  have hstart : Digits n.toNat (j + 1) 0 n.toNat (0 : BitVec w).toNat := by
    rw [BitVec.ofNat_eq_ofNat, BitVec.toNat_ofNat, Nat.zero_mod]
    exact .start hclose
  exact sqrtLoop_spec (by simpa using hshrunk) hstart hsmall (by omega) hw

/-- The root of a positive Q16.16 or Q32.32 value fits in its format. -/
theorem sqrt_lt {n k : Nat} (h : n < 4 ^ k) : Nat.sqrt n < 2 ^ k := by
  rw [Nat.sqrt_lt, ← Nat.mul_pow]
  exact h

/-- Narrowing a small unsigned value keeps it, also as a signed one. -/
theorem toInt_setWidth {w v : Nat} {x : BitVec w} (h : 2 * x.toNat < 2 ^ v) :
    (x.setWidth v).toInt = x.toNat := by
  have hnat : (x.setWidth v).toNat = x.toNat := by
    rw [BitVec.toNat_setWidth]
    exact Nat.mod_eq_of_lt (by omega)
  rw [BitVec.toInt_eq_toNat_of_lt (by rwa [hnat]), hnat]

/-- The shift of the radicand loses no bit. -/
theorem toNat_radicand16 {v : Int32} (hv : 0 < v.toInt) :
    (v.toUInt32.toUInt64 <<< 16).toBitVec.toNat = v.toInt.toNat * 2 ^ 16 := by
  have hhi := v.toInt_lt
  have hnat : v.toUInt32.toNat = v.toInt.toNat :=
    Int32.toNat_toUInt32_of_le (Int32.le_iff_toInt_le.mpr hv.le)
  have hshift : (16 : UInt64).toNat % 64 = 16 := rfl
  rw [UInt64.toNat_toBitVec, UInt64.toNat_shiftLeft, UInt32.toNat_toUInt64, hnat, Nat.shiftLeft_eq,
    hshift]
  exact Nat.mod_eq_of_lt (by omega)

theorem toInt_fx16Sqrt {v : Int32} (hv : 0 < v.toInt) :
    (fx16Sqrt v).toInt = (Nat.sqrt (v.toInt.toNat * 2 ^ 16) : Nat) := by
  have hhi := v.toInt_lt
  have hneg : ¬ v ≤ 0 := by
    rw [Int32.le_iff_toInt_le, Int32.toInt_zero]
    omega
  have hn := toNat_radicand16 hv
  have hbit : (((1 : UInt64) <<< 46).toBitVec).toNat = 4 ^ 23 := by decide
  have hroot := toNat_isqrt (n := (v.toUInt32.toUInt64 <<< 16).toBitVec) hbit (by omega) (by omega)
    (by decide)
  rw [hn] at hroot
  have hsmall := sqrt_lt (k := 24) (n := v.toInt.toNat * 2 ^ 16) (by omega)
  simp only [fx16Sqrt, if_neg hneg]
  rw [Int32.toInt_ofBitVec, toInt_setWidth (by rw [hroot]; omega), hroot]

theorem toNat_radicand32 {v : Int64} (hv : 0 < v.toInt) :
    ((v.toUInt64.toBitVec.setWidth 128 : BitVec 128) <<< 32).toNat = v.toInt.toNat * 2 ^ 32 := by
  have hhi := v.toInt_lt
  have hnat : v.toUInt64.toBitVec.toNat = v.toInt.toNat := by
    have h := toNat_toUInt64 hv.le
    rw [UInt64.toNat_toBitVec]
    omega
  rw [BitVec.toNat_shiftLeft, BitVec.toNat_setWidth, hnat, Nat.shiftLeft_eq]
  omega

theorem toInt_fx32Sqrt {v : Int64} (hv : 0 < v.toInt) :
    (fx32Sqrt v).toInt = (Nat.sqrt (v.toInt.toNat * 2 ^ 32) : Nat) := by
  have hhi := v.toInt_lt
  have hneg : ¬ v ≤ 0 := by
    rw [Int64.le_iff_toInt_le, Int64.toInt_zero]
    omega
  have hn := toNat_radicand32 hv
  have hbit : ((1 : BitVec 128) <<< 94).toNat = 4 ^ 47 := by decide
  have hroot := toNat_isqrt (n := (v.toUInt64.toBitVec.setWidth 128 : BitVec 128) <<< 32) hbit
    (by omega) (by omega) (by decide)
  rw [hn] at hroot
  have hsmall := sqrt_lt (k := 48) (n := v.toInt.toNat * 2 ^ 32) (by omega)
  simp only [fx32Sqrt, if_neg hneg]
  rw [Int64.toInt_ofBitVec, toInt_setWidth (by rw [hroot]; omega), hroot]

end CBase.Fixed
