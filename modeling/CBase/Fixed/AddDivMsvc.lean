import CBase.Fixed.Arith

/-!
# Sums, differences and quotients without `__int128`

The other build of `cb_fx32_add` and `cb_fx32_sub` wraps and finds an overflow in the signs; that of
`cb_fx32_div` divides the absolute values with the intrinsic `_udiv128`. Signed operations that may
overflow have no result (`none`) when they do, and so has a call of `_udiv128` that traps.

* `add_sub_div_builds_agree`: both builds return the same values, and the other one never overflows or
  traps.
-/

namespace CBase.Fixed

open MachineInt

/-! ## The other build -/

/-- `a + b` in `int64_t`. -/
def addSigned (a b : Int64) : Option Int64 :=
  if -2 ^ 63 ≤ a.toInt + b.toInt ∧ a.toInt + b.toInt < 2 ^ 63 then some (a + b) else none

/-- `-a` in `int64_t`. -/
def negSigned (a : Int64) : Option Int64 := if a.toInt = -2 ^ 63 then none else some (-a)

/-- `cb_fx32_add` without `__int128`. Its sum is unsigned. -/
def fx32AddMsvc (a b : Int64) : Int64 :=
  let r := (a.toUInt64 + b.toUInt64).toInt64
  if ((a ^^^ r) &&& (b ^^^ r)) < 0 then if a < 0 then fx32Min else fx32Max
  else r

/-- `cb_fx32_sub` without `__int128`. Its difference is unsigned. -/
def fx32SubMsvc (a b : Int64) : Int64 :=
  let r := (a.toUInt64 - b.toUInt64).toInt64
  if ((a ^^^ b) &&& (a ^^^ r)) < 0 then if a < 0 then fx32Min else fx32Max
  else r

/-- `(v < 0) ? (uint64_t)(-(v + 1)) + 1u : (uint64_t)v`. -/
def magnitude (v : Int64) : Option UInt64 :=
  if v < 0 then do
    let next ← addSigned v 1
    let flipped ← negSigned next
    return flipped.toUInt64 + 1
  else some v.toUInt64

/-- `cb_fx32_div` without `__int128`. The intrinsic returns the quotient and the remainder. -/
def fx32DivMsvc (udiv128 : UInt64 → UInt64 → UInt64 → Option (UInt64 × UInt64)) (a b : Int64) :
    Option Int64 := do
  if b = 0 then
    return if a = 0 then 0 else if 0 < a then fx32Max else fx32Min
  let neg := (decide (a < 0)) ^^ (decide (b < 0))
  let ua ← magnitude a
  let ub ← magnitude b
  let numHi := ua >>> 32
  let numLo := ua <<< 32
  -- the quotient needs more than 64 bits
  if ub ≤ numHi then
    return if neg then fx32Min else fx32Max
  let (q, _) ← udiv128 numHi numLo ub
  if neg then
    if fx32Max.toUInt64 + 1 < q then return fx32Min
    if q = fx32Max.toUInt64 + 1 then return fx32Min
    negSigned q.toInt64
  else
    if fx32Max.toUInt64 < q then return fx32Max
    return q.toInt64

/-- `_udiv128` divides exactly when the quotient fits in 64 bits, that is, when the high half of the
dividend is below the divisor, and traps otherwise. -/
structure Udiv128Exact (udiv128 : UInt64 → UInt64 → UInt64 → Option (UInt64 × UInt64)) : Prop where
  exact : ∀ hi lo d, hi < d → ∃ q r, udiv128 hi lo d = some (q, r) ∧
    q.toNat = (hi.toNat * 2 ^ 64 + lo.toNat) / d.toNat ∧
    r.toNat = (hi.toNat * 2 ^ 64 + lo.toNat) % d.toNat
  traps : ∀ hi lo d, ¬ hi < d → udiv128 hi lo d = none

/-! ## Sums and differences -/

theorem neg_iff_msb (x : Int64) : x.toInt < 0 ↔ x.toBitVec.msb = true := by
  rw [BitVec.msb_eq_toInt, decide_eq_true_iff, Int64.toInt_toBitVec]

theorem and_neg_iff (x y : Int64) : (x &&& y).toInt < 0 ↔ x.toInt < 0 ∧ y.toInt < 0 := by
  rw [neg_iff_msb, neg_iff_msb, neg_iff_msb, Int64.toBitVec_and, BitVec.msb_and, Bool.and_eq_true]

theorem xor_neg_iff (x y : Int64) : (x ^^^ y).toInt < 0 ↔ ¬ (x.toInt < 0 ↔ y.toInt < 0) := by
  rw [neg_iff_msb, neg_iff_msb, neg_iff_msb, Int64.toBitVec_xor, BitVec.msb_xor]
  cases x.toBitVec.msb <;> cases y.toBitVec.msb <;> simp

/-- A result that has left the range on one side comes back on the other. -/
theorem wrap_cases {r : Int} (hlo : -2 ^ 64 ≤ r) (hhi : r < 2 ^ 64) :
    r.bmod (2 ^ 64) = if 2 ^ 63 ≤ r then r - 2 ^ 64 else if r < -2 ^ 63 then r + 2 ^ 64 else r := by
  rw [Int.bmod_def]
  split_ifs <;> omega

theorem toInt_min : fx32Min.toInt = -2 ^ 63 := rfl

theorem toInt_max : fx32Max.toInt = 2 ^ 63 - 1 := rfl

theorem fx32AddMsvc_eq (a b : Int64) : fx32AddMsvc a b = fx32Add a b := by
  have ha := a.le_toInt
  have ha' := a.toInt_lt
  have hb := b.le_toInt
  have hb' := b.toInt_lt
  have hsum : (a.toUInt64 + b.toUInt64).toInt64 = a + b := rfl
  have hwrap : (a + b).toInt = _ := (Int64.toInt_add a b).trans (wrap_cases (by omega) (by omega))
  rw [← Int64.toInt_inj, toInt_fx32Add]
  simp only [fx32AddMsvc, hsum, Int64.lt_iff_toInt_lt, Int64.toInt_zero, and_neg_iff, xor_neg_iff, clamp32,
    clamp]
  rw [apply_ite Int64.toInt, apply_ite Int64.toInt, toInt_min, toInt_max]
  split_ifs at hwrap ⊢ <;> omega

theorem fx32SubMsvc_eq (a b : Int64) : fx32SubMsvc a b = fx32Sub a b := by
  have ha := a.le_toInt
  have ha' := a.toInt_lt
  have hb := b.le_toInt
  have hb' := b.toInt_lt
  have hdiff : (a.toUInt64 - b.toUInt64).toInt64 = a - b := rfl
  have hwrap : (a - b).toInt = _ := (Int64.toInt_sub a b).trans (wrap_cases (by omega) (by omega))
  rw [← Int64.toInt_inj, toInt_fx32Sub]
  simp only [fx32SubMsvc, hdiff, Int64.lt_iff_toInt_lt, Int64.toInt_zero, and_neg_iff, xor_neg_iff, clamp32,
    clamp]
  rw [apply_ite Int64.toInt, apply_ite Int64.toInt, toInt_min, toInt_max]
  split_ifs at hwrap ⊢ <;> omega

/-! ## Quotients -/

theorem addSigned_of_range {a b : Int64} (hlo : -2 ^ 63 ≤ a.toInt + b.toInt)
    (hhi : a.toInt + b.toInt < 2 ^ 63) : addSigned a b = some (a + b) :=
  if_pos ⟨hlo, hhi⟩

theorem negSigned_of_ne {a : Int64} (h : a.toInt ≠ -2 ^ 63) :
    negSigned a = some (-a) ∧ (-a).toInt = -a.toInt := by
  have hlo := a.le_toInt
  have hhi := a.toInt_lt
  refine ⟨if_neg h, ?_⟩
  rw [Int64.toInt_neg]
  exact bmod_of_range (by omega) (by omega)

/-- The absolute value is found without an overflow, also that of the least value. -/
theorem magnitude_spec (v : Int64) : ∃ u, magnitude v = some u ∧ u.toNat = v.toInt.natAbs := by
  have hlo := v.le_toInt
  have hhi := v.toInt_lt
  unfold magnitude
  split
  · next hneg =>
    rw [Int64.lt_iff_toInt_lt, Int64.toInt_zero] at hneg
    have hone : (1 : Int64).toInt = 1 := rfl
    have hnext : (v + 1).toInt = v.toInt + 1 := toInt_add (by omega) (by omega)
    obtain ⟨hflip, hflipped⟩ := @negSigned_of_ne (v + 1) (by omega)
    have hword := toNat_toUInt64 (a := -(v + 1)) (by omega)
    refine ⟨(-(v + 1)).toUInt64 + 1, ?_, ?_⟩
    · rw [addSigned_of_range (by omega) (by omega), Option.bind_eq_bind, Option.bind_some, hflip]
      rfl
    · have hunit : (1 : UInt64).toNat = 1 := rfl
      rw [UInt64.toNat_add, hunit]
      omega
  · next hpos =>
    rw [Int64.lt_iff_toInt_lt, Int64.toInt_zero] at hpos
    have hword := toNat_toUInt64 (a := v) (by omega)
    exact ⟨v.toUInt64, rfl, by omega⟩

/-- Truncated division by signs and absolute values. -/
theorem tdiv_sign (p b : Int) : p.tdiv b =
    if (p < 0 ↔ b < 0) then ((p.natAbs / b.natAbs : Nat) : Int) else -(p.natAbs / b.natAbs : Nat) := by
  obtain ⟨m, hm⟩ := Int.eq_nat_or_neg p
  obtain ⟨n, hn⟩ := Int.eq_nat_or_neg b
  have hnum : m = 0 → m / n = 0 := by
    rintro rfl
    exact Nat.zero_div n
  have hden : n = 0 → m / n = 0 := by
    rintro rfl
    exact Nat.div_zero m
  rcases hm with rfl | rfl <;> rcases hn with rfl | rfl <;>
    simp only [Int.neg_tdiv, Int.tdiv_neg, Int.neg_neg, ← Int.ofNat_tdiv, Int.natAbs_neg,
      Int.natAbs_natCast] <;>
    split_ifs <;> omega

/-- The dividend of the 128-bit division is the absolute value, shifted. -/
theorem dividend_eq (ua : UInt64) :
    (ua >>> 32).toNat * 2 ^ 64 + (ua <<< 32).toNat = ua.toNat * 2 ^ 32 := by
  have hlt := ua.toNat_lt
  have hshift : (32 : UInt64).toNat % 64 = 32 := rfl
  rw [UInt64.toNat_shiftRight, UInt64.toNat_shiftLeft, hshift, Nat.shiftRight_eq_div_pow,
    Nat.shiftLeft_eq]
  omega

/-- The quotient by its sign and the absolute values. -/
theorem toInt_fx32Div_sign {a b : Int64} (hb : b ≠ 0) : (fx32Div a b).toInt =
    clamp32 (if (decide (a < 0)) ^^ (decide (b < 0)) then
      -(a.toInt.natAbs * 2 ^ 32 / b.toInt.natAbs : Nat)
      else (a.toInt.natAbs * 2 ^ 32 / b.toInt.natAbs : Nat)) := by
  have htwo : (2 ^ 32 : Int).natAbs = 2 ^ 32 := rfl
  have hshift : a.toInt * 2 ^ 32 < 0 ↔ a.toInt < 0 := by omega
  rw [toInt_fx32Div hb, tdiv_sign, Int.natAbs_mul, htwo]
  simp only [hshift, Int64.lt_iff_toInt_lt, Int64.toInt_zero]
  by_cases ha : a.toInt < 0 <;> by_cases hb : b.toInt < 0 <;> simp [ha, hb]

/-- The end of the other build for a quotient that is not negative. -/
theorem quotient_pos {q : UInt64} {r : Int64} (hr : r.toInt = clamp32 (q.toNat : Nat)) :
    (if fx32Max.toUInt64 < q then fx32Max else q.toInt64) = r := by
  have hmax : fx32Max.toUInt64.toNat = 2 ^ 63 - 1 := rfl
  rw [clamp32, clamp] at hr
  rw [← Int64.toInt_inj, hr]
  by_cases hlt : fx32Max.toUInt64 < q
  · rw [if_pos hlt, toInt_max]
    rw [UInt64.lt_iff_toNat_lt, hmax] at hlt
    split_ifs <;> omega
  · rw [if_neg hlt]
    rw [UInt64.lt_iff_toNat_lt, hmax] at hlt
    rw [toInt_toInt64 (by omega)]
    split_ifs <;> omega

/-- The end of the other build for a quotient that is not positive: the negation does not overflow. -/
theorem quotient_neg {q : UInt64} {r : Int64} (hr : r.toInt = clamp32 (-(q.toNat : Nat))) :
    (if fx32Max.toUInt64 + 1 < q then some fx32Min
      else if q = fx32Max.toUInt64 + 1 then some fx32Min else negSigned q.toInt64) = some r := by
  have hnext : (fx32Max.toUInt64 + 1).toNat = 2 ^ 63 := rfl
  rw [clamp32, clamp] at hr
  by_cases hle : fx32Max.toUInt64 + 1 ≤ q
  · have hmin : fx32Min = r := by
      rw [← Int64.toInt_inj, hr, toInt_min]
      rw [UInt64.le_iff_toNat_le, hnext] at hle
      split_ifs <;> omega
    rw [← hmin]
    split_ifs with hlt heq
    · rfl
    · rfl
    · exact absurd (UInt64.le_antisymm (UInt64.not_lt.mp hlt) hle) heq
  · have hlt : ¬ fx32Max.toUInt64 + 1 < q := fun h => hle (UInt64.le_of_lt h)
    have hne : q ≠ fx32Max.toUInt64 + 1 := fun h => hle (h ▸ UInt64.le_refl _)
    rw [if_neg hlt, if_neg hne]
    rw [UInt64.le_iff_toNat_le, hnext] at hle
    have hq := toInt_toInt64 (a := q) (by omega)
    obtain ⟨hneg, hval⟩ := @negSigned_of_ne q.toInt64 (by omega)
    rw [hneg]
    refine congrArg some (Int64.toInt_inj.mp ?_)
    rw [hval, hr, hq]
    split_ifs <;> omega

theorem fx32DivMsvc_eq {udiv128 : UInt64 → UInt64 → UInt64 → Option (UInt64 × UInt64)}
    (hexact : Udiv128Exact udiv128) (a b : Int64) : fx32DivMsvc udiv128 a b = some (fx32Div a b) := by
  by_cases hb : b = 0
  · subst hb
    rw [fx32DivMsvc, if_pos rfl, fx32Div, if_pos rfl]
    rfl
  obtain ⟨ua, hua, hna⟩ := magnitude_spec a
  obtain ⟨ub, hub, hnb⟩ := magnitude_spec b
  have hb0 : b.toInt ≠ 0 := fun h0 => hb (toInt_eq_zero'.mp h0)
  have hquot := toInt_fx32Div_sign (a := a) hb
  rw [← hna, ← hnb] at hquot
  have hdividend := dividend_eq ua
  have hpos : 0 < ub.toNat := by omega
  unfold fx32DivMsvc
  simp only [hb, if_false, hua, hub, Option.bind_eq_bind, Option.bind_some, Option.pure_def]
  generalize (decide (a < 0) ^^ decide (b < 0)) = neg at hquot
  by_cases hguard : ub ≤ ua >>> 32
  · rw [if_pos hguard]
    have hlarge : 2 ^ 64 ≤ ua.toNat * 2 ^ 32 / ub.toNat := by
      rw [Nat.le_div_iff_mul_le hpos]
      rw [UInt64.le_iff_toNat_le] at hguard
      omega
    refine congrArg some (Int64.toInt_inj.mp ?_)
    rw [hquot, clamp32, clamp]
    cases neg with
    | true =>
      simp only [if_true, toInt_min]
      split_ifs <;> omega
    | false =>
      simp only [Bool.false_eq_true, if_false, toInt_max]
      split_ifs <;> omega
  · obtain ⟨q, r, hcall, hq, -⟩ := hexact.exact (ua >>> 32) (ua <<< 32) ub (UInt64.not_le.mp hguard)
    rw [hdividend] at hq
    rw [← hq] at hquot
    rw [if_neg hguard, hcall]
    cases neg with
    | true => exact quotient_neg hquot
    | false => exact (apply_ite some _ _ _).symm.trans (congrArg some (quotient_pos hquot))

/-! ## Main result -/

/-- Both builds of the sum, the difference and the quotient return the same values, and no signed
operation of the other build overflows. -/
theorem add_sub_div_builds_agree
    {udiv128 : UInt64 → UInt64 → UInt64 → Option (UInt64 × UInt64)} (hexact : Udiv128Exact udiv128)
    (a b : Int64) :
    fx32AddMsvc a b = fx32Add a b ∧ fx32SubMsvc a b = fx32Sub a b ∧
      fx32DivMsvc udiv128 a b = some (fx32Div a b) :=
  ⟨fx32AddMsvc_eq a b, fx32SubMsvc_eq a b, fx32DivMsvc_eq hexact a b⟩

/-- The division itself, which traps as the intrinsic does. -/
def exactUdiv128 (hi lo d : UInt64) : Option (UInt64 × UInt64) :=
  if hi < d then
    some (.ofNat ((hi.toNat * 2 ^ 64 + lo.toNat) / d.toNat),
      .ofNat ((hi.toNat * 2 ^ 64 + lo.toNat) % d.toNat))
  else none

theorem exactUdiv128_exact : Udiv128Exact exactUdiv128 := by
  refine ⟨fun hi lo d hlt => ?_, fun hi lo d hnot => if_neg hnot⟩
  refine ⟨_, _, if_pos hlt, ?_, ?_⟩
  · rw [UInt64.lt_iff_toNat_lt] at hlt
    have hlo := lo.toNat_lt
    refine UInt64.toNat_ofNat_of_lt' ?_
    rw [Nat.div_lt_iff_lt_mul (by omega)]
    calc hi.toNat * 2 ^ 64 + lo.toNat < (hi.toNat + 1) * 2 ^ 64 := by omega
      _ ≤ d.toNat * 2 ^ 64 := Nat.mul_le_mul_right _ hlt
      _ = UInt64.size * d.toNat := Nat.mul_comm _ _
  · rw [UInt64.lt_iff_toNat_lt] at hlt
    have hd := d.toNat_lt
    have hmod := Nat.mod_lt (hi.toNat * 2 ^ 64 + lo.toNat) (y := d.toNat) (by omega)
    exact UInt64.toNat_ofNat_of_lt' (by simp only [UInt64.size]; omega)

/-- The least value divided by the smallest positive one. -/
theorem add_sub_div_builds_agree_min :
    fx32AddMsvc fx32Min 1 = fx32Add fx32Min 1 ∧ fx32SubMsvc fx32Min 1 = fx32Sub fx32Min 1 ∧
      fx32DivMsvc exactUdiv128 fx32Min 1 = some (fx32Div fx32Min 1) :=
  add_sub_div_builds_agree exactUdiv128_exact fx32Min 1

end CBase.Fixed
