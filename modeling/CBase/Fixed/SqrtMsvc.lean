import CBase.Fixed.Roots
import CBase.Lib.Limbs

/-!
# The square root without `__int128`

The other build keeps each 128-bit variable of `cb_fx32_sqrt` in a pair of limbs.

* `limbStep_simulates`: each step of that build is the step of the 128-bit machine on the numbers that
  the limbs stand for.
* `sqrt_builds_agree`: both builds return the same root, for every argument.
-/

namespace CBase.Fixed

/-- `while (bit_hi > n_hi || (bit_hi == n_hi && bit_lo > n_lo)) { ... }` -/
def shrinkLimbs (n bit : Limbs) : Limbs :=
  if bit.Above n then shrinkLimbs n bit.quarter else bit
termination_by bit.val.toNat
decreasing_by exact Limbs.Above.quarter_lt ‹bit.Above n›

/-- `while (bit_hi != 0 || bit_lo != 0) { ... }` -/
def sqrtLimbs (n res bit : Limbs) : Limbs :=
  if bit.hi ≠ 0 ∨ bit.lo ≠ 0 then
    let cand := res.add bit
    if n.AtLeast cand then sqrtLimbs (n.sub cand) (res.half.add bit) bit.quarter
    else sqrtLimbs n res.half bit.quarter
  else res
termination_by bit.val.toNat
decreasing_by
  all_goals exact Limbs.quarter_lt ((Limbs.val_ne_zero_iff _).mp ‹_›)

/-- `n` of `cb_fx32_sqrt` without `__int128`. -/
def radicandLimbs (v : Int64) : Limbs := ⟨v.toUInt64 >>> 32, v.toUInt64 <<< 32⟩

/-- `bit` of `cb_fx32_sqrt` without `__int128`. -/
def firstBitLimbs : Limbs := ⟨(1 : UInt64) <<< 30, 0⟩

/-- `cb_fx32_sqrt` without `__int128`. -/
def fx32SqrtMsvc (v : Int64) : Int64 :=
  if v ≤ 0 then 0
  else
    let n := radicandLimbs v
    let res := sqrtLimbs n ⟨0, 0⟩ (shrinkLimbs n firstBitLimbs)
    res.lo.toInt64

/-! ## The steps -/

/-- The variables of `cb_fx32_sqrt` without `__int128`. -/
structure LimbState where
  loop : RootLoop
  n : Limbs
  res : Limbs
  bit : Limbs

/-- What the limbs stand for. -/
def LimbState.val (s : LimbState) : RootState 128 := ⟨s.loop, s.n.val, s.res.val, s.bit.val⟩

@[simp] theorem LimbState.val_mk (loop : RootLoop) (n res bit : Limbs) :
    LimbState.val ⟨loop, n, res, bit⟩ = ⟨loop, n.val, res.val, bit.val⟩ := rfl

/-- One test of a loop, and one round of it when the test holds. -/
def limbStep (s : LimbState) : LimbState :=
  match s.loop with
  | .shrink =>
    if s.bit.Above s.n then { s with bit := s.bit.quarter } else { s with loop := .digits }
  | .digits =>
    if s.bit.hi ≠ 0 ∨ s.bit.lo ≠ 0 then
      let cand := s.res.add s.bit
      if s.n.AtLeast cand then
        { s with n := s.n.sub cand, res := s.res.half.add s.bit, bit := s.bit.quarter }
      else { s with res := s.res.half, bit := s.bit.quarter }
    else { s with loop := .done }
  | .done => s

theorem limbStep_shrink (n res bit : Limbs) : limbStep ⟨.shrink, n, res, bit⟩ =
    if bit.Above n then ⟨.shrink, n, res, bit.quarter⟩ else ⟨.digits, n, res, bit⟩ := rfl

theorem limbStep_digits (n res bit : Limbs) : limbStep ⟨.digits, n, res, bit⟩ =
    if bit.hi ≠ 0 ∨ bit.lo ≠ 0 then
      if n.AtLeast (res.add bit) then
        ⟨.digits, n.sub (res.add bit), res.half.add bit, bit.quarter⟩
      else ⟨.digits, n, res.half, bit.quarter⟩
    else ⟨.done, n, res, bit⟩ := rfl

/-- A step on the limbs is the step on the numbers that they stand for. -/
theorem limbStep_simulates (s : LimbState) : (limbStep s).val = rootStep s.val := by
  obtain ⟨loop, n, res, bit⟩ := s
  cases loop with
  | shrink =>
    have hiff := Limbs.above_iff bit n
    rw [limbStep_shrink, LimbState.val_mk .shrink n res bit, rootStep_shrink]
    by_cases habove : bit.Above n
    · rw [if_pos habove, if_pos (hiff.mp habove), LimbState.val_mk, Limbs.val_quarter]
    · rw [if_neg habove, if_neg (mt hiff.mpr habove), LimbState.val_mk]
  | digits =>
    have hzero := Limbs.val_ne_zero_iff bit
    have hiff := Limbs.atLeast_iff n (res.add bit)
    rw [Limbs.val_add] at hiff
    rw [limbStep_digits, LimbState.val_mk .digits n res bit, rootStep_digits]
    by_cases hne : bit.hi ≠ 0 ∨ bit.lo ≠ 0
    · rw [if_pos hne, if_neg (hzero.mp hne)]
      by_cases hge : n.AtLeast (res.add bit)
      · rw [if_pos hge, if_pos (hiff.mp hge), LimbState.val_mk, Limbs.val_sub, Limbs.val_add,
          Limbs.val_add, Limbs.val_half, Limbs.val_quarter]
      · rw [if_neg hge, if_neg (mt hiff.mpr hge), LimbState.val_mk, Limbs.val_half, Limbs.val_quarter]
    · rw [if_neg hne, if_pos (not_not.mp (mt hzero.mpr hne)), LimbState.val_mk]
  | done => rfl

/-- At every point of a run the limbs stand for the variables of the 128-bit machine. -/
theorem limbSteps_simulate (s : LimbState) (k : Nat) :
    (limbStep^[k] s).val = rootStep^[k] s.val := by
  induction k with
  | zero => rfl
  | succ k ih => rw [Function.iterate_succ_apply', Function.iterate_succ_apply', limbStep_simulates, ih]

/-! ## The loops -/

theorem val_shrinkLimbs (n bit : Limbs) : (shrinkLimbs n bit).val = shrinkBit n.val bit.val := by
  induction bit using shrinkLimbs.induct n with
  | case1 bit habove ih =>
    rw [shrinkLimbs, if_pos habove, ih, Limbs.val_quarter, shrinkBit.eq_1 n.val bit.val,
      if_pos ((Limbs.above_iff _ _).mp habove)]
  | case2 bit hnot =>
    rw [shrinkLimbs, if_neg hnot, shrinkBit, if_neg fun hlt => hnot ((Limbs.above_iff _ _).mpr hlt)]

theorem val_sqrtLimbs (n res bit : Limbs) :
    (sqrtLimbs n res bit).val = sqrtLoop n.val res.val bit.val := by
  induction n, res, bit using sqrtLimbs.induct with
  | case1 n res bit hne cand hle ih =>
    have hzero := (Limbs.val_ne_zero_iff _).mp hne
    have hcand := (Limbs.atLeast_iff _ _).mp hle
    rw [Limbs.val_add] at hcand
    rw [sqrtLimbs, if_pos hne, if_pos hle, ih, sqrtLoop.eq_1 n.val res.val bit.val, if_neg hzero,
      if_pos hcand, Limbs.val_sub, Limbs.val_add, Limbs.val_add, Limbs.val_half, Limbs.val_quarter]
  | case2 n res bit hne cand hlt ih =>
    have hzero := (Limbs.val_ne_zero_iff _).mp hne
    have hcand : ¬ res.val + bit.val ≤ n.val := fun hle =>
      hlt ((Limbs.atLeast_iff _ _).mpr (by rwa [Limbs.val_add]))
    rw [sqrtLimbs, if_pos hne, if_neg hlt, ih, sqrtLoop.eq_1 n.val res.val bit.val, if_neg hzero,
      if_neg hcand, Limbs.val_half, Limbs.val_quarter]
  | case3 n res bit hzero =>
    have hval : bit.val = 0 := not_not.mp fun hne => hzero ((Limbs.val_ne_zero_iff _).mpr hne)
    rw [sqrtLimbs, if_neg hzero, hval, sqrtLoop_zero]

/-! ## Main result -/

theorem val_radicandLimbs (v : Int64) :
    (radicandLimbs v).val = v.toUInt64.toBitVec.setWidth 128 <<< 32 := by
  have hlt := v.toUInt64.toNat_lt
  have hshift : (32 : UInt64).toNat % 64 = 32 := rfl
  apply BitVec.eq_of_toNat_eq
  rw [Limbs.toNat_val, radicandLimbs, UInt64.toNat_shiftRight, UInt64.toNat_shiftLeft, hshift,
    BitVec.toNat_shiftLeft, BitVec.toNat_setWidth, UInt64.toNat_toBitVec, Nat.shiftRight_eq_div_pow,
    Nat.shiftLeft_eq, Nat.shiftLeft_eq]
  omega

theorem val_firstBitLimbs : firstBitLimbs.val = (1 : BitVec 128) <<< 94 := by decide

/-- `cb_fx32_sqrt` without `__int128` at the beginning of its first loop. -/
def limbStart (v : Int64) : LimbState := ⟨.shrink, radicandLimbs v, ⟨0, 0⟩, firstBitLimbs⟩

theorem val_zero : (⟨0, 0⟩ : Limbs).val = 0 := by decide

theorem val_limbStart (v : Int64) : (limbStart v).val = sqrtStart32 v := by
  rw [limbStart, LimbState.val_mk, val_radicandLimbs, val_firstBitLimbs, val_zero, sqrtStart32, rootStart]

theorem fx32SqrtMsvc_eq (v : Int64) : fx32SqrtMsvc v = fx32Sqrt v := by
  unfold fx32SqrtMsvc fx32Sqrt
  split_ifs
  · rfl
  · have hval : (sqrtLimbs (radicandLimbs v) ⟨0, 0⟩ (shrinkLimbs (radicandLimbs v) firstBitLimbs)).val =
        isqrt (v.toUInt64.toBitVec.setWidth 128 <<< 32) ((1 : BitVec 128) <<< 94) := by
      rw [val_sqrtLimbs, val_shrinkLimbs, val_radicandLimbs, val_firstBitLimbs, val_zero, isqrt]
    simp only [← hval, Limbs.setWidth_val]
    rfl

theorem limbs_reach_digits (n res bit : Limbs) :
    ∃ k, limbStep^[k] ⟨.shrink, n, res, bit⟩ = ⟨.digits, n, res, shrinkLimbs n bit⟩ := by
  induction bit using shrinkLimbs.induct n with
  | case1 bit habove ih =>
    obtain ⟨k, hk⟩ := ih
    refine ⟨k + 1, ?_⟩
    rw [Function.iterate_succ_apply, shrinkLimbs, if_pos habove, ← hk, limbStep_shrink,
      if_pos habove]
  | case2 bit hnot =>
    refine ⟨1, ?_⟩
    rw [Function.iterate_one, shrinkLimbs, if_neg hnot, limbStep_shrink, if_neg hnot]

theorem limbs_reach_done (n res bit : Limbs) :
    ∃ k, (limbStep^[k] ⟨.digits, n, res, bit⟩).loop = .done ∧
      (limbStep^[k] ⟨.digits, n, res, bit⟩).res = sqrtLimbs n res bit := by
  induction n, res, bit using sqrtLimbs.induct with
  | case1 n res bit hne cand hge ih =>
    obtain ⟨k, hdone, hres⟩ := ih
    have hstep : limbStep ⟨.digits, n, res, bit⟩ =
        ⟨.digits, n.sub cand, res.half.add bit, bit.quarter⟩ := by
      rw [limbStep_digits, if_pos hne]
      exact if_pos hge
    refine ⟨k + 1, ?_⟩
    rw [Function.iterate_succ_apply, hstep, sqrtLimbs, if_pos hne, if_pos hge]
    exact ⟨hdone, hres⟩
  | case2 n res bit hne cand hlt ih =>
    obtain ⟨k, hdone, hres⟩ := ih
    have hstep : limbStep ⟨.digits, n, res, bit⟩ = ⟨.digits, n, res.half, bit.quarter⟩ := by
      rw [limbStep_digits, if_pos hne]
      exact if_neg hlt
    refine ⟨k + 1, ?_⟩
    rw [Function.iterate_succ_apply, hstep, sqrtLimbs, if_pos hne, if_neg hlt]
    exact ⟨hdone, hres⟩
  | case3 n res bit hzero =>
    refine ⟨1, ?_⟩
    rw [Function.iterate_one, sqrtLimbs, if_neg hzero, limbStep_digits, if_neg hzero]
    exact ⟨rfl, rfl⟩

/-- Both builds of `cb_fx32_sqrt` return the same value. Throughout the run each pair of limbs stands
for the variable of the other build, and the run ends with the limbs that the value is taken from. -/
theorem sqrt_builds_agree (v : Int64) :
    fx32SqrtMsvc v = fx32Sqrt v ∧
    (∀ k, (limbStep^[k] (limbStart v)).val = rootStep^[k] (sqrtStart32 v)) ∧
    ∃ k, (limbStep^[k] (limbStart v)).loop = .done ∧
      (0 < v → (limbStep^[k] (limbStart v)).res.lo.toInt64 = fx32SqrtMsvc v) := by
  refine ⟨fx32SqrtMsvc_eq v, fun k => ?_, ?_⟩
  · rw [limbSteps_simulate, val_limbStart]
  · obtain ⟨j, hj⟩ := limbs_reach_digits (radicandLimbs v) ⟨0, 0⟩ firstBitLimbs
    obtain ⟨k, hdone, hres⟩ := limbs_reach_done (radicandLimbs v) ⟨0, 0⟩
      (shrinkLimbs (radicandLimbs v) firstBitLimbs)
    have hsplit : limbStep^[k + j] (limbStart v) =
        limbStep^[k] ⟨.digits, radicandLimbs v, ⟨0, 0⟩, shrinkLimbs (radicandLimbs v) firstBitLimbs⟩ := by
      rw [Function.iterate_add_apply, limbStart, hj]
    refine ⟨k + j, by rw [hsplit, hdone], fun hv => ?_⟩
    have hpos : ¬ v ≤ 0 := Int64.not_le.mpr hv
    rw [hsplit, hres, fx32SqrtMsvc, if_neg hpos]

end CBase.Fixed
