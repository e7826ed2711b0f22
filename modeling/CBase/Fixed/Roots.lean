import CBase.Fixed.Arith

/-!
# The runs of the square roots

The two loops of the square roots as a machine that takes one test of a loop, with the round behind
it, at a time. `NoWrap` says that no operation of a round wraps; it holds in every state of a run
(`Running.noWrap`), and the run ends with the root that `isqrt` returns (`reaches_done`).

* `sqrt_exact_floor`: both roots are exact floors.
-/

namespace CBase.Fixed

open SquareRoot

inductive RootLoop
  | shrink
  | digits
  | done
deriving DecidableEq, Repr

/-- The variables of `cb_fx16_sqrt` and `cb_fx32_sqrt`. -/
structure RootState (w : Nat) where
  loop : RootLoop
  n : BitVec w
  res : BitVec w
  bit : BitVec w

variable {w : Nat}

/-- One test of a loop, and one round of it when the test holds. -/
def rootStep (s : RootState w) : RootState w :=
  match s.loop with
  | .shrink => if s.n < s.bit then { s with bit := s.bit >>> 2 } else { s with loop := .digits }
  | .digits =>
    if s.bit = 0 then { s with loop := .done }
    else if s.res + s.bit ≤ s.n then
      { s with n := s.n - (s.res + s.bit), res := (s.res >>> 1) + s.bit, bit := s.bit >>> 2 }
    else { s with res := s.res >>> 1, bit := s.bit >>> 2 }
  | .done => s

/-- The variables before the first loop. -/
def rootStart (n bit : BitVec w) : RootState w := ⟨.shrink, n, 0, bit⟩

/-- The sums and the difference of the next round stay in the range of the type. -/
def NoWrap (s : RootState w) : Prop :=
  s.loop = .digits → s.bit ≠ 0 →
    s.res.toNat + s.bit.toNat < 2 ^ w ∧
    (s.res + s.bit ≤ s.n → s.res.toNat + s.bit.toNat ≤ s.n.toNat ∧
      (s.res >>> 1).toNat + s.bit.toNat < 2 ^ w)

/-! ## The run ends -/

theorem rootStep_shrink (n res bit : BitVec w) : rootStep ⟨.shrink, n, res, bit⟩ =
    if n < bit then ⟨.shrink, n, res, bit >>> 2⟩ else ⟨.digits, n, res, bit⟩ := rfl

theorem rootStep_digits (n res bit : BitVec w) : rootStep ⟨.digits, n, res, bit⟩ =
    if bit = 0 then ⟨.done, n, res, bit⟩
    else if res + bit ≤ n then ⟨.digits, n - (res + bit), (res >>> 1) + bit, bit >>> 2⟩
    else ⟨.digits, n, res >>> 1, bit >>> 2⟩ := rfl

theorem reaches_digits (n res bit : BitVec w) :
    ∃ k, rootStep^[k] ⟨.shrink, n, res, bit⟩ = ⟨.digits, n, res, shrinkBit n bit⟩ := by
  induction bit using shrinkBit.induct n with
  | case1 bit hlt ih =>
    obtain ⟨k, hk⟩ := ih
    refine ⟨k + 1, ?_⟩
    rw [Function.iterate_succ_apply, shrinkBit, if_pos hlt, ← hk, rootStep_shrink, if_pos hlt]
  | case2 bit hge =>
    refine ⟨1, ?_⟩
    rw [Function.iterate_one, shrinkBit, if_neg hge, rootStep_shrink, if_neg hge]

theorem reaches_done (n res bit : BitVec w) :
    ∃ k n', rootStep^[k] ⟨.digits, n, res, bit⟩ = ⟨.done, n', sqrtLoop n res bit, 0⟩ := by
  induction n, res, bit using sqrtLoop.induct with
  | case1 n res =>
    refine ⟨1, n, ?_⟩
    rw [Function.iterate_one, sqrtLoop_zero, rootStep_digits, if_pos rfl]
  | case2 n res bit hne hle ih =>
    obtain ⟨k, n', hk⟩ := ih
    refine ⟨k + 1, n', ?_⟩
    rw [Function.iterate_succ_apply, sqrtLoop, if_neg hne, if_pos hle, ← hk, rootStep_digits,
      if_neg hne, if_pos hle]
  | case3 n res bit hne hlt ih =>
    obtain ⟨k, n', hk⟩ := ih
    refine ⟨k + 1, n', ?_⟩
    rw [Function.iterate_succ_apply, sqrtLoop, if_neg hne, if_neg hlt, ← hk, rootStep_digits,
      if_neg hne, if_neg hlt]

/-- The machine ends with what the loops return. -/
theorem rootStart_reaches (n bit : BitVec w) :
    ∃ k n', rootStep^[k] (rootStart n bit) = ⟨.done, n', isqrt n bit, 0⟩ := by
  obtain ⟨j, hj⟩ := reaches_digits n 0 bit
  obtain ⟨k, n', hk⟩ := reaches_done n 0 (shrinkBit n bit)
  refine ⟨k + j, n', ?_⟩
  rw [Function.iterate_add_apply, rootStart, hj, hk, isqrt]

/-! ## No operation wraps -/

/-- What holds in each state of a run on `radicand`, whose first bit is at most `4 ^ top`. -/
def Running (radicand top : Nat) (s : RootState w) : Prop :=
  match s.loop with
  | .shrink => s.n.toNat = radicand ∧ s.res = 0 ∧
      ∃ j ≤ top, s.bit.toNat = 4 ^ j ∧ radicand < 4 ^ (j + 1)
  | .digits => ∃ k r, k ≤ top + 1 ∧ s.bit.toNat = (if k = 0 then 0 else 4 ^ (k - 1)) ∧
      Digits radicand k r s.n.toNat s.res.toNat
  | .done => True

/-- The type has room for a run from the bit `4 ^ top`. -/
structure Room (w radicand top : Nat) : Prop where
  pos : 0 < radicand
  close : radicand < 4 ^ (top + 1)
  room : 2 * 4 ^ (top + 1) ≤ 2 ^ w

variable {radicand top : Nat} {s : RootState w}

theorem Room.round (h : Room w radicand top) {k r : Nat} {n res bit : BitVec w}
    (hk : k ≤ top + 1) (hbit : bit.toNat = if k = 0 then 0 else 4 ^ (k - 1))
    (hdigits : Digits radicand k r n.toNat res.toNat) (hne : bit ≠ 0) :
    ∃ j, k = j + 1 ∧ Round radicand (top + 1) j r n res bit := by
  cases k with
  | zero => exact absurd (BitVec.eq_of_toNat_eq (by simpa using hbit)) hne
  | succ j => exact ⟨j, rfl, by simpa using hbit, hdigits, h.close, hk, h.room⟩

theorem Running.step (h : Room w radicand top) (hs : Running radicand top s) :
    Running radicand top (rootStep s) := by
  obtain ⟨loop, n, res, bit⟩ := s
  cases loop with
  | shrink =>
    obtain ⟨hn, hres, j, hj, hbit, hclose⟩ := hs
    have hn : n.toNat = radicand := hn
    have hbit : bit.toNat = 4 ^ j := hbit
    by_cases hlt : n < bit
    · rw [rootStep_shrink, if_pos hlt]
      rw [BitVec.lt_def, hn, hbit] at hlt
      cases j with
      | zero =>
        have hpos := h.pos
        omega
      | succ j => exact ⟨hn, hres, j, by omega, toNat_quarter hbit, hlt⟩
    · rw [rootStep_shrink, if_neg hlt]
      subst hres
      refine ⟨j + 1, 0, by omega, by simpa using hbit, ?_⟩
      rw [hn, BitVec.ofNat_eq_ofNat, BitVec.toNat_ofNat, Nat.zero_mod]
      exact .start hclose
  | digits =>
    obtain ⟨k, r, hk, hbit, hdigits⟩ := hs
    by_cases hzero : bit = 0
    · rw [rootStep_digits, if_pos hzero]
      trivial
    · obtain ⟨j, rfl, hround⟩ := h.round hk hbit hdigits hzero
      by_cases hle : res + bit ≤ n
      · rw [rootStep_digits, if_neg hzero, if_pos hle]
        exact ⟨j, _, by omega, hround.toNat_next, hround.take hle⟩
      · rw [rootStep_digits, if_neg hzero, if_neg hle]
        exact ⟨j, _, by omega, hround.toNat_next, hround.skip hle⟩
  | done => trivial

theorem Running.run (h : Room w radicand top) (hs : Running radicand top s) (k : Nat) :
    Running radicand top (rootStep^[k] s) := by
  induction k with
  | zero => exact hs
  | succ k ih =>
    rw [Function.iterate_succ_apply']
    exact ih.step h

theorem Running.noWrap (h : Room w radicand top) (hs : Running radicand top s) : NoWrap s := by
  intro hloop hne
  unfold Running at hs
  rw [hloop] at hs
  obtain ⟨k, r, hk, hbit, hdigits⟩ := hs
  obtain ⟨j, rfl, hround⟩ := h.round hk hbit hdigits hne
  have hfits := hround.fits
  refine ⟨hfits, fun hle => ⟨?_, ?_⟩⟩
  · rwa [BitVec.le_def, hround.toNat_sum, ← hround.bit_eq] at hle
  · rw [toNat_half]
    omega

/-- The run from a radicand and a large enough power of four. -/
theorem run_exact {n bit : BitVec w} (h : Room w n.toNat top) (hbit : bit.toNat = 4 ^ top) :
    (∀ k, NoWrap (rootStep^[k] (rootStart n bit))) ∧
    ∃ k, (rootStep^[k] (rootStart n bit)).loop = .done ∧
      (rootStep^[k] (rootStart n bit)).res = isqrt n bit ∧
      (isqrt n bit).toNat = Nat.sqrt n.toNat := by
  have hstart : Running n.toNat top (rootStart n bit) := ⟨rfl, rfl, top, le_rfl, hbit, h.close⟩
  obtain ⟨k, n', hk⟩ := rootStart_reaches n bit
  exact ⟨fun k => (hstart.run h k).noWrap h,
    k, by rw [hk], by rw [hk], toNat_isqrt hbit h.pos h.close h.room⟩

/-! ## Main result -/

/-- `cb_fx16_sqrt` at the beginning of its first loop. -/
def sqrtStart16 (v : Int32) : RootState 64 :=
  rootStart (v.toUInt32.toUInt64 <<< 16).toBitVec ((1 : UInt64) <<< 46).toBitVec

/-- `cb_fx32_sqrt` at the beginning of its first loop. -/
def sqrtStart32 (v : Int64) : RootState 128 :=
  rootStart (v.toUInt64.toBitVec.setWidth 128 <<< 32) ((1 : BitVec 128) <<< 94)

/-- `result` is the exact floor of the root of `radicand`, found by a run from `s`. -/
structure ExactRoot (s : RootState w) (radicand : Nat) (result : Int) : Prop where
  /-- The run starts with the whole radicand. -/
  radicand_eq : s.n.toNat = radicand
  noWrap : ∀ k, NoWrap (rootStep^[k] s)
  /-- The loops end, and the conversion to the signed result keeps the value. -/
  ends : ∃ k, (rootStep^[k] s).loop = .done ∧ ((rootStep^[k] s).res.toNat : Int) = result
  floor : 0 ≤ result ∧ result ^ 2 ≤ radicand ∧ (radicand : Int) < (result + 1) ^ 2

theorem exactRoot {n bit : BitVec w} (h : Room w n.toNat top) (hbit : bit.toNat = 4 ^ top) {result : Int}
    (hresult : result = (Nat.sqrt n.toNat : Nat)) :
    ExactRoot (rootStart n bit) n.toNat result := by
  obtain ⟨hwrap, k, hdone, hres, hroot⟩ := run_exact h hbit
  have hle := Nat.sqrt_le' n.toNat
  have hlt := Nat.lt_succ_sqrt' n.toNat
  refine ⟨rfl, hwrap, ⟨k, hdone, by rw [hres, hroot, hresult]⟩, ?_⟩
  rw [hresult]
  exact ⟨Int.natCast_nonneg _, by exact_mod_cast hle, by exact_mod_cast hlt⟩

/-- Both square roots are exact floors, their loops end, and nothing wraps on the way. -/
theorem sqrt_exact_floor :
    (∀ v : Int32, 0 < v.toInt →
      ExactRoot (sqrtStart16 v) (v.toInt.toNat * 2 ^ 16) (fx16Sqrt v).toInt) ∧
    ∀ v : Int64, 0 < v.toInt →
      ExactRoot (sqrtStart32 v) (v.toInt.toNat * 2 ^ 32) (fx32Sqrt v).toInt := by
  constructor
  · intro v hv
    have hhi := v.toInt_lt
    have hn := toNat_radicand16 hv
    have hbit : (((1 : UInt64) <<< 46).toBitVec).toNat = 4 ^ 23 := by decide
    rw [← hn]
    exact exactRoot ⟨by omega, by omega, by decide⟩ hbit (by rw [hn]; exact toInt_fx16Sqrt hv)
  · intro v hv
    have hhi := v.toInt_lt
    have hn := toNat_radicand32 hv
    have hbit : ((1 : BitVec 128) <<< 94).toNat = 4 ^ 47 := by decide
    rw [← hn]
    exact exactRoot ⟨by omega, by omega, by decide⟩ hbit (by rw [hn]; exact toInt_fx32Sqrt hv)

/-- The root of the smallest positive value. -/
theorem sqrt_exact_floor_one :
    ExactRoot (sqrtStart16 1) 65536 (fx16Sqrt 1).toInt :=
  sqrt_exact_floor.1 1 (by decide)

end CBase.Fixed
