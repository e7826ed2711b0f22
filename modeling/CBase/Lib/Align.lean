import Mathlib.Data.Nat.Bitwise

/-!
# Rounding up to a power of two

`x &&& ~(2 ^ k - 1)` clears the low `k` bits of a word, so `(x + m) &&& ~m` with `m = 2 ^ k - 1`
rounds `x` up to a multiple of `2 ^ k` as long as the sum does not wrap.
-/

namespace Align

/-- Masking the low bits of a word away rounds it down. -/
theorem and_high_mask {w k y : Nat} (hk : k ≤ w) (hy : y < 2 ^ w) :
    y &&& (2 ^ w - 2 ^ k) = y / 2 ^ k * 2 ^ k := by
  have hmask : 2 ^ w - 2 ^ k = 2 ^ k * (2 ^ (w - k) - 1) := by
    rw [Nat.mul_sub, Nat.mul_one, ← Nat.pow_add, Nat.add_sub_cancel' hk]
  rw [hmask, Nat.mul_comm (y / 2 ^ k)]
  refine Nat.eq_of_testBit_eq fun i => ?_
  rw [Nat.testBit_and, Nat.testBit_two_pow_mul, Nat.testBit_two_pow_mul,
    Nat.testBit_two_pow_sub_one, Nat.testBit_div_two_pow]
  rcases Nat.lt_or_ge i k with hik | hik
  · simp [Nat.not_le.mpr hik]
  · rcases Nat.lt_or_ge (i - k) (w - k) with hw | hw
    · simp [hik, hw]
    · have hbit : y.testBit i = false :=
        Nat.testBit_lt_two_pow (Nat.lt_of_lt_of_le hy (Nat.pow_le_pow_right (by omega) (by omega)))
      simp [hik, hbit]

def PowerOfTwo (a : UInt64) : Prop := ∃ k, k < 64 ∧ a.toNat = 2 ^ k

/-- `(x + (a - 1)) & ~(a - 1)`. -/
def up (x a : UInt64) : UInt64 :=
  let mask := a - 1
  (x + mask) &&& ~~~mask

theorem PowerOfTwo.pos {a : UInt64} (ha : PowerOfTwo a) : 0 < a.toNat := by
  obtain ⟨k, _, hk⟩ := ha
  rw [hk]
  exact Nat.two_pow_pos k

/-- Of two powers of two the smaller divides the larger. -/
theorem PowerOfTwo.dvd {a b : UInt64} (ha : PowerOfTwo a) (hb : PowerOfTwo b) (hle : a ≤ b) :
    a.toNat ∣ b.toNat := by
  obtain ⟨k, _, hk⟩ := ha
  obtain ⟨l, _, hl⟩ := hb
  rw [UInt64.le_iff_toNat_le, hk, hl] at hle
  rw [hk, hl]
  exact Nat.pow_dvd_pow 2 ((Nat.pow_le_pow_iff_right (by decide)).mp hle)

theorem PowerOfTwo.dvd_size {a : UInt64} (ha : PowerOfTwo a) : a.toNat ∣ 2 ^ 64 := by
  obtain ⟨k, hk, hak⟩ := ha
  rw [hak]
  exact Nat.pow_dvd_pow 2 (Nat.le_of_lt hk)

/-- Adding a multiple keeps what is a multiple, also where the sum wraps. -/
theorem PowerOfTwo.dvd_add_iff {a : UInt64} (ha : PowerOfTwo a) {x y : UInt64}
    (hy : a.toNat ∣ y.toNat) : a.toNat ∣ (x + y).toNat ↔ a.toNat ∣ x.toNat := by
  rw [UInt64.toNat_add, Nat.dvd_mod_iff ha.dvd_size]
  exact (Nat.dvd_add_iff_left hy).symm

theorem PowerOfTwo.toNat_sub_one {a : UInt64} (ha : PowerOfTwo a) :
    (a - 1).toNat = a.toNat - 1 := by
  have := ha.pos
  rw [UInt64.toNat_sub_of_le _ _ (by rw [UInt64.le_iff_toNat_le, UInt64.toNat_one]; omega),
    UInt64.toNat_one]

/-- `x` rounded up to a multiple of `a`, in the natural numbers. -/
def roundUp (x a : Nat) : Nat := (x + (a - 1)) / a * a

theorem roundUp_zero {a : Nat} (ha : 0 < a) : roundUp 0 a = 0 := by
  rw [roundUp, Nat.zero_add, Nat.div_eq_of_lt (Nat.sub_lt ha Nat.one_pos), Nat.zero_mul]

theorem le_roundUp {a : Nat} (ha : 0 < a) (x : Nat) : x ≤ roundUp x a := by
  have hdiv := Nat.div_add_mod (x + (a - 1)) a
  have hmod := Nat.mod_lt (x + (a - 1)) ha
  rw [roundUp, Nat.mul_comm]
  omega

theorem dvd_roundUp (x a : Nat) : a ∣ roundUp x a := Nat.dvd_mul_left _ _

/-- The value of the rounding: it wraps as a sum does. -/
theorem toNat_up_mod {x a : UInt64} (ha : PowerOfTwo a) :
    (up x a).toNat = roundUp x.toNat a.toNat % 2 ^ 64 := by
  have hsub := ha.toNat_sub_one
  obtain ⟨k, hk, hak⟩ := ha
  have hmask : UInt64.size - 1 - (a - 1).toNat = 2 ^ 64 - 2 ^ k := by
    have hk' := Nat.two_pow_pos k
    rw [hsub, hak]
    change 2 ^ 64 - 1 - (2 ^ k - 1) = 2 ^ 64 - 2 ^ k
    omega
  have hpow : 2 ^ 64 = 2 ^ k * 2 ^ (64 - k) := by
    rw [← Nat.pow_add, Nat.add_sub_cancel' (Nat.le_of_lt hk)]
  rw [up, UInt64.toNat_and, UInt64.toNat_not, hmask, UInt64.toNat_add,
    and_high_mask (Nat.le_of_lt hk) (Nat.mod_lt _ (Nat.two_pow_pos 64)), hsub, roundUp, hak, hpow,
    Nat.mod_mul_right_div_self, Nat.mul_comm (2 ^ k) (2 ^ (64 - k)), Nat.mul_mod_mul_right]

/-- The value of the rounding, when the sum does not wrap. -/
theorem toNat_up {x a : UInt64} (ha : PowerOfTwo a) (hx : x.toNat + (a - 1).toNat < 2 ^ 64) :
    (up x a).toNat = (x.toNat + (a.toNat - 1)) / a.toNat * a.toNat := by
  rw [ha.toNat_sub_one] at hx
  rw [toNat_up_mod ha, roundUp,
    Nat.mod_eq_of_lt (Nat.lt_of_le_of_lt (Nat.div_mul_le_self _ _) hx)]

/-- Rounding up does not go below. -/
theorem le_up {x a : UInt64} (ha : PowerOfTwo a) (hx : x.toNat + (a - 1).toNat < 2 ^ 64) :
    x.toNat ≤ (up x a).toNat := by
  rw [toNat_up ha hx]
  exact le_roundUp ha.pos x.toNat

/-- The result is a multiple of the alignment, also where the sum wraps. -/
theorem dvd_up {x a : UInt64} (ha : PowerOfTwo a) : a.toNat ∣ (up x a).toNat := by
  rw [toNat_up_mod ha, Nat.dvd_mod_iff ha.dvd_size]
  exact dvd_roundUp x.toNat a.toNat

/-- The start of a block is aligned already. -/
theorem up_zero {a : UInt64} (ha : PowerOfTwo a) : up 0 a = 0 := by
  refine UInt64.toNat_inj.mp ?_
  rw [toNat_up_mod ha, UInt64.toNat_zero, roundUp_zero ha.pos, Nat.zero_mod]

end Align
