import Mathlib.Algebra.BigOperators.Intervals
import Mathlib.Algebra.Ring.GeomSum
import Mathlib.Data.Nat.Factorization.Basic
import Mathlib.Data.ZMod.Basic
import Mathlib.Tactic.LinearCombination
import Mathlib.Tactic.Ring

/-!
# The period of a linear congruential generator

Modulo `2 ^ k`, the map `z ↦ a * z + c` with `a % 4 = 1` and `c` odd goes through every residue from
every start (`lcg_reaches`).

`n` rounds add `lcgSum a n * ((a - 1) * x + c)` to the start `x`. The second factor is odd, so it is
a unit, and `lcgSum a` takes `2 ^ k` different values on the numbers below `2 ^ k`. So the generator
is back at its start after `2 ^ k` rounds and not before (`iterate_eq_self_iff`).

Two generators with different increments are, at some moment, exactly half the modulus apart
(`exists_mul_lcgSum`).
-/

namespace Lcg

/-- `1 + a + ⋯ + a ^ (n - 1)`. -/
def lcgSum (a : ℕ) : ℕ → ℕ
  | 0 => 0
  | n + 1 => a * lcgSum a n + 1

variable {a c k : ℕ}

theorem lcgSum_add (a m n : ℕ) : lcgSum a (m + n) = lcgSum a m + a ^ m * lcgSum a n := by
  induction m with
  | zero => simp [lcgSum]
  | succ m ih =>
    rw [Nat.add_right_comm, lcgSum, ih, lcgSum]
    ring

theorem lcgSum_double (a n : ℕ) : lcgSum a (n + n) = lcgSum a n * (1 + a ^ n) := by
  rw [lcgSum_add]
  ring

theorem pow_mod_four (ha : a % 4 = 1) (n : ℕ) : a ^ n % 4 = 1 := by
  rw [Nat.pow_mod, ha, Nat.one_pow]

theorem lcgSum_mod_two (ha : a % 4 = 1) (n : ℕ) : lcgSum a n % 2 = n % 2 := by
  induction n with
  | zero => rfl
  | succ n ih =>
    have ha2 : a % 2 = 1 := by omega
    rw [lcgSum, Nat.add_mod, Nat.mul_mod, ha2, ih]
    omega

/-- The sum is divisible by no higher power of two than the number of its terms. -/
theorem two_pow_dvd_of_dvd_lcgSum (ha : a % 4 = 1) {n : ℕ} (h : 2 ^ k ∣ lcgSum a n) :
    2 ^ k ∣ n := by
  induction k generalizing n with
  | zero => simp
  | succ k ih =>
    have heven : n % 2 = 0 := by
      rw [← lcgSum_mod_two ha n]
      exact Nat.mod_eq_zero_of_dvd ((dvd_pow_self 2 (Nat.succ_ne_zero k)).trans h)
    obtain ⟨m, rfl⟩ : ∃ m, n = m + m := ⟨n / 2, by omega⟩
    have hodd : ∃ q, 1 + a ^ m = 2 * q ∧ Nat.Coprime (2 ^ k) q := by
      refine ⟨(1 + a ^ m) / 2, ?_, Nat.Coprime.pow_left k ?_⟩
      · have := pow_mod_four ha m
        omega
      · rw [Nat.coprime_two_left, Nat.odd_iff]
        have := pow_mod_four ha m
        omega
    obtain ⟨q, hq, hcop⟩ := hodd
    rw [lcgSum_double, hq, pow_succ, show lcgSum a m * (2 * q) = lcgSum a m * q * 2 by ring] at h
    have hhalf : 2 ^ k ∣ lcgSum a m :=
      hcop.dvd_of_dvd_mul_right (Nat.dvd_of_mul_dvd_mul_right (by omega) h)
    rw [← Nat.two_mul, pow_succ, Nat.mul_comm]
    exact Nat.mul_dvd_mul_left 2 (ih hhalf)

theorem lcgSum_injOn (ha : a % 4 = 1) {m n : ℕ} (hm : m < 2 ^ k) (hn : n < 2 ^ k)
    (h : (lcgSum a m : ZMod (2 ^ k)) = lcgSum a n) : m = n := by
  wlog hle : m ≤ n generalizing m n
  · exact (this hn hm h.symm (by omega)).symm
  obtain ⟨d, rfl⟩ := Nat.exists_eq_add_of_le hle
  rw [lcgSum_add, Nat.cast_add, left_eq_add, ZMod.natCast_eq_zero_iff] at h
  have hcop : Nat.Coprime (2 ^ k) (a ^ m) := by
    refine Nat.Coprime.pow k m ?_
    rw [Nat.coprime_two_left, Nat.odd_iff]
    omega
  have hd := two_pow_dvd_of_dvd_lcgSum ha (hcop.dvd_of_dvd_mul_left h)
  have := Nat.eq_zero_of_dvd_of_lt hd (by omega)
  omega

theorem iterate_eq {R : Type} [CommRing R] (b c : R) (x : R) (a : ℕ) (hb : (a : R) = b + 1) (n : ℕ) :
    (fun z => a * z + c)^[n] x = x + lcgSum a n * (b * x + c) := by
  induction n with
  | zero => simp [lcgSum]
  | succ n ih =>
    rw [Function.iterate_succ_apply', ih, lcgSum]
    push_cast
    rw [hb]
    ring

theorem isUnit_of_odd {n : ℕ} (hn : n % 2 = 1) : IsUnit (n : ZMod (2 ^ k)) := by
  rw [ZMod.isUnit_iff_coprime]
  exact Nat.Coprime.pow_right k (by rwa [Nat.coprime_two_right, Nat.odd_iff])

theorem zmod_reaches (ha : a % 4 = 1) (hc : c % 2 = 1) (x y : ZMod (2 ^ k)) :
    ∃ n, n < 2 ^ k ∧ (fun z : ZMod (2 ^ k) => a * z + c)^[n] x = y := by
  obtain ⟨b, rfl⟩ : ∃ b, a = b + 1 := ⟨a - 1, by omega⟩
  have hiter (n : ℕ) := iterate_eq (b : ZMod (2 ^ k)) c x (b + 1) (by push_cast; ring) n
  have hunit : IsUnit ((b : ZMod (2 ^ k)) * x + c) := by
    have hodd : (b * x.val + c) % 2 = 1 := by
      have hb : b % 2 = 0 := by omega
      rw [Nat.add_mod, Nat.mul_mod, hb, Nat.zero_mul, Nat.zero_mod, hc]
    have hcast := isUnit_of_odd (k := k) hodd
    rwa [Nat.cast_add, Nat.cast_mul, ZMod.natCast_zmod_val] at hcast
  have hinj : Function.Injective fun n : Fin (2 ^ k) =>
      (fun z : ZMod (2 ^ k) => ((b + 1 : ℕ) : ZMod (2 ^ k)) * z + c)^[n] x := by
    intro m n hmn
    simp only [hiter] at hmn
    exact Fin.ext (lcgSum_injOn ha m.isLt n.isLt (hunit.mul_right_cancel (add_left_cancel hmn)))
  have hcard : Fintype.card (Fin (2 ^ k)) = Fintype.card (ZMod (2 ^ k)) := by
    rw [Fintype.card_fin, ZMod.card]
  obtain ⟨n, hn⟩ := ((Fintype.bijective_iff_injective_and_card _).mpr ⟨hinj, hcard⟩).2 y
  exact ⟨n, n.isLt, hn⟩

theorem natCast_iterate (a c k x n : ℕ) :
    (((fun z => (a * z + c) % 2 ^ k)^[n] x : ℕ) : ZMod (2 ^ k)) =
      (fun z : ZMod (2 ^ k) => a * z + c)^[n] x := by
  induction n with
  | zero => rfl
  | succ n ih =>
    rw [Function.iterate_succ_apply', Function.iterate_succ_apply', ZMod.natCast_mod, ← ih]
    push_cast
    rfl

/-- From every start the generator reaches every residue, within as many rounds as there are. -/
theorem lcg_reaches (ha : a % 4 = 1) (hc : c % 2 = 1) {x y : ℕ} (hx : x < 2 ^ k) (hy : y < 2 ^ k) :
    ∃ n, n < 2 ^ k ∧ (fun z => (a * z + c) % 2 ^ k)^[n] x = y := by
  obtain ⟨n, hn, heq⟩ := zmod_reaches (k := k) ha hc x y
  refine ⟨n, hn, ?_⟩
  have hlt : (fun z => (a * z + c) % 2 ^ k)^[n] x < 2 ^ k := by
    cases n with
    | zero => exact hx
    | succ n =>
      rw [Function.iterate_succ_apply']
      exact Nat.mod_lt _ (Nat.two_pow_pos k)
  rw [← natCast_iterate, ZMod.natCast_eq_natCast_iff] at heq
  exact Nat.ModEq.eq_of_lt_of_lt heq hlt hy

/-! ## The period -/

theorem dvd_lcgSum_two_pow (ha : a % 4 = 1) (k : ℕ) : 2 ^ k ∣ lcgSum a (2 ^ k) := by
  induction k with
  | zero => exact one_dvd _
  | succ k ih =>
    have heven : 2 ∣ 1 + a ^ 2 ^ k := by
      have := pow_mod_four ha (2 ^ k)
      omega
    rw [show 2 ^ (k + 1) = 2 ^ k + 2 ^ k by ring, lcgSum_double, ← Nat.mul_two]
    exact Nat.mul_dvd_mul ih heven

theorem dvd_lcgSum_mul (ha : a % 4 = 1) (k m : ℕ) : 2 ^ k ∣ lcgSum a (m * 2 ^ k) := by
  induction m with
  | zero => simp [lcgSum]
  | succ m ih =>
    rw [Nat.succ_mul, lcgSum_add]
    exact Nat.dvd_add ih ((dvd_lcgSum_two_pow ha k).mul_left _)

/-- The sum is divisible by the modulus exactly when the number of its terms is. -/
theorem two_pow_dvd_lcgSum_iff (ha : a % 4 = 1) {n : ℕ} : 2 ^ k ∣ lcgSum a n ↔ 2 ^ k ∣ n := by
  refine ⟨two_pow_dvd_of_dvd_lcgSum ha, ?_⟩
  rintro ⟨m, rfl⟩
  rw [Nat.mul_comm]
  exact dvd_lcgSum_mul ha k m

theorem isUnit_increment (ha : a % 2 = 0) (hc : c % 2 = 1) (x : ZMod (2 ^ k)) :
    IsUnit (a * x + c) := by
  have hodd : (a * x.val + c) % 2 = 1 := by
    rw [Nat.add_mod, Nat.mul_mod, ha, Nat.zero_mul, Nat.zero_mod, hc]
  have hcast := isUnit_of_odd (k := k) hodd
  rwa [Nat.cast_add, Nat.cast_mul, ZMod.natCast_zmod_val] at hcast

/-- The generator is back at its start after every `2 ^ k` rounds, and at no other time. -/
theorem iterate_eq_self_iff (ha : a % 4 = 1) (hc : c % 2 = 1) (x : ZMod (2 ^ k)) (n : ℕ) :
    (fun z : ZMod (2 ^ k) => a * z + c)^[n] x = x ↔ 2 ^ k ∣ n := by
  obtain ⟨b, rfl⟩ : ∃ b, a = b + 1 := ⟨a - 1, by omega⟩
  have hunit := isUnit_increment (a := b) (by omega) hc x
  rw [iterate_eq (b : ZMod (2 ^ k)) c x (b + 1) (by push_cast; ring) n, add_eq_left,
    hunit.mul_left_eq_zero, ZMod.natCast_eq_zero_iff, two_pow_dvd_lcgSum_iff ha]

/-- In `2 ^ k` rounds the generator takes every residue once. -/
theorem iterate_bijective (ha : a % 4 = 1) (hc : c % 2 = 1) (x : ZMod (2 ^ k)) :
    Function.Bijective fun n : Fin (2 ^ k) => (fun z : ZMod (2 ^ k) => a * z + c)^[n] x := by
  refine (Fintype.bijective_iff_surjective_and_card _).mpr ⟨fun y => ?_, ?_⟩
  · obtain ⟨n, hlt, hn⟩ := zmod_reaches ha hc x y
    exact ⟨⟨n, hlt⟩, hn⟩
  · rw [Fintype.card_fin, ZMod.card]

/-! ## Two generators -/

/-- How far two generators with the same factor are apart. -/
theorem iterate_sub_iterate {R : Type} [CommRing R] (a : ℕ) (c c' x x' : R) (n : ℕ) :
    (fun z => a * z + c')^[n] x' - (fun z => a * z + c)^[n] x =
      a ^ n * (x' - x) + lcgSum a n * (c' - c) := by
  induction n with
  | zero => simp [lcgSum]
  | succ n ih =>
    rw [Function.iterate_succ_apply', Function.iterate_succ_apply', lcgSum, pow_succ]
    push_cast
    linear_combination (a : R) * ih

theorem iterate_lcgSum {R : Type} [CommRing R] (a m n : ℕ) :
    (fun z : R => a * z + (1 : ℕ))^[n] (lcgSum a m : R) = lcgSum a (n + m) := by
  induction n with
  | zero => rw [Function.iterate_zero_apply, Nat.zero_add]
  | succ n ih =>
    rw [Function.iterate_succ_apply', ih, Nat.succ_add, lcgSum]
    push_cast
    rfl

/-- Some multiple of a number that is not zero is the highest power of two, also late in the
sequence of the sums. -/
theorem exists_mul_lcgSum (ha : a % 4 = 1) {d : ℕ} (hd : d ≠ 0) (hlt : d < 2 ^ (k + 1)) (m : ℕ) :
    ∃ n, (d * lcgSum a (n + m) : ZMod (2 ^ (k + 1))) = (2 ^ k : ℕ) := by
  obtain ⟨j, q, ⟨r, rfl⟩, rfl⟩ := Nat.exists_eq_two_pow_mul_odd hd
  have hj : j ≤ k := by
    have hpow : 2 ^ j < 2 ^ (k + 1) := (Nat.le_mul_of_pos_right _ (Nat.succ_pos _)).trans_lt hlt
    exact Nat.le_of_lt_succ ((Nat.pow_lt_pow_iff_right (by decide)).mp hpow)
  obtain ⟨n, -, hn⟩ := zmod_reaches (k := k + 1) ha (c := 1) rfl (lcgSum a m) (2 ^ (k - j) : ℕ)
  refine ⟨n, ?_⟩
  have hodd : 2 ^ j * (2 * r + 1) * 2 ^ (k - j) = 2 ^ (k + 1) * r + 2 ^ k := by
    rw [Nat.mul_right_comm, ← pow_add, Nat.add_sub_cancel' hj]
    ring
  rw [← iterate_lcgSum, hn, ← Nat.cast_mul, hodd, Nat.cast_add, Nat.cast_mul,
    ZMod.natCast_self, zero_mul, zero_add]

end Lcg
