import Mathlib.Data.Nat.Sqrt
import Mathlib.Tactic.Linarith
import Mathlib.Tactic.Ring

/-!
# Square roots digit by digit

The root is found from its highest binary digit down. `Digits` is what holds between two digits: `r`
has the digits found, `n` is what is left of the radicand, and `res` is the root scaled to the next
digit.

* `Digits.take`, `Digits.skip`: one digit.
* `Digits.finish`: after the last digit the scaled root is `Nat.sqrt`.
* `sqrt_div_square`: fewer digits of the radicand give the same root with fewer digits.
-/

namespace SquareRoot

/-- `k` digits are still to be found. -/
structure Digits (radicand k r n res : Nat) : Prop where
  rest : r * r + n = radicand
  close : radicand < (r + 2 ^ k) * (r + 2 ^ k)
  scaled : res = r * 2 ^ k

variable {radicand k r n res : Nat}

theorem Digits.start (h : radicand < 4 ^ k) : Digits radicand k 0 radicand 0 where
  rest := by simp
  close := by rwa [Nat.zero_add, ← Nat.mul_pow]
  scaled := by simp

/-- The next digit is one. -/
theorem Digits.take (h : Digits radicand (k + 1) r n res) (hle : res + 4 ^ k ≤ n) :
    Digits radicand k (r + 2 ^ k) (n - (res + 4 ^ k)) (res / 2 + 4 ^ k) := by
  obtain ⟨hrest, hclose, rfl⟩ := h
  have hfour : 4 ^ k = 2 ^ k * 2 ^ k := by rw [← Nat.mul_pow]
  have hhalf : r * 2 ^ (k + 1) / 2 = r * 2 ^ k := by
    rw [Nat.pow_succ, ← Nat.mul_assoc, Nat.mul_div_cancel _ Nat.two_pos]
  refine ⟨?_, ?_, ?_⟩
  · have hexpand : (r + 2 ^ k) * (r + 2 ^ k) = r * r + (r * 2 ^ (k + 1) + 4 ^ k) := by
      rw [hfour]
      ring
    omega
  · have hsame : r + 2 ^ k + 2 ^ k = r + 2 ^ (k + 1) := by ring
    rwa [hsame]
  · rw [hhalf, hfour]
    ring

/-- The next digit is zero. -/
theorem Digits.skip (h : Digits radicand (k + 1) r n res) (hlt : n < res + 4 ^ k) :
    Digits radicand k r n (res / 2) := by
  obtain ⟨hrest, -, rfl⟩ := h
  have hfour : 4 ^ k = 2 ^ k * 2 ^ k := by rw [← Nat.mul_pow]
  refine ⟨hrest, ?_, ?_⟩
  · have hexpand : (r + 2 ^ k) * (r + 2 ^ k) = r * r + (r * 2 ^ (k + 1) + 4 ^ k) := by
      rw [hfour]
      ring
    omega
  · rw [Nat.pow_succ, ← Nat.mul_assoc, Nat.mul_div_cancel _ Nat.two_pos]

theorem Digits.finish (h : Digits radicand 0 r n res) : res = Nat.sqrt radicand := by
  obtain ⟨hrest, hclose, rfl⟩ := h
  rw [Nat.pow_zero, Nat.mul_one]
  refine Nat.le_antisymm (Nat.le_sqrt.mpr (by omega)) ?_
  exact Nat.lt_succ_iff.mp (Nat.sqrt_lt.mpr hclose)

/-- The scaled root needs no more digits than the radicand. -/
theorem Digits.scaled_lt {width : Nat} (h : Digits radicand k r n res) (hwidth : radicand < 4 ^ width)
    (hk : k ≤ width) : res < 4 ^ width := by
  obtain ⟨hrest, -, rfl⟩ := h
  refine Nat.mul_self_lt_mul_self_iff.mp ?_
  calc r * 2 ^ k * (r * 2 ^ k) = r * r * (2 * 2) ^ k := by rw [Nat.mul_pow]; ring
    _ ≤ radicand * 4 ^ k := Nat.mul_le_mul_right _ (by omega)
    _ < 4 ^ width * 4 ^ k := Nat.mul_lt_mul_of_pos_right hwidth (Nat.pow_pos (by decide))
    _ ≤ 4 ^ width * 4 ^ width := Nat.mul_le_mul_left _ (Nat.pow_le_pow_right (by decide) hk)

/-- The root of a radicand without its last digits is the root without its last digits. -/
theorem sqrt_div_square (n : Nat) {d : Nat} (hd : 0 < d) : Nat.sqrt (n / (d * d)) = Nat.sqrt n / d := by
  have hle : ∀ m, m ≤ Nat.sqrt (n / (d * d)) ↔ m ≤ Nat.sqrt n / d := by
    intro m
    rw [Nat.le_sqrt, Nat.le_div_iff_mul_le (Nat.mul_pos hd hd), Nat.le_div_iff_mul_le hd, Nat.le_sqrt,
      Nat.mul_mul_mul_comm]
  exact Nat.le_antisymm ((hle _).mp le_rfl) ((hle _).mpr le_rfl)

end SquareRoot
