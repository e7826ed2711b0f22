import Mathlib.Order.Monotone.Basic
import Mathlib.Tactic.Linarith
import Mathlib.Tactic.Ring

/-!
# Angles by octants

The angle of a vector of natural numbers from a function `g` of the ratio of its shorter to its longer
side: `angle g one quarter y x` is `g` of the ratio below the diagonal and its complement to `quarter`
above. Ratios are counted in units of `1 / one` and rounded down.

* `angle_mono`: for a monotone `g` the angle follows the angular order of the vectors.
* `angle_swap`: reflection at the diagonal is the complement.
* `interpolate_mono`: interpolation in a sorted table is such a `g`.
-/

namespace Octants

/-! ## Interpolation -/

/-- The table at `t / w`, and between its entries the line through them, rounded down. -/
def interpolate (table : ℕ → ℕ) (w t : ℕ) : ℕ :=
  table (t / w) + (table (t / w + 1) - table (t / w)) * (t % w) / w

variable {table : ℕ → ℕ} {w : ℕ}

theorem interpolate_mul (hw : 0 < w) (i : ℕ) : interpolate table w (i * w) = table i := by
  rw [interpolate, Nat.mul_div_cancel _ hw, Nat.mul_mod_left, Nat.mul_zero, Nat.zero_div, Nat.add_zero]

theorem le_interpolate (t : ℕ) : table (t / w) ≤ interpolate table w t := Nat.le_add_right _ _

theorem interpolate_le (htable : Monotone table) (hw : 0 < w) (t : ℕ) :
    interpolate table w t ≤ table (t / w + 1) := by
  have hstep : table (t / w) ≤ table (t / w + 1) := htable (Nat.le_succ _)
  have hpart : (table (t / w + 1) - table (t / w)) * (t % w) / w ≤ table (t / w + 1) - table (t / w) := by
    refine Nat.div_le_of_le_mul ?_
    rw [Nat.mul_comm w]
    exact Nat.mul_le_mul_left _ (Nat.mod_lt t hw).le
  rw [interpolate]
  omega

theorem interpolate_mono (htable : Monotone table) (hw : 0 < w) : Monotone (interpolate table w) := by
  intro s t hst
  rcases Nat.lt_or_ge (s / w) (t / w) with hcell | hcell
  · calc interpolate table w s ≤ table (s / w + 1) := interpolate_le htable hw s
      _ ≤ table (t / w) := htable hcell
      _ ≤ interpolate table w t := le_interpolate t
  · have hsame : s / w = t / w := Nat.le_antisymm (Nat.div_le_div_right hst) hcell
    have hmod : s % w ≤ t % w := by
      have hs := Nat.div_add_mod s w
      have ht := Nat.div_add_mod t w
      rw [hsame] at hs
      omega
    rw [interpolate, interpolate, hsame]
    exact Nat.add_le_add_left (Nat.div_le_div_right (Nat.mul_le_mul_left _ hmod)) _

/-! ## Angles -/

/-- The angle of the vector with the sides `y` and `x`. -/
def angle (g : ℕ → ℕ) (one quarter y x : ℕ) : ℕ :=
  if x < y then quarter - g (x * one / y) else g (y * one / x)

variable {g : ℕ → ℕ} {one quarter x y x₁ y₁ x₂ y₂ : ℕ}

/-- The ratio follows the angular order. -/
theorem ratio_mono (hx₁ : 0 < x₁) (hx₂ : 0 < x₂) (h : y₁ * x₂ ≤ y₂ * x₁) :
    y₁ * one / x₁ ≤ y₂ * one / x₂ := by
  rw [Nat.le_div_iff_mul_le hx₂]
  refine Nat.le_of_mul_le_mul_right ?_ hx₁
  calc y₁ * one / x₁ * x₂ * x₁ = y₁ * one / x₁ * x₁ * x₂ := by ring
    _ ≤ y₁ * one * x₂ := Nat.mul_le_mul_right _ (Nat.div_mul_le_self _ _)
    _ = y₁ * x₂ * one := by ring
    _ ≤ y₂ * x₁ * one := Nat.mul_le_mul_right _ h
    _ = y₂ * one * x₁ := by ring

theorem ratio_le (h : y ≤ x) : y * one / x ≤ one :=
  Nat.div_le_of_le_mul (Nat.mul_le_mul_right _ h)

theorem angle_le (hg : Monotone g) (hone : g one + g one = quarter) :
    angle g one quarter y x ≤ quarter := by
  unfold angle
  split
  · exact Nat.sub_le _ _
  · have hratio := hg (@ratio_le one x y (by omega))
    omega

/-- Reflection at the diagonal. -/
theorem angle_swap (hg : Monotone g) (hone : g one + g one = quarter) (hpos : 0 < x ∨ 0 < y) :
    angle g one quarter x y = quarter - angle g one quarter y x := by
  unfold angle
  rcases Nat.lt_trichotomy x y with hlt | rfl | hlt
  · have hratio := hg (@ratio_le one y x hlt.le)
    rw [if_neg (by omega), if_pos hlt]
    omega
  · have hx : 0 < x := by omega
    rw [if_neg (Nat.lt_irrefl x), Nat.mul_div_cancel_left _ hx]
    omega
  · rw [if_pos hlt, if_neg (by omega)]

/-- The angle follows the angular order, within an octant and across the diagonal. -/
theorem angle_mono (hg : Monotone g) (hone : g one + g one = quarter) (h₁ : 0 < x₁ ∨ 0 < y₁)
    (h₂ : 0 < x₂ ∨ 0 < y₂) (h : y₁ * x₂ ≤ y₂ * x₁) :
    angle g one quarter y₁ x₁ ≤ angle g one quarter y₂ x₂ := by
  unfold angle
  split_ifs with habove₁ habove₂ habove₂
  · have hratio := hg (@ratio_mono one y₂ x₂ y₁ x₁ (by omega) (by omega)
      (by rw [Nat.mul_comm x₂, Nat.mul_comm x₁]; exact h))
    omega
  · have hcross : y₂ * x₁ ≤ x₂ * x₁ := Nat.mul_le_mul_right _ (by omega)
    have hmore : x₂ * x₁ < x₂ * y₁ := Nat.mul_lt_mul_of_pos_left habove₁ (by omega)
    rw [Nat.mul_comm y₁] at h
    omega
  · have hratio₁ := hg (@ratio_le one x₁ y₁ (by omega))
    have hratio₂ := hg (@ratio_le one y₂ x₂ habove₂.le)
    omega
  · exact hg (ratio_mono (by omega) (by omega) h)

end Octants
