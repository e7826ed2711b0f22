import CBase.Lib.Octants
import Mathlib

/-!
# The accuracy of an interpolated table

A table of `A * f (i * h)`, each entry within `ε`, and between two entries the line through them,
rounded down. When the derivative of `f` is Lipschitz with the constant `L`, a lookup is within
`ε + A * L * h ^ 2 + 1` of `A * f`.

* `abs_sub_tangent_le`: how far a function leaves its tangent.
* `abs_chord_sub_le`: how far it leaves a chord.
* `abs_interpolate_sub_le`: the lookup.
-/

namespace TableAccuracy

variable {f g : ℝ → ℝ} {L : ℝ}

/-- A function whose derivative is Lipschitz leaves its tangent by at most `L * u ^ 2 / 2`. -/
theorem abs_sub_tangent_le (hf : ∀ x, HasDerivAt f (g x) x) (hg : ∀ x y, |g x - g y| ≤ L * |x - y|)
    (x : ℝ) {u : ℝ} (hu : 0 ≤ u) : |f (x + u) - f x - u * g x| ≤ L * u ^ 2 / 2 := by
  have hdiff (v : ℝ) : HasDerivAt (fun v => f (x + v) - f x - v * g x) (g (x + v) - g x) v := by
    have hshift : HasDerivAt (fun v => f (x + v)) (g (x + v)) v := HasDerivAt.comp_const_add x v (hf (x + v))
    have hline : HasDerivAt (fun v => v * g x) (g x) v := by simpa using (hasDerivAt_id v).mul_const (g x)
    exact (hshift.sub_const (f x)).sub hline
  have hbound (v : ℝ) : HasDerivAt (fun v => L * v ^ 2 / 2) (L * v) v := by
    refine (((hasDerivAt_pow 2 v).const_mul L).div_const 2).congr_deriv ?_
    push_cast
    ring
  refine image_norm_le_of_norm_deriv_right_le_deriv_boundary (a := 0) (b := u)
    (fun v _ => (hdiff v).continuousAt.continuousWithinAt) (fun v _ => (hdiff v).hasDerivWithinAt)
    (by simp) hbound (fun v hv => ?_) ⟨hu, le_rfl⟩
  have hlip := hg (x + v) x
  rwa [add_sub_cancel_left, abs_of_nonneg hv.1] at hlip

/-- And a chord over a step `h` by at most `L * h ^ 2`. -/
theorem abs_chord_sub_le (hL : 0 ≤ L) (hf : ∀ x, HasDerivAt f (g x) x)
    (hg : ∀ x y, |g x - g y| ≤ L * |x - y|) (x : ℝ) {h t : ℝ} (hh : 0 ≤ h) (ht : 0 ≤ t) (ht' : t ≤ 1) :
    |f x + (f (x + h) - f x) * t - f (x + t * h)| ≤ L * h ^ 2 := by
  have hend := abs_sub_tangent_le hf hg x hh
  have hmid := abs_sub_tangent_le hf hg x (mul_nonneg ht hh)
  have hsplit : f x + (f (x + h) - f x) * t - f (x + t * h) =
      t * (f (x + h) - f x - h * g x) - (f (x + t * h) - f x - t * h * g x) := by ring
  have hsquare : (t * h) ^ 2 ≤ h ^ 2 := by
    rw [mul_pow]
    exact mul_le_of_le_one_left (sq_nonneg h) (pow_le_one₀ ht ht')
  calc |f x + (f (x + h) - f x) * t - f (x + t * h)|
      ≤ |t * (f (x + h) - f x - h * g x)| + |f (x + t * h) - f x - t * h * g x| := by
        rw [hsplit]
        exact abs_sub _ _
    _ ≤ 1 * (L * h ^ 2 / 2) + L * h ^ 2 / 2 := by
        refine add_le_add ?_ (hmid.trans ?_)
        · rw [abs_mul, abs_of_nonneg ht]
          exact mul_le_mul ht' hend (abs_nonneg _) zero_le_one
        · have := mul_le_mul_of_nonneg_left hsquare hL
          linarith
    _ = L * h ^ 2 := by ring

variable {table : ℕ → ℕ} {w t : ℕ} {A ε h : ℝ}

/-- The line between two entries, before it is rounded. -/
theorem cast_interpolate (htable : Monotone table) (hw : 0 < w) (t : ℕ) :
    ∃ r : ℝ, 0 ≤ r ∧ r < 1 ∧ (Octants.interpolate table w t : ℝ) = table (t / w) +
      ((table (t / w + 1) : ℝ) - table (t / w)) * ((t % w : ℕ) / w) - r := by
  have hstep : table (t / w) ≤ table (t / w + 1) := htable (Nat.le_succ _)
  have hw' : (0 : ℝ) < w := Nat.cast_pos.mpr hw
  refine ⟨(((table (t / w + 1) - table (t / w)) * (t % w) % w : ℕ) : ℝ) / w, by positivity, ?_, ?_⟩
  · rw [div_lt_one hw']
    exact Nat.cast_lt.mpr (Nat.mod_lt _ hw)
  · have hdiv := Nat.div_add_mod ((table (t / w + 1) - table (t / w)) * (t % w)) w
    have hcast := congrArg (Nat.cast (R := ℝ)) hdiv
    push_cast [Nat.cast_sub hstep] at hcast
    rw [Octants.interpolate]
    push_cast [Nat.cast_sub hstep]
    field_simp
    linarith

/-- A lookup is as accurate as the entries, the chord and the rounding make it. -/
theorem abs_interpolate_sub_le (htable : Monotone table) (hw : 0 < w) (hA : 0 ≤ A) (hL : 0 ≤ L)
    (hh : 0 ≤ h) (hf : ∀ x, HasDerivAt f (g x) x) (hg : ∀ x y, |g x - g y| ≤ L * |x - y|)
    (hnear : |(table (t / w) : ℝ) - A * f ((t / w : ℕ) * h)| ≤ ε)
    (hnear' : |(table (t / w + 1) : ℝ) - A * f ((t / w + 1 : ℕ) * h)| ≤ ε) :
    |(Octants.interpolate table w t : ℝ) - A * f (t / w * h)| ≤ ε + A * L * h ^ 2 + 1 := by
  obtain ⟨r, hr, hr', hline⟩ := cast_interpolate htable hw t
  have hw' : (0 : ℝ) < w := Nat.cast_pos.mpr hw
  generalize hτ : ((t % w : ℕ) : ℝ) / w = τ at hline
  have hτ0 : 0 ≤ τ := hτ ▸ by positivity
  have hτ1 : τ ≤ 1 := by
    rw [← hτ, div_le_one hw']
    exact Nat.cast_le.mpr (Nat.mod_lt t hw).le
  have hpos : (t : ℝ) / w = (t / w : ℕ) + τ := by
    have hdiv := congrArg (Nat.cast (R := ℝ)) (Nat.div_add_mod t w)
    push_cast at hdiv
    rw [← hτ, ← hdiv]
    field_simp
  have hchord := abs_chord_sub_le hL hf hg ((t / w : ℕ) * h) hh hτ0 hτ1
  have hnext : ((t / w + 1 : ℕ) : ℝ) * h = (t / w : ℕ) * h + h := by
    push_cast
    ring
  have harg : (t : ℝ) / w * h = (t / w : ℕ) * h + τ * h := by rw [hpos, add_mul]
  rw [hnext] at hnear'
  rw [harg, hline]
  generalize f ((t / w : ℕ) * h + τ * h) = y at hchord ⊢
  generalize f ((t / w : ℕ) * h + h) = y₁ at hchord hnear'
  generalize f ((t / w : ℕ) * h) = y₀ at hchord hnear
  generalize (table (t / w) : ℝ) = a at *
  generalize (table (t / w + 1) : ℝ) = b at *
  have hsplit : a + (b - a) * τ - r - A * y =
      ((1 - τ) * (a - A * y₀) + τ * (b - A * y₁)) + A * (y₀ + (y₁ - y₀) * τ - y) - r := by ring
  have hentries : |(1 - τ) * (a - A * y₀) + τ * (b - A * y₁)| ≤ ε := by
    rw [abs_le] at hnear hnear' ⊢
    constructor <;> nlinarith
  have hcurve : |A * (y₀ + (y₁ - y₀) * τ - y)| ≤ A * L * h ^ 2 := by
    rw [abs_mul, abs_of_nonneg hA, mul_assoc]
    exact mul_le_mul_of_nonneg_left hchord hA
  rw [hsplit]
  rw [abs_le] at hentries hcurve ⊢
  constructor <;> linarith

end TableAccuracy
