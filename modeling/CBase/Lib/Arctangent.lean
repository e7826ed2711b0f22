import Mathlib.Analysis.Calculus.MeanValue
import Mathlib.Analysis.SpecialFunctions.Complex.Arctan

/-!
# The angles of vectors

* `abs_arctan_sub_le`, `abs_slope_sub_le`: the arctangent and its derivative are Lipschitz.
* `arctanSum_bounds`: the arctangents of `i / w`, summed in integers.
* `HasAngle`: the angles of a vector, under the reflections and the rotations of the plane.
* `HasAngle.near`: a vector that moves a little turns a little.
* `HasAngle.unique`: the angles of a vector differ by full turns.
-/

namespace Arctangent

open Real

/-! ## The function -/

noncomputable def slope (x : ℝ) : ℝ := 1 / (1 + x ^ 2)

theorem slope_pos (x : ℝ) : 0 < slope x := one_div_pos.mpr (by positivity)

theorem slope_le_one (x : ℝ) : slope x ≤ 1 := (div_le_one (by positivity)).mpr (by linarith [sq_nonneg x])

theorem abs_arctan_sub_le (x y : ℝ) : |arctan x - arctan y| ≤ |x - y| := by
  have hderiv (z : ℝ) : HasDerivWithinAt arctan (slope z) Set.univ z := (hasDerivAt_arctan z).hasDerivWithinAt
  have hlip := convex_univ.norm_image_sub_le_of_norm_hasDerivWithin_le (C := 1) (fun z _ => hderiv z)
    (fun z _ => by rw [norm_eq_abs, abs_of_pos (slope_pos z)]; exact slope_le_one z)
    (Set.mem_univ y) (Set.mem_univ x)
  rwa [norm_eq_abs, norm_eq_abs, one_mul] at hlip

theorem abs_arctan_le (x : ℝ) : |arctan x| ≤ |x| := by
  simpa using abs_arctan_sub_le x 0

theorem abs_slope_sub_le (x y : ℝ) : |slope x - slope y| ≤ |x - y| := by
  have hx : 0 < 1 + x ^ 2 := by positivity
  have hy : 0 < 1 + y ^ 2 := by positivity
  have hsplit : slope x - slope y = (y - x) * (y + x) / ((1 + x ^ 2) * (1 + y ^ 2)) := by
    rw [slope, slope]
    field_simp
    ring
  have hsum : |y + x| ≤ (1 + x ^ 2) * (1 + y ^ 2) := by
    rw [abs_le]
    constructor <;> nlinarith [sq_nonneg (x + 1), sq_nonneg (x - 1), sq_nonneg (y + 1), sq_nonneg (y - 1),
      sq_nonneg (x * y)]
  rw [hsplit, abs_div, abs_mul, abs_of_pos (mul_pos hx hy), div_le_iff₀ (mul_pos hx hy), abs_sub_comm y x]
  exact mul_le_mul_of_nonneg_left hsum (abs_nonneg _)

theorem sub_cube_le_arctan {x : ℝ} (hx : 0 ≤ x) : x - x ^ 3 / 3 ≤ arctan x := by
  have hmono : Monotone fun x => arctan x - (x - x ^ 3 / 3) := by
    refine @monotone_of_hasDerivAt_nonneg _ (fun x => x ^ 4 / (1 + x ^ 2)) (fun x => ?_)
      (fun x => by positivity)
    have hcube := (hasDerivAt_id x).sub ((hasDerivAt_pow 3 x).div_const 3)
    refine ((hasDerivAt_arctan x).sub hcube).congr_deriv ?_
    have hpos : 1 + x ^ 2 ≠ 0 := by positivity
    field_simp
    push_cast
    ring
  have h := hmono hx
  simp only [arctan_zero] at h
  linarith

/-! ## The arctangents of a grid -/

/-- The sum of the arctangents of the steps, in units of `1 / N`. -/
def arctanSum (N w : ℕ) : ℕ → ℕ
  | 0 => 0
  | i + 1 => arctanSum N w i + N * w / (w * w + i * (i + 1))

theorem arctan_step {w : ℕ} (hw : 0 < w) (i : ℕ) :
    arctan ((i + 1 : ℕ) / w) = arctan (i / w) + arctan (w / (w * w + i * (i + 1))) := by
  have hw' : (0 : ℝ) < w := Nat.cast_pos.mpr hw
  have hprod : ((i + 1 : ℕ) : ℝ) / w * -(i / w) < 1 := by
    have : (0 : ℝ) ≤ ((i + 1 : ℕ) : ℝ) / w * (i / w) := by positivity
    linarith
  have hstep := arctan_add hprod
  have hquot : (((i + 1 : ℕ) : ℝ) / w + -(i / w)) / (1 - ((i + 1 : ℕ) : ℝ) / w * -(i / w)) =
      w / (w * w + i * (i + 1)) := by
    have hgrid : (w : ℝ) * w + i * (i + 1) ≠ 0 := by positivity
    have hden : 1 - ((i + 1 : ℕ) : ℝ) / w * -(i / w) = (w * w + i * (i + 1)) / (w * w) := by
      push_cast
      field_simp
      ring
    have hnum : ((i + 1 : ℕ) : ℝ) / w + -(i / w) = 1 / w := by
      push_cast
      ring
    rw [hden, hnum]
    field_simp
  rw [hquot, arctan_neg] at hstep
  linarith

theorem arctanSum_bounds (N : ℕ) {w : ℕ} (hw : 0 < w) (i : ℕ) :
    (arctanSum N w i : ℝ) - i * (N / (3 * w ^ 3)) ≤ N * arctan (i / w) ∧
      N * arctan (i / w) ≤ arctanSum N w i + i := by
  have hw' : (0 : ℝ) < w := Nat.cast_pos.mpr hw
  induction i with
  | zero => simp [arctanSum]
  | succ i ih =>
    obtain ⟨hlow, hhigh⟩ := ih
    generalize hx : (w : ℝ) / (w * w + i * (i + 1)) = x
    have hden : (0 : ℝ) < w * w + i * (i + 1) := by positivity
    have hx0 : 0 ≤ x := hx ▸ by positivity
    have hx1 : x ≤ 1 / w := by
      rw [← hx, div_le_div_iff₀ hden hw']
      nlinarith [(Nat.cast_nonneg i : (0 : ℝ) ≤ i)]
    have hupper := (le_abs_self _).trans (abs_arctan_le x)
    rw [abs_of_nonneg hx0] at hupper
    have hlower := sub_cube_le_arctan hx0
    have hcube : x ^ 3 ≤ 1 / w ^ 3 := by
      rw [← one_div_pow]
      exact pow_le_pow_left₀ hx0 hx1 3
    have hfloor : ((N * w / (w * w + i * (i + 1)) : ℕ) : ℝ) ≤ N * x := by
      refine Nat.cast_div_le.trans (le_of_eq ?_)
      rw [← hx]
      push_cast
      ring
    have hceil : N * x < (N * w / (w * w + i * (i + 1)) : ℕ) + 1 := by
      have hlt : N * w < (N * w / (w * w + i * (i + 1)) + 1) * (w * w + i * (i + 1)) :=
        (Nat.div_lt_iff_lt_mul (by positivity)).mp (Nat.lt_succ_self _)
      rw [← hx, mul_div_assoc', div_lt_iff₀ hden]
      exact_mod_cast hlt
    have hN : (0 : ℝ) ≤ N := Nat.cast_nonneg N
    have hstep : (N : ℝ) * arctan ((i + 1 : ℕ) / w) = N * arctan (i / w) + N * arctan x := by
      rw [arctan_step hw, hx, mul_add]
    have hnear : (N : ℝ) * x - N / (3 * w ^ 3) ≤ N * arctan x := by
      have hscale := mul_le_mul_of_nonneg_left (hlower.trans' (sub_le_sub_left (div_le_div_of_nonneg_right
        hcube (by norm_num : (0 : ℝ) ≤ 3)) x)) hN
      have hthird : (N : ℝ) * (x - 1 / w ^ 3 / 3) = N * x - N / (3 * w ^ 3) := by
        field_simp
      rwa [hthird] at hscale
    have hfar := mul_le_mul_of_nonneg_left hupper hN
    rw [hstep, arctanSum]
    push_cast at hfloor hceil ⊢
    constructor <;> linarith

/-! ## Angles -/

variable {x y θ : ℝ}

/-- `θ` is an angle of the vector with the sides `x` and `y`. -/
def HasAngle (θ x y : ℝ) : Prop := ∃ ρ, 0 ≤ ρ ∧ x = ρ * cos θ ∧ y = ρ * sin θ

theorem HasAngle.arctan (hx : 0 < x) : HasAngle (arctan (y / x)) x y := by
  have hcos := cos_arctan_pos (y / x)
  have htan := tan_arctan (y / x)
  rw [tan_eq_sin_div_cos, div_eq_div_iff hcos.ne' hx.ne'] at htan
  refine ⟨x / cos (Real.arctan (y / x)), (div_pos hx hcos).le, (div_mul_cancel₀ x hcos.ne').symm, ?_⟩
  field_simp
  linarith

theorem HasAngle.swap (h : HasAngle θ x y) : HasAngle (π / 2 - θ) y x := by
  obtain ⟨ρ, hρ, hx, hy⟩ := h
  exact ⟨ρ, hρ, by rwa [cos_pi_div_two_sub], by rwa [sin_pi_div_two_sub]⟩

theorem HasAngle.neg (h : HasAngle θ x y) : HasAngle (-θ) x (-y) := by
  obtain ⟨ρ, hρ, hx, hy⟩ := h
  exact ⟨ρ, hρ, by rwa [cos_neg], by rw [sin_neg, hy, mul_neg]⟩

theorem HasAngle.mirror (h : HasAngle θ x y) : HasAngle (π - θ) (-x) y := by
  obtain ⟨ρ, hρ, hx, hy⟩ := h
  exact ⟨ρ, hρ, by rw [cos_pi_sub, hx, mul_neg], by rwa [sin_pi_sub]⟩

theorem HasAngle.turn (h : HasAngle θ x y) (k : ℤ) : HasAngle (θ + k * (2 * π)) x y := by
  obtain ⟨ρ, hρ, hx, hy⟩ := h
  exact ⟨ρ, hρ, by rwa [cos_add_int_mul_two_pi], by rwa [sin_add_int_mul_two_pi]⟩

theorem HasAngle.rotate (h : HasAngle θ x y) (φ : ℝ) :
    HasAngle (φ + θ) (x * cos φ - y * sin φ) (x * sin φ + y * cos φ) := by
  obtain ⟨ρ, hρ, rfl, rfl⟩ := h
  refine ⟨ρ, hρ, ?_, ?_⟩
  · rw [cos_add]
    ring
  · rw [sin_add]
    ring

theorem abs_combination_le {a b e c s : ℝ} (ha : |a| ≤ e) (hb : |b| ≤ e) (hc : |c| ≤ 1) (hs : |s| ≤ 1) :
    |a * c + b * s| ≤ 2 * e := by
  have he := (abs_nonneg a).trans ha
  calc |a * c + b * s| ≤ |a| * |c| + |b| * |s| := by
        rw [← abs_mul, ← abs_mul]
        exact abs_add_le _ _
    _ ≤ e * 1 + e * 1 := add_le_add (mul_le_mul ha hc (abs_nonneg c) he) (mul_le_mul hb hs (abs_nonneg s) he)
    _ = 2 * e := by ring

/-- A vector whose sides change by at most `e`. -/
theorem HasAngle.near {ρ x' y' e : ℝ} (hx : |x' - ρ * cos θ| ≤ e) (hy : |y' - ρ * sin θ| ≤ e)
    (hρ : 2 * e < ρ) : ∃ θ', HasAngle θ' x' y' ∧ |θ' - θ| ≤ 2 * e / (ρ - 2 * e) := by
  generalize hu : (x' - ρ * cos θ) * cos θ + (y' - ρ * sin θ) * sin θ = u
  generalize hv : (y' - ρ * sin θ) * cos θ + (x' - ρ * cos θ) * -sin θ = v
  have hu' : |u| ≤ 2 * e := hu ▸ abs_combination_le hx hy (abs_cos_le_one θ) (abs_sin_le_one θ)
  have hv' : |v| ≤ 2 * e :=
    hv ▸ abs_combination_le hy hx (abs_cos_le_one θ) ((abs_neg _).trans_le (abs_sin_le_one θ))
  have hlong : ρ - 2 * e ≤ ρ + u := by linarith [neg_le_of_abs_le hu']
  have hpos : 0 < ρ + u := by linarith
  have hunit := sin_sq_add_cos_sq θ
  have hangle := (HasAngle.arctan (y := v) hpos).rotate θ
  have hx' : (ρ + u) * cos θ - v * sin θ = x' := by
    rw [← hu, ← hv]
    linear_combination (x' - ρ * cos θ) * hunit
  have hy' : (ρ + u) * sin θ + v * cos θ = y' := by
    rw [← hu, ← hv]
    linear_combination (y' - ρ * sin θ) * hunit
  rw [hx', hy'] at hangle
  refine ⟨_, hangle, ?_⟩
  rw [add_sub_cancel_left]
  refine (abs_arctan_le _).trans ?_
  rw [abs_div, abs_of_pos hpos]
  exact div_le_div₀ ((abs_nonneg v).trans hv') hv' (by linarith) hlong

/-- A vector has one angle, up to full turns. -/
theorem HasAngle.unique {φ : ℝ} (h : HasAngle θ x y) (h' : HasAngle φ x y) (hne : ¬ (x = 0 ∧ y = 0)) :
    ∃ k : ℤ, θ - φ = 2 * π * k := by
  obtain ⟨ρ, hρ, hx, hy⟩ := h
  obtain ⟨σ, hσ, hx', hy'⟩ := h'
  have hlen : ρ ^ 2 = σ ^ 2 := by
    have h₁ := sin_sq_add_cos_sq θ
    have h₂ := sin_sq_add_cos_sq φ
    have hsum : (ρ * cos θ) ^ 2 + (ρ * sin θ) ^ 2 = (σ * cos φ) ^ 2 + (σ * sin φ) ^ 2 := by
      rw [← hx, ← hy, ← hx', ← hy']
    linear_combination hsum - ρ ^ 2 * h₁ + σ ^ 2 * h₂
  have heq : ρ = σ := (sq_eq_sq₀ hρ hσ).mp hlen
  subst heq
  have hne0 : ρ ≠ 0 := by
    rintro rfl
    exact hne ⟨by rw [hx, zero_mul], by rw [hy, zero_mul]⟩
  have hcos : cos θ = cos φ := mul_left_cancel₀ hne0 (hx.symm.trans hx')
  have hsin : sin θ = sin φ := mul_left_cancel₀ hne0 (hy.symm.trans hy')
  exact Real.Angle.angle_eq_iff_two_pi_dvd_sub.mp (Real.Angle.cos_sin_inj hcos hsin)

end Arctangent
