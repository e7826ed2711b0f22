import Mathlib.Analysis.SpecialFunctions.Trigonometric.Basic

/-!
# Following a rotation in integers

The sine and the cosine of `x`, `x + y`, `x + 2 * y`, … in units of `1 / N`, each from the one before
by the addition theorems, with a bound on the error that is carried along. `tracks` compares a list of
numbers with the sines as it goes, and `tracks_sound` says what a list that passes is.
-/

namespace Rotation

variable {N : ℕ} {x y d e : ℝ} {s c s₁ c₁ : ℕ}

/-- `s` and `c` are the sine and the cosine of `x` in units of `1 / N`, up to `e`. -/
structure Near (N : ℕ) (e x : ℝ) (s c : ℕ) : Prop where
  sin : |(s : ℝ) - N * Real.sin x| ≤ e
  cos : |(c : ℝ) - N * Real.cos x| ≤ e

theorem Near.mono {e' : ℝ} (h : Near N e x s c) (he : e ≤ e') : Near N e' x s c :=
  ⟨h.sin.trans he, h.cos.trans he⟩

/-- The error of a product of two approximations, one of them of a number below `N`. -/
theorem abs_mul_sub_le {a b u v : ℝ} (hu : |u| ≤ N) (hb : 0 ≤ b) (ha : |a - u| ≤ e)
    (hv : |b - v| ≤ d) : |a * b - u * v| ≤ e * b + N * d := by
  have hsplit : a * b - u * v = (a - u) * b + u * (b - v) := by ring
  rw [hsplit]
  refine (abs_add_le _ _).trans (add_le_add ?_ ?_)
  · rw [abs_mul, abs_of_nonneg hb]
    exact mul_le_mul_of_nonneg_right ha hb
  · rw [abs_mul]
    exact mul_le_mul hu hv (abs_nonneg _) ((abs_nonneg u).trans hu)

/-- Dividing by `N` and rounding down. -/
theorem abs_div_sub_le (hN : 0 < N) {n : ℕ} {v : ℝ} (h : |(n : ℝ) - N * (N * v)| ≤ N * e) :
    |((n / N : ℕ) : ℝ) - N * v| ≤ e + 1 := by
  have hN' : (0 : ℝ) < N := Nat.cast_pos.mpr hN
  have hdiv := congrArg (Nat.cast (R := ℝ)) (Nat.div_add_mod n N)
  have hmod : ((n % N : ℕ) : ℝ) < N := Nat.cast_lt.mpr (Nat.mod_lt n hN)
  have hmod' : (0 : ℝ) ≤ (n % N : ℕ) := Nat.cast_nonneg _
  push_cast at hdiv
  rw [abs_le] at h ⊢
  constructor
  · refine le_of_mul_le_mul_left ?_ hN'
    linarith
  · refine le_of_mul_le_mul_left ?_ hN'
    linarith

theorem abs_natCast_mul_le {v : ℝ} (hv : |v| ≤ 1) : |(N : ℝ) * v| ≤ N := by
  rw [abs_mul, Nat.abs_cast]
  exact mul_le_of_le_one_right (Nat.cast_nonneg N) hv

/-- One more turn by `y`. -/
theorem Near.turn (hN : 0 < N) (h : Near N e x s c) (h₁ : Near N d y s₁ c₁) (hle : s * s₁ ≤ c * c₁) :
    Near N (e * (c₁ + s₁) / N + 2 * d + 1) (x + y) ((s * c₁ + c * s₁) / N)
      ((c * c₁ - s * s₁) / N) := by
  have hN' : (0 : ℝ) < N := Nat.cast_pos.mpr hN
  have hsin := abs_natCast_mul_le (N := N) (Real.abs_sin_le_one x)
  have hcos := abs_natCast_mul_le (N := N) (Real.abs_cos_le_one x)
  have hsc := abs_mul_sub_le hsin c₁.cast_nonneg h.sin h₁.cos
  have hcs := abs_mul_sub_le hcos s₁.cast_nonneg h.cos h₁.sin
  have hcc := abs_mul_sub_le hcos c₁.cast_nonneg h.cos h₁.cos
  have hss := abs_mul_sub_le hsin s₁.cast_nonneg h.sin h₁.sin
  have herror : (N : ℝ) * (e * (c₁ + s₁) / N + 2 * d) = e * c₁ + N * d + (e * s₁ + N * d) := by
    field_simp
    ring
  constructor
  · refine abs_div_sub_le hN ?_
    rw [herror, Real.sin_add]
    push_cast
    rw [abs_le] at hsc hcs ⊢
    constructor <;> linarith
  · refine abs_div_sub_le hN ?_
    rw [herror, Real.cos_add, Nat.cast_sub hle]
    push_cast
    rw [abs_le] at hcc hss ⊢
    constructor <;> linarith

/-! ## The check -/

/-- Evaluate `n` before going on. -/
def force (n : ℕ) (k : ℕ → Bool) : Bool :=
  match n with
  | 0 => k 0
  | m + 1 => k (m + 1)

theorem force_eq (n : ℕ) (k : ℕ → Bool) : force n k = k n := by cases n <;> rfl

/-- Every entry, scaled by `unit`, is the sine of its angle up to `tol`. `e` bounds the error of the
approximations so far and `d` that of the turn. -/
def tracks (N unit tol d s₁ c₁ : ℕ) : List ℕ → ℕ → ℕ → ℕ → Bool
  | [], _, _, _ => true
  | v :: vs, s, c, e =>
    (v * unit + e ≤ s + tol && s + e ≤ v * unit + tol) &&
      (vs.isEmpty || (s * s₁ ≤ c * c₁ &&
        force ((s * c₁ + c * s₁) / N) fun s' => force ((c * c₁ - s * s₁) / N) fun c' =>
          force (e * (c₁ + s₁) / N + 2 * d + 2) fun e' => tracks N unit tol d s₁ c₁ vs s' c' e'))

/-- What a list that passes the check is. -/
theorem tracks_sound {unit tol d e : ℕ} (hN : 0 < N) (h₁ : Near N d y s₁ c₁) {vs : List ℕ}
    (h : Near N e x s c) (hcheck : tracks N unit tol d s₁ c₁ vs s c e = true) {i v : ℕ}
    (hv : vs[i]? = some v) : |(v * unit : ℝ) - N * Real.sin (x + i * y)| ≤ tol := by
  induction vs generalizing x s c e i with
  | nil => simp at hv
  | cons w vs ih =>
    simp only [tracks, force_eq, Bool.and_eq_true, Bool.or_eq_true, decide_eq_true_eq] at hcheck
    obtain ⟨⟨hlow, hhigh⟩, hrest⟩ := hcheck
    cases i with
    | zero =>
      obtain rfl : w = v := by simpa using hv
      have hsin := h.sin
      have hlow' : (w * unit + e : ℝ) ≤ s + tol := by exact_mod_cast hlow
      have hhigh' : (s + e : ℝ) ≤ w * unit + tol := by exact_mod_cast hhigh
      rw [Nat.cast_zero, zero_mul, add_zero]
      rw [abs_le] at hsin ⊢
      constructor <;> linarith
    | succ i =>
      rw [List.getElem?_cons_succ] at hv
      rcases hrest with hempty | ⟨hle, hrest⟩
      · rw [List.isEmpty_iff.mp hempty] at hv
        simp at hv
      · have herror : ((e : ℝ) * (c₁ + s₁) / N + 2 * d + 1) ≤
            ((e * (c₁ + s₁) / N + 2 * d + 2 : ℕ) : ℝ) := by
          have hlt : e * (c₁ + s₁) < (e * (c₁ + s₁) / N + 1) * N :=
            (Nat.div_lt_iff_lt_mul hN).mp (Nat.lt_succ_self _)
          have hceil : (e : ℝ) * (c₁ + s₁) / N < (e * (c₁ + s₁) / N : ℕ) + 1 :=
            (div_lt_iff₀ (Nat.cast_pos.mpr hN)).mpr (by exact_mod_cast hlt)
          push_cast
          linarith
        have hnext := ih ((h.turn hN h₁ hle).mono herror) hrest hv
        have hangle : x + (i + 1 : ℕ) * y = x + y + i * y := by
          push_cast
          ring
        rw [hangle]
        exact hnext

end Rotation
