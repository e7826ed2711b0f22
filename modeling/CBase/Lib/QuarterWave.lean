import Mathlib.Analysis.SpecialFunctions.Trigonometric.Basic
import Mathlib.Tactic.IntervalCases

/-!
# A wave from its first quarter

A function `g` on `0 … Q`, reflected and negated to a wave of period `4 * Q`.

* `wave_mirror`, `wave_add_half`, `wave_neg`: its symmetries.
* `wave_anti`: it falls from its crest to its trough when `g` rises.
* `abs_wave_sub_sin_le`: it is as close to the sine as `g` is.
-/

namespace QuarterWave

def wave (g : ℕ → ℕ) (Q a : ℕ) : ℤ :=
  let half : ℤ := if a / Q % 2 = 0 then g (a % Q) else g (Q - a % Q)
  if a / Q % 4 < 2 then half else -half

variable {g : ℕ → ℕ} {Q : ℕ}

/-- The four quarters. -/
theorem wave_quarter {q r : ℕ} (hr : r < Q) : wave g Q (q * Q + r) =
    match q % 4 with
    | 0 => g r
    | 1 => g (Q - r)
    | 2 => -g r
    | _ => -g (Q - r) := by
  have hdiv : (q * Q + r) / Q = q := by
    rw [Nat.add_comm, Nat.add_mul_div_right _ _ (Nat.zero_lt_of_lt hr), Nat.div_eq_of_lt hr, Nat.zero_add]
  have hmod : (q * Q + r) % Q = r := by rw [Nat.add_comm, Nat.add_mul_mod_self_right, Nat.mod_eq_of_lt hr]
  have htwo : q % 2 = q % 4 % 2 := by omega
  simp only [wave, hdiv, hmod]
  rw [htwo]
  have hfour := Nat.mod_lt q (by decide : 0 < 4)
  interval_cases q % 4 <;> rfl

/-- Every position lies in a quarter. -/
theorem exists_quarter (hQ : 0 < Q) (a : ℕ) : ∃ q r, r < Q ∧ a = q * Q + r :=
  ⟨a / Q, a % Q, Nat.mod_lt a hQ, (Nat.div_add_mod' a Q).symm⟩

/-- On the edge of two quarters both of them have the same value. -/
theorem wave_edge (hQ : 0 < Q) (hzero : g 0 = 0) (q : ℕ) : wave g Q (q * Q + Q) =
    match q % 4 with
    | 0 => g Q
    | 1 => g 0
    | 2 => -g Q
    | _ => -g 0 := by
  have hnext : q * Q + Q = (q + 1) * Q + 0 := by ring
  rw [hnext, wave_quarter hQ, Nat.add_mod]
  have hfour := Nat.mod_lt q (by decide : 0 < 4)
  interval_cases q % 4 <;> simp [hzero]

/-- Half a period on, the wave is negated. -/
theorem wave_add_half (hQ : 0 < Q) (a : ℕ) : wave g Q (a + 2 * Q) = -wave g Q a := by
  obtain ⟨q, r, hr, rfl⟩ := exists_quarter hQ a
  have hshift : q * Q + r + 2 * Q = (q + 2) * Q + r := by ring
  rw [hshift, wave_quarter hr, wave_quarter hr, Nat.add_mod]
  have hfour := Nat.mod_lt q (by decide : 0 < 4)
  interval_cases q % 4 <;> simp

theorem wave_period (hQ : 0 < Q) (a : ℕ) : wave g Q (a + 4 * Q) = wave g Q a := by
  have hshift : a + 4 * Q = a + 2 * Q + 2 * Q := by ring
  rw [hshift, wave_add_half hQ, wave_add_half hQ, Int.neg_neg]

theorem wave_mod (hQ : 0 < Q) (a : ℕ) : wave g Q (a % (4 * Q)) = wave g Q a := by
  have hmul : ∀ k b, wave g Q (b + k * (4 * Q)) = wave g Q b := by
    intro k b
    induction k with
    | zero => rw [Nat.zero_mul, Nat.add_zero]
    | succ k ih => rw [Nat.succ_mul, ← Nat.add_assoc, wave_period hQ, ih]
  conv_rhs => rw [← Nat.mod_add_div' a (4 * Q)]
  rw [hmul]

/-- The wave is symmetric about its crest. -/
theorem wave_mirror (hQ : 0 < Q) (hzero : g 0 = 0) {a : ℕ} (ha : a ≤ 2 * Q) :
    wave g Q (2 * Q - a) = wave g Q a := by
  rcases Nat.lt_or_ge a Q with hlt | hge
  · have hleft : wave g Q a = g a := by simpa using wave_quarter (g := g) (q := 0) hlt
    rw [hleft]
    rcases Nat.eq_zero_or_pos a with rfl | hpos
    · have hedge := wave_edge hQ hzero 1
      rw [Nat.sub_zero, two_mul]
      simpa using hedge
    · have hright : 2 * Q - a = 1 * Q + (Q - a) := by omega
      rw [hright, wave_quarter (by omega : Q - a < Q)]
      simp only [Nat.one_mod]
      rw [Nat.sub_sub_self hlt.le]
  · rcases Nat.eq_or_lt_of_le ha with rfl | hlt'
    · have hedge := wave_edge hQ hzero 1
      have hfirst := wave_quarter (g := g) (q := 0) hQ
      rw [Nat.sub_self, two_mul]
      simp only [one_mul, zero_mul, zero_add, Nat.zero_mod, Nat.one_mod] at hedge hfirst
      rw [hedge, hfirst]
    · obtain ⟨r, rfl⟩ := Nat.exists_eq_add_of_le hge
      have hr : r < Q := by omega
      have hright := wave_quarter (g := g) (q := 1) hr
      have hleft : 2 * Q - (Q + r) = Q - r := by omega
      simp only [one_mul, Nat.one_mod] at hright
      rw [hright, hleft]
      rcases Nat.eq_zero_or_pos r with rfl | hpos
      · have hedge := wave_edge hQ hzero 0
        simpa using hedge
      · have hfirst := wave_quarter (g := g) (q := 0) (by omega : Q - r < Q)
        simpa using hfirst

/-- And antisymmetric about its zeros. -/
theorem wave_neg (hQ : 0 < Q) (hzero : g 0 = 0) {a : ℕ} (ha : a ≤ 4 * Q) :
    wave g Q (4 * Q - a) = -wave g Q a := by
  rcases Nat.lt_or_ge a (2 * Q) with hlt | hge
  · have hsplit : 4 * Q - a = 2 * Q - a + 2 * Q := by omega
    rw [hsplit, wave_add_half hQ, wave_mirror hQ hzero hlt.le]
  · obtain ⟨b, rfl⟩ := Nat.exists_eq_add_of_le hge
    have hsplit : 4 * Q - (2 * Q + b) = 2 * Q - b := by omega
    rw [hsplit, wave_mirror hQ hzero (by omega), Nat.add_comm, wave_add_half hQ, Int.neg_neg]

/-- The first quarter, with both of its ends. -/
theorem wave_first (hQ : 0 < Q) (hzero : g 0 = 0) {a : ℕ} (ha : a ≤ Q) : wave g Q a = g a := by
  rcases Nat.eq_or_lt_of_le ha with rfl | hlt
  · simpa using wave_edge hQ hzero 0
  · simpa using wave_quarter (g := g) (q := 0) hlt

/-- From its crest to its trough the wave falls. -/
theorem wave_anti (hQ : 0 < Q) (hzero : g 0 = 0) (hg : Monotone g) {a b : ℕ} (ha : Q ≤ a) (hab : a ≤ b)
    (hb : b ≤ 3 * Q) : wave g Q b ≤ wave g Q a := by
  have hbefore : ∀ {c}, Q ≤ c → c ≤ 2 * Q → wave g Q c = g (2 * Q - c) := by
    intro c hlow hhigh
    rw [← wave_mirror hQ hzero hhigh, wave_first hQ hzero (by omega)]
  have hafter : ∀ {c}, 2 * Q ≤ c → c ≤ 3 * Q → wave g Q c = -g (c - 2 * Q) := by
    intro c hlow hhigh
    obtain ⟨d, rfl⟩ := Nat.exists_eq_add_of_le' hlow
    rw [wave_add_half hQ, wave_first hQ hzero (by omega), Nat.add_sub_cancel]
  rcases Nat.le_total b (2 * Q) with hle | hge
  · rw [hbefore (ha.trans hab) hle, hbefore ha (hab.trans hle)]
    exact Int.ofNat_le.mpr (hg (by omega))
  · rw [hafter hge hb]
    rcases Nat.le_total a (2 * Q) with hle' | hge'
    · rw [hbefore ha hle']
      omega
    · rw [hafter hge' (hab.trans hb)]
      exact Int.neg_le_neg (Int.ofNat_le.mpr (hg (by omega)))

theorem abs_wave_le (hQ : 0 < Q) (hg : Monotone g) (a : ℕ) : |wave g Q a| ≤ g Q := by
  obtain ⟨q, r, hr, rfl⟩ := exists_quarter hQ a
  have hlow : (g r : ℤ) ≤ g Q := Int.ofNat_le.mpr (hg hr.le)
  have hhigh : (g (Q - r) : ℤ) ≤ g Q := Int.ofNat_le.mpr (hg (Nat.sub_le Q r))
  rw [wave_quarter hr, abs_le]
  have hfour := Nat.mod_lt q (by decide : 0 < 4)
  interval_cases q % 4 <;> simp only <;> constructor <;> linarith

/-! ## Congruent positions -/

theorem wave_congr (hQ : 0 < Q) {a b : ℕ} (h : a ≡ b [MOD 4 * Q]) : wave g Q a = wave g Q b := by
  rw [← wave_mod hQ a, ← wave_mod hQ b, h]

theorem wave_of_add_modEq_zero (hQ : 0 < Q) (hzero : g 0 = 0) {a b : ℕ} (h : a + b ≡ 0 [MOD 4 * Q]) :
    wave g Q a = -wave g Q b := by
  have hle : b % (4 * Q) ≤ 4 * Q := (Nat.mod_lt b (by omega)).le
  rw [← wave_mod hQ b, ← wave_neg hQ hzero hle]
  refine wave_congr hQ (Nat.ModEq.add_right_cancel' (b % (4 * Q)) ?_)
  rw [Nat.sub_add_cancel hle]
  exact ((Nat.mod_modEq b _).add_left a).trans (h.trans (Nat.modEq_zero_iff_dvd.mpr dvd_rfl).symm)

theorem wave_of_add_modEq_half (hQ : 0 < Q) (hzero : g 0 = 0) {a b : ℕ}
    (h : a + b ≡ 2 * Q [MOD 4 * Q]) : wave g Q a = wave g Q b := by
  have hfull : a + 2 * Q + b ≡ 0 [MOD 4 * Q] := by
    have hsum := h.add_right (2 * Q)
    have htwice : 2 * Q + 2 * Q = 4 * Q := by ring
    rw [htwice] at hsum
    rw [Nat.add_right_comm]
    exact hsum.trans (Nat.modEq_zero_iff_dvd.mpr dvd_rfl)
  have hneg := wave_of_add_modEq_zero hQ hzero hfull
  rw [wave_add_half hQ] at hneg
  exact Int.neg_inj.mp hneg

/-! ## The sine -/

/-- The angle at position `a`, a quarter turn being `Q`. -/
noncomputable def angle (Q a : ℕ) : ℝ := Real.pi / 2 * (a / Q)

theorem angle_add (hQ : 0 < Q) (q r : ℕ) : angle Q (q * Q + r) = q * (Real.pi / 2) + angle Q r := by
  have hQ' : (Q : ℝ) ≠ 0 := Nat.cast_ne_zero.mpr hQ.ne'
  rw [angle, angle]
  push_cast
  field_simp

theorem angle_sub (hQ : 0 < Q) {r : ℕ} (hr : r ≤ Q) : angle Q (Q - r) = Real.pi / 2 - angle Q r := by
  have hQ' : (Q : ℝ) ≠ 0 := Nat.cast_ne_zero.mpr hQ.ne'
  rw [angle, angle, Nat.cast_sub hr]
  field_simp

theorem sin_add_quarters (q : ℕ) (x : ℝ) : Real.sin (q * (Real.pi / 2) + x) =
    match q % 4 with
    | 0 => Real.sin x
    | 1 => Real.sin (Real.pi / 2 - x)
    | 2 => -Real.sin x
    | _ => -Real.sin (Real.pi / 2 - x) := by
  have hturns : (q : ℝ) * (Real.pi / 2) + x =
      (q % 4 : ℕ) * (Real.pi / 2) + x + (q / 4 : ℕ) * (2 * Real.pi) := by
    have hq := congrArg (Nat.cast (R := ℝ)) (Nat.div_add_mod q 4)
    push_cast at hq
    rw [← hq]
    ring
  rw [hturns, Real.sin_add_nat_mul_two_pi, Real.sin_pi_div_two_sub]
  have hfour := Nat.mod_lt q (by decide : 0 < 4)
  interval_cases q % 4 <;> simp only
  · rw [Nat.cast_zero, zero_mul, zero_add]
  · rw [Nat.cast_one, one_mul, add_comm, Real.sin_add_pi_div_two]
  · have hhalf : ((2 : ℕ) : ℝ) * (Real.pi / 2) + x = x + Real.pi := by
      push_cast
      ring
    rw [hhalf, Real.sin_add_pi]
  · have hhalf : ((3 : ℕ) : ℝ) * (Real.pi / 2) + x = x + Real.pi / 2 + Real.pi := by
      push_cast
      ring
    rw [hhalf, Real.sin_add_pi, Real.sin_add_pi_div_two]

/-- How close the wave is to the sine. -/
theorem abs_wave_sub_sin_le {A ε : ℝ} (hQ : 0 < Q)
    (hg : ∀ r ≤ Q, |(g r : ℝ) - A * Real.sin (angle Q r)| ≤ ε) (a : ℕ) :
    |(wave g Q a : ℝ) - A * Real.sin (angle Q a)| ≤ ε := by
  obtain ⟨q, r, hr, rfl⟩ := exists_quarter hQ a
  have hlow := hg r hr.le
  have hhigh := hg (Q - r) (Nat.sub_le Q r)
  rw [angle_sub hQ hr.le] at hhigh
  rw [wave_quarter hr, angle_add hQ, sin_add_quarters]
  have hfour := Nat.mod_lt q (by decide : 0 < 4)
  rw [abs_le] at hlow hhigh ⊢
  interval_cases q % 4 <;> simp only [Int.cast_neg, Int.cast_natCast] <;> constructor <;> linarith

end QuarterWave
