import CBase.Fixed.SineAccuracy
import CBase.Lib.Arctangent

/-!
# How accurate the angle is

* `atanEntry_near`: every entry of the table is the arctangent, rounded to the nearest angle.
* `atan2_accurate`: the angle of any vector is wrong by at most two units.
* `polar_round_trip`: the angle of the sine and the cosine of an angle is that angle, up to two units.
-/

namespace CBase.Fixed

open MachineInt Arctangent

/-! ## The entries -/

theorem brad_pos : 0 < brad := div_pos Real.pi_pos (by norm_num)

/-- The entries and the sums of the arctangents, in integers. -/
theorem atanLut_follows : ∀ i < 257,
    100 * (atanEntry i * 314159265358979323847 * 2 ^ 48 + 32768 * 1431656000 * 10 ^ 20) ≤
      100 * (32768 * arctanSum (2 ^ 48) 256 i * 10 ^ 20) + 56 * (314159265358979323846 * 2 ^ 48) ∧
    100 * (32768 * (arctanSum (2 ^ 48) 256 i + 256) * 10 ^ 20) ≤
      100 * (atanEntry i * 314159265358979323846 * 2 ^ 48) + 56 * (314159265358979323846 * 2 ^ 48) := by
  decide +kernel

/-- Every entry is rounded to the nearest angle, up to six hundredths. -/
theorem atanEntry_near {i : ℕ} (hi : i ≤ 256) :
    |(atanEntry i : ℝ) - 1 / brad * Real.arctan (i * (1 / 256))| ≤ 56 / 100 := by
  obtain ⟨hlow, hhigh⟩ := arctanSum_bounds (2 ^ 48) (by decide : 0 < 256) i
  obtain ⟨hbelow, habove⟩ := atanLut_follows i (by omega)
  have hpi := Real.pi_gt_d20
  have hpi' := Real.pi_lt_d20
  have hi' : (i : ℝ) ≤ 256 := by exact_mod_cast hi
  have hentry : (0 : ℝ) ≤ atanEntry i := Nat.cast_nonneg _
  have hstep : ((256 : ℕ) : ℝ) = 256 := by norm_num
  have hratio : (i : ℝ) * (1 / 256) = i / 256 := by ring
  rw [hstep] at hlow hhigh
  rw [hratio]
  generalize Real.arctan (i / 256) = θ at hlow hhigh ⊢
  generalize arctanSum (2 ^ 48) 256 i = s at *
  generalize atanEntry i = a at *
  rify at hbelow habove
  push_cast at hlow hhigh
  have hscale := mul_le_mul_of_nonneg_left hpi'.le hentry
  have hscale' := mul_le_mul_of_nonneg_left hpi.le hentry
  have hunit : 1 / brad * θ = 32768 * θ / Real.pi := by
    rw [brad]
    field_simp
  rw [hunit, abs_le]
  constructor
  · rw [le_sub_iff_add_le, ← le_sub_iff_add_le', div_le_iff₀ Real.pi_pos]
    linarith
  · rw [sub_le_iff_le_add, ← sub_le_iff_le_add', le_div_iff₀ Real.pi_pos]
    linarith

/-- The angle of a ratio. -/
theorem octantAngle_near {t : ℕ} (ht : t ≤ 65536) :
    |(octantAngle t : ℝ) - 1 / brad * Real.arctan (t / 65536)| ≤ 172 / 100 := by
  rcases Nat.eq_or_lt_of_le ht with rfl | hlt
  · have hone : ((65536 : ℕ) : ℝ) / 65536 = 1 := by norm_num
    have heighth : 1 / brad * (Real.pi / 4) = 8192 := by
      rw [brad]
      field_simp
      norm_num
    rw [octantAngle_one, hone, Real.arctan_one, heighth]
    norm_num
  · have hratio : (t : ℝ) / 65536 = t / (256 : ℕ) * (1 / 256) := by
      push_cast
      ring
    have hlookup := TableAccuracy.abs_interpolate_sub_le (f := Real.arctan) (g := slope) (L := 1) (t := t)
      atanEntry_mono (by decide : 0 < 256) (one_div_pos.mpr brad_pos).le zero_le_one
      (by norm_num : (0 : ℝ) ≤ 1 / 256) Real.hasDerivAt_arctan
      (fun x y => by rw [one_mul]; exact abs_slope_sub_le x y)
      (atanEntry_near (by omega)) (atanEntry_near (by omega))
    have hchord : 1 / brad * 1 * (1 / 256) ^ 2 ≤ 16 / 100 := by
      have hpi := Real.pi_gt_d20
      have hunit : 1 / brad * 1 * (1 / 256) ^ 2 = 1 / (2 * Real.pi) := by
        rw [brad]
        field_simp
        norm_num
      rw [hunit, div_le_iff₀ (by positivity)]
      linarith
    rw [octantAngle, hratio]
    linarith

/-! ## The plane -/

/-- `angle` is within `ε` of an angle of the vector. -/
def Points (ε : ℝ) (angle : UInt16) (x y : ℝ) : Prop := ∃ θ, HasAngle θ x y ∧ |radians angle - θ| ≤ ε

theorem radians_neg (angle : UInt16) : ∃ k : ℤ, radians (-angle) = -radians angle + k * (2 * Real.pi) := by
  have hlt := angle.toNat_lt
  have hneg : (-angle).toNat = (65536 - angle.toNat) % 65536 := UInt16.toNat_neg _
  rcases Nat.eq_zero_or_pos angle.toNat with hzero | hpos
  · refine ⟨0, ?_⟩
    rw [radians, radians, hneg, hzero]
    norm_num
  · refine ⟨1, ?_⟩
    rw [Nat.mod_eq_of_lt (by omega)] at hneg
    rw [radians, radians, hneg, Nat.cast_sub hlt.le, brad]
    push_cast
    ring

theorem radians_half_sub (angle : UInt16) :
    ∃ k : ℤ, radians (bradHalf - angle) = Real.pi - radians angle + k * (2 * Real.pi) := by
  have hlt := angle.toNat_lt
  have hsub : (bradHalf - angle).toNat = (65536 - angle.toNat + 32768) % 65536 := UInt16.toNat_sub _ _
  rcases Nat.lt_or_ge 32768 angle.toNat with hpast | hle
  · refine ⟨1, ?_⟩
    rw [Nat.mod_eq_of_lt (by omega)] at hsub
    rw [radians, radians, hsub, Nat.cast_add, Nat.cast_sub hlt.le, brad]
    push_cast
    ring
  · refine ⟨0, ?_⟩
    have hsub' : (bradHalf - angle).toNat = 32768 - angle.toNat := by omega
    rw [radians, radians, hsub', Nat.cast_sub hle, brad]
    push_cast
    ring

variable {ε x y : ℝ} {angle : UInt16}

theorem Points.mono {ε' : ℝ} (h : Points ε angle x y) (hle : ε ≤ ε') : Points ε' angle x y := by
  obtain ⟨θ, hθ, hnear⟩ := h
  exact ⟨θ, hθ, hnear.trans hle⟩

theorem Points.neg (h : Points ε angle x y) : Points ε (-angle) x (-y) := by
  obtain ⟨θ, hθ, hnear⟩ := h
  obtain ⟨k, hk⟩ := radians_neg angle
  refine ⟨-θ + k * (2 * Real.pi), hθ.neg.turn k, ?_⟩
  have hdiff : radians (-angle) - (-θ + k * (2 * Real.pi)) = -(radians angle - θ) := by
    rw [hk]
    ring
  rwa [hdiff, abs_neg]

theorem Points.mirror (h : Points ε angle x y) : Points ε (bradHalf - angle) (-x) y := by
  obtain ⟨θ, hθ, hnear⟩ := h
  obtain ⟨k, hk⟩ := radians_half_sub angle
  refine ⟨Real.pi - θ + k * (2 * Real.pi), hθ.mirror.turn k, ?_⟩
  have hdiff : radians (bradHalf - angle) - (Real.pi - θ + k * (2 * Real.pi)) = -(radians angle - θ) := by
    rw [hk]
    ring
  rwa [hdiff, abs_neg]

/-- The ratio is rounded down before the lookup. -/
theorem octantAngle_ratio {m n : ℕ} (hn : 0 < n) (hmn : m ≤ n) :
    |(octantAngle (m * 65536 / n) : ℝ) * brad - Real.arctan (m / n)| ≤ 188 / 100 * brad := by
  have hn' : (0 : ℝ) < n := Nat.cast_pos.mpr hn
  have hle : m * 65536 / n ≤ 65536 := Octants.ratio_le hmn
  have hlookup := octantAngle_near hle
  have hdiv := congrArg (Nat.cast (R := ℝ)) (Nat.div_add_mod (m * 65536) n)
  have hmod : ((m * 65536 % n : ℕ) : ℝ) < n := Nat.cast_lt.mpr (Nat.mod_lt _ hn)
  have hmod' : (0 : ℝ) ≤ (m * 65536 % n : ℕ) := Nat.cast_nonneg _
  push_cast at hdiv
  have hratio : |((m * 65536 / n : ℕ) : ℝ) / 65536 - m / n| ≤ 1 / 65536 := by
    have hsplit : ((m * 65536 / n : ℕ) : ℝ) / 65536 - m / n = -((m * 65536 % n : ℕ) / n / 65536) := by
      field_simp
      linarith
    rw [hsplit, abs_neg, abs_of_nonneg (by positivity)]
    exact div_le_div_of_nonneg_right ((div_le_one hn').mpr hmod.le) (by norm_num)
  have hturn := (abs_arctan_sub_le _ _).trans hratio
  have hunit : 1 / 65536 ≤ 16 / 100 * brad := by
    have hpi := Real.pi_gt_d20
    rw [brad]
    linarith
  have hscale : (octantAngle (m * 65536 / n) : ℝ) * brad -
      Real.arctan ((m * 65536 / n : ℕ) / 65536) = ((octantAngle (m * 65536 / n) : ℝ) -
        1 / brad * Real.arctan ((m * 65536 / n : ℕ) / 65536)) * brad := by
    have hne := brad_pos.ne'
    field_simp
  have hnear : |(octantAngle (m * 65536 / n) : ℝ) * brad - Real.arctan ((m * 65536 / n : ℕ) / 65536)| ≤
      172 / 100 * brad := by
    rw [hscale, abs_mul, abs_of_pos brad_pos]
    exact mul_le_mul_of_nonneg_right hlookup brad_pos.le
  rw [abs_le] at hnear hturn ⊢
  constructor <;> linarith

theorem quadrantAngle_points {m n : ℕ} (hne : 0 < m ∨ 0 < n) :
    Points (188 / 100 * brad) (.ofNat (quadrantAngle n m)) m n := by
  have hle := quadrantAngle_le n m
  have hval : (UInt16.ofNat (quadrantAngle n m)).toNat = quadrantAngle n m :=
    UInt16.toNat_ofNat_of_lt' (by
      simp only [UInt16.size]
      omega)
  rw [Points, radians, hval]
  rcases Nat.lt_or_ge m n with hlt | hge
  · have hn : 0 < n := Nat.zero_lt_of_lt hlt
    have hoctant := octantAngle_mono (Octants.ratio_le hlt.le : m * 65536 / n ≤ 65536)
    rw [octantAngle_one] at hoctant
    refine ⟨_, (HasAngle.arctan (y := m) (Nat.cast_pos.mpr hn)).swap, ?_⟩
    have hquarter : (16384 : ℝ) * brad = Real.pi / 2 := by
      rw [brad]
      ring
    have hcomplement : ((quadrantAngle n m : ℕ) : ℝ) * brad - (Real.pi / 2 - Real.arctan (m / n)) =
        -((octantAngle (m * 65536 / n) : ℝ) * brad - Real.arctan (m / n)) := by
      rw [quadrantAngle, Octants.angle, if_pos hlt, Nat.cast_sub (by omega)]
      push_cast
      linarith
    rw [hcomplement, abs_neg]
    exact octantAngle_ratio hn hlt.le
  · have hm : 0 < m := by omega
    refine ⟨_, HasAngle.arctan (y := n) (Nat.cast_pos.mpr hm), ?_⟩
    rw [quadrantAngle, Octants.angle, if_neg (not_lt.mpr hge)]
    exact octantAngle_ratio hm hge

theorem reflect_points {y x : Int32} {r : ℕ} (h : Points ε (.ofNat r) x.toInt.natAbs y.toInt.natAbs) :
    Points ε (reflect y x r) x.toInt y.toInt := by
  have hside : Points ε (if x < 0 then bradHalf - .ofNat r else .ofNat r) x.toInt y.toInt.natAbs := by
    rw [Nat.cast_natAbs] at h
    split_ifs with hx
    · rw [Int32.lt_iff_toInt_lt, Int32.toInt_zero] at hx
      rw [abs_of_neg hx] at h
      simpa using h.mirror
    · rw [Int32.lt_iff_toInt_lt, Int32.toInt_zero, not_lt] at hx
      rwa [abs_of_nonneg hx] at h
  rw [Nat.cast_natAbs] at hside
  simp only [reflect]
  generalize (if x < 0 then bradHalf - .ofNat r else .ofNat r : UInt16) = side at hside ⊢
  split_ifs with hy
  · rw [Int32.lt_iff_toInt_lt, Int32.toInt_zero] at hy
    rw [abs_of_neg hy] at hside
    simpa using hside.neg
  · rw [Int32.lt_iff_toInt_lt, Int32.toInt_zero, not_lt] at hy
    rwa [abs_of_nonneg hy] at hside

/-! ## The whole range -/

/-- One step from the end of the range the absolute values are the same. -/
theorem fx16Atan2_min_left (x : Int32) : fx16Atan2 fx16Min x = fx16Atan2 (fx16Min + 1) x := by
  have habs : fx16Abs fx16Min = fx16Abs (fx16Min + 1) := by decide
  have hzero : fx16Min ≠ 0 ∧ fx16Min + 1 ≠ 0 := by decide
  have hpos : ¬ 0 < fx16Min ∧ ¬ 0 < fx16Min + 1 := by decide
  have hneg : fx16Min < 0 ∧ fx16Min + 1 < 0 := by decide
  rw [fx16Atan2, fx16Atan2, habs]
  simp only [hzero.1, hzero.2, hpos.1, hpos.2, hneg.1, hneg.2, and_false, if_false, if_true]

theorem fx16Atan2_min_right (y : Int32) : fx16Atan2 y fx16Min = fx16Atan2 y (fx16Min + 1) := by
  have habs : fx16Abs fx16Min = fx16Abs (fx16Min + 1) := by decide
  have hzero : fx16Min ≠ 0 ∧ fx16Min + 1 ≠ 0 := by decide
  have hpos : ¬ 0 < fx16Min ∧ ¬ 0 < fx16Min + 1 := by decide
  have hneg : fx16Min < 0 ∧ fx16Min + 1 < 0 := by decide
  rw [fx16Atan2, fx16Atan2, habs]
  simp only [hzero.1, hzero.2, hpos.1, hpos.2, hneg.1, hneg.2, false_and, if_false, if_true]

/-- `v`, or the next value above the end of the range. -/
def nudge (v : Int32) : Int32 := if v = fx16Min then fx16Min + 1 else v

theorem nudge_ne_min (v : Int32) : nudge v ≠ fx16Min := by
  rw [nudge]
  split_ifs with h
  · decide
  · exact h

theorem fx16Atan2_nudge (y x : Int32) : fx16Atan2 (nudge y) (nudge x) = fx16Atan2 y x := by
  have hleft (x : Int32) : fx16Atan2 (nudge y) x = fx16Atan2 y x := by
    rw [nudge]
    split_ifs with h
    · rw [h, fx16Atan2_min_left]
    · rfl
  rw [hleft, nudge]
  split_ifs with h
  · rw [h, fx16Atan2_min_right]
  · rfl

theorem abs_sub_nudge (v : Int32) : |(v.toInt : ℝ) - (nudge v).toInt| ≤ 1 := by
  rw [nudge]
  split_ifs with h
  · have hmin : fx16Min.toInt = -2147483648 := rfl
    have hnext : (fx16Min + 1).toInt = -2147483647 := rfl
    rw [h, hmin, hnext]
    norm_num
  · simp

theorem Points.near {x' y' e ρ : ℝ} (h : Points ε angle x y) (hx : |x' - x| ≤ e) (hy : |y' - y| ≤ e)
    (hlong : ρ ≤ |x| ∨ ρ ≤ |y|) (hρ : 2 * e < ρ) : Points (ε + 2 * e / (ρ - 2 * e)) angle x' y' := by
  obtain ⟨θ, ⟨σ, hσ, rfl, rfl⟩, hnear⟩ := h
  have he := (abs_nonneg _).trans hx
  have hlen : ρ ≤ σ := by
    rw [abs_mul, abs_mul, abs_of_nonneg hσ] at hlong
    rcases hlong with hcos | hsin
    · exact hcos.trans (mul_le_of_le_one_right hσ (Real.abs_cos_le_one θ))
    · exact hsin.trans (mul_le_of_le_one_right hσ (Real.abs_sin_le_one θ))
  obtain ⟨φ, hφ, hturn⟩ := HasAngle.near hx hy (hρ.trans_le hlen)
  refine ⟨φ, hφ, ?_⟩
  have hsmall : 2 * e / (σ - 2 * e) ≤ 2 * e / (ρ - 2 * e) :=
    div_le_div_of_nonneg_left (by linarith) (by linarith) (by linarith)
  rw [abs_le] at hnear hturn ⊢
  constructor <;> linarith

theorem nudge_eq_zero {v : Int32} : nudge v = 0 ↔ v = 0 := by
  rw [nudge]
  split_ifs with h
  · rw [h]
    decide
  · rfl

/-- Away from the end of the range. -/
theorem nudged_points {y x : Int32} (hne : ¬ (x = 0 ∧ y = 0)) : ∃ r, fx16Atan2 y x = some r ∧
    Points (188 / 100 * brad) r (nudge x).toInt (nudge y).toInt := by
  have hne' : ¬ (nudge x = 0 ∧ nudge y = 0) := by rwa [nudge_eq_zero, nudge_eq_zero]
  have hpos : 0 < (nudge x).toInt.natAbs ∨ 0 < (nudge y).toInt.natAbs := by
    by_contra hnone
    exact hne' ⟨toInt_eq_zero.mp (by omega), toInt_eq_zero.mp (by omega)⟩
  rw [← fx16Atan2_nudge]
  exact ⟨_, fx16Atan2_spec (nudge_ne_min y) (nudge_ne_min x) hne', reflect_points (quadrantAngle_points hpos)⟩

theorem fx16Atan2_points (y x : Int32) :
    ∃ r, fx16Atan2 y x = some r ∧ Points (2 * brad) r x.toInt y.toInt := by
  have hbrad := brad_pos
  by_cases hzero : x = 0 ∧ y = 0
  · obtain ⟨rfl, rfl⟩ := hzero
    refine ⟨0, rfl, 0, ⟨0, le_rfl, by simp, by simp⟩, ?_⟩
    rw [radians, UInt16.toNat_zero, Nat.cast_zero, zero_mul, sub_zero, abs_zero]
    linarith
  · obtain ⟨r, hr, hpoints⟩ := nudged_points hzero
    refine ⟨r, hr, ?_⟩
    by_cases hmin : x = fx16Min ∨ y = fx16Min
    · have hend : |((nudge fx16Min).toInt : ℝ)| = 2147483647 := by
        have hval : (nudge fx16Min).toInt = -2147483647 := rfl
        rw [hval]
        norm_num
      have hlong : (2147483647 : ℝ) ≤ |((nudge x).toInt : ℝ)| ∨
          (2147483647 : ℝ) ≤ |((nudge y).toInt : ℝ)| := by
        rcases hmin with rfl | rfl
        · exact .inl hend.ge
        · exact .inr hend.ge
      refine (hpoints.near (abs_sub_nudge x) (abs_sub_nudge y) hlong (by norm_num)).mono ?_
      have hpi := Real.pi_gt_d20
      have hsmall : (2 * 1 / (2147483647 - 2 * 1) : ℝ) ≤ 12 / 100 * brad := by
        rw [brad]
        norm_num
        linarith
      linarith
    · have hx : nudge x = x := if_neg fun h => hmin (.inl h)
      have hy : nudge y = y := if_neg fun h => hmin (.inr h)
      rw [hx, hy] at hpoints
      exact hpoints.mono (by linarith)

/-! ## Polar coordinates -/

/-- Two angles of one vector. -/
theorem Points.close {a b : UInt16} {δ : ℝ} (ha : Points ε a x y) (hb : Points δ b x y)
    (hne : ¬ (x = 0 ∧ y = 0)) (hsmall : ε + δ < 3 * brad) : -2 ≤ (a - b).toInt16 ∧ (a - b).toInt16 ≤ 2 := by
  obtain ⟨θ, hθ, hnear⟩ := ha
  obtain ⟨φ, hφ, hnear'⟩ := hb
  obtain ⟨k, hk⟩ := hθ.unique hφ hne
  have hturn : 2 * Real.pi = 65536 * brad := by
    rw [brad]
    ring
  rw [hturn] at hk
  rw [radians] at hnear hnear'
  have hdiff : |((a.toNat : ℝ) - b.toNat - 65536 * k) * brad| < 3 * brad := by
    rw [abs_le] at hnear hnear'
    rw [abs_lt]
    constructor <;> linarith
  rw [abs_mul, abs_of_pos brad_pos, mul_lt_mul_iff_left₀ brad_pos] at hdiff
  have hint : |(a.toNat : ℤ) - b.toNat - 65536 * k| < 3 := by exact_mod_cast hdiff
  rw [abs_lt] at hint
  have hsub : (a - b).toNat = (65536 - b.toNat + a.toNat) % 65536 := UInt16.toNat_sub a b
  have hsigned : (a - b).toInt16.toInt =
      if 2 * (a - b).toNat < 65536 then ((a - b).toNat : ℤ) else (a - b).toNat - 65536 :=
    BitVec.toInt_eq_toNat_cond (a - b).toBitVec
  have hb := b.toNat_lt
  have htwo : (2 : Int16).toInt = 2 := rfl
  have hmtwo : (-2 : Int16).toInt = -2 := rfl
  rw [Int16.le_iff_toInt_le, Int16.le_iff_toInt_le, htwo, hmtwo, hsigned]
  split_ifs <;> omega

/-- The sine and the cosine of an angle are a vector with nearly that angle. -/
theorem turnSine_points (angle : UInt16) :
    Points (54 / 100 * brad) angle (turnSine (angle.toNat + 16384)) (turnSine angle.toNat) ∧
      ¬ ((turnSine (angle.toNat + 16384) : ℝ) = 0 ∧ (turnSine angle.toNat : ℝ) = 0) := by
  obtain ⟨hsine, hcosine⟩ := turnSine_near angle
  constructor
  · obtain ⟨θ, hθ, hnear⟩ := HasAngle.near hcosine hsine (by norm_num)
    refine ⟨θ, hθ, ?_⟩
    rw [abs_sub_comm]
    refine hnear.trans ?_
    have hpi := Real.pi_gt_d20
    rw [brad]
    norm_num
    linarith
  · rintro ⟨hc, hs⟩
    rw [hs, zero_sub, abs_neg, abs_mul, abs_of_pos (by norm_num : (0 : ℝ) < 65536)] at hsine
    rw [hc, zero_sub, abs_neg, abs_mul, abs_of_pos (by norm_num : (0 : ℝ) < 65536)] at hcosine
    have hunit := Real.sin_sq_add_cos_sq (radians angle)
    rw [← sq_abs, ← sq_abs (Real.cos _)] at hunit
    nlinarith [abs_nonneg (Real.sin (radians angle)), abs_nonneg (Real.cos (radians angle))]

/-- `cb_fx16_atan2` always hits the table, and for every vector its result is within two units of the
angle of the vector. -/
theorem atan2_accurate (y x : Int32) : ∃ r, fx16Atan2 y x = some r ∧ ∃ k : ℤ,
    |(r.toNat : ℝ) - (32768 / Real.pi * Complex.arg ⟨x.toInt, y.toInt⟩ + 65536 * k)| ≤ 2 := by
  obtain ⟨r, hr, θ, hθ, hnear⟩ := fx16Atan2_points y x
  refine ⟨r, hr, ?_⟩
  by_cases hzero : (x.toInt : ℝ) = 0 ∧ (y.toInt : ℝ) = 0
  · have hx : x = 0 := toInt_eq_zero.mp (by exact_mod_cast hzero.1)
    have hy : y = 0 := toInt_eq_zero.mp (by exact_mod_cast hzero.2)
    subst hx hy
    obtain rfl : 0 = r := Option.some.inj hr
    have horigin : (⟨((0 : Int32).toInt : ℝ), ((0 : Int32).toInt : ℝ)⟩ : ℂ) = 0 := by
      simp [Complex.ext_iff]
    refine ⟨0, ?_⟩
    rw [horigin, Complex.arg_zero]
    norm_num
  · generalize hz : (⟨x.toInt, y.toInt⟩ : ℂ) = z
    have harg : HasAngle (Complex.arg z) x.toInt y.toInt := by
      refine ⟨‖z‖, norm_nonneg z, ?_, ?_⟩
      · rw [Complex.norm_mul_cos_arg, ← hz]
      · rw [Complex.norm_mul_sin_arg, ← hz]
    obtain ⟨k, hk⟩ := hθ.unique harg hzero
    refine ⟨k, ?_⟩
    have hscale : (r.toNat : ℝ) - (32768 / Real.pi * Complex.arg z + 65536 * k) =
        (radians r - θ) / brad := by
      have hpi := Real.pi_ne_zero
      rw [radians, eq_div_iff brad_pos.ne', ← sub_eq_zero]
      have hfull : (32768 / Real.pi * Complex.arg z + 65536 * k) * brad =
          Complex.arg z + 2 * Real.pi * k := by
        rw [brad]
        field_simp
        ring
      linarith
    rw [hscale, abs_div, abs_of_pos brad_pos, div_le_iff₀ brad_pos]
    exact hnear

/-- The sine and the cosine of an angle, and the angle of the vector of both: within two units of the
angle that it began with. -/
theorem polar_round_trip (angle : UInt16) : ∃ s c r, fx16Sin angle = some s ∧ fx16Cos angle = some c ∧
    fx16Atan2 s c = some r ∧ -2 ≤ (r - angle).toInt16 ∧ (r - angle).toInt16 ≤ 2 := by
  obtain ⟨s, hs, hsval⟩ := fx16Sin_spec angle
  obtain ⟨c, hc, hcval⟩ := fx16Cos_spec angle
  obtain ⟨r, hr, hpoints⟩ := fx16Atan2_points s c
  obtain ⟨hvector, hne⟩ := turnSine_points angle
  rw [← hsval, ← hcval] at hvector hne
  refine ⟨s, c, r, hs, hc, hr, hpoints.close hvector hne ?_⟩
  linarith [brad_pos]

end CBase.Fixed
