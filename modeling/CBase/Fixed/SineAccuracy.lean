import CBase.Fixed.Sine
import CBase.Lib.Rotation
import CBase.Lib.TableAccuracy

/-!
# How accurate the sine is

* `sinEntry_near`: every entry of the table is the sine, rounded to the nearest number.
* `sine_cosine_accurate`: for every angle the sine and the cosine are wrong by less than two units in
  the last place.
-/

namespace CBase.Fixed

/-- The unit of an angle, in radians. -/
noncomputable def brad : ℝ := Real.pi / 32768

noncomputable def radians (angle : UInt16) : ℝ := angle.toNat * brad

/-! ## The entries -/

/-- The angle between two entries. -/
noncomputable def sinStep : ℝ := Real.pi / 2048

theorem sinStep_bounds : 0.00153398078788564122 < sinStep ∧ sinStep < 0.00153398078788564124 := by
  have hlow := Real.pi_gt_d20
  have hhigh := Real.pi_lt_d20
  unfold sinStep
  constructor <;> linarith

/-- The sine and the cosine of one step, in units of `2 ^ -48`. -/
theorem near_sinStep : Rotation.Near (2 ^ 48) 150 sinStep 431777037209 281474645541751 := by
  obtain ⟨hlow, hhigh⟩ := sinStep_bounds
  have hpos : 0 < sinStep := by linarith
  have habs : |sinStep| = sinStep := abs_of_pos hpos
  have hle : |sinStep| ≤ 1 := by
    rw [habs]
    linarith
  have hsin := Real.sin_bound hle
  have hcos := Real.cos_bound hle
  have hlow2 := pow_le_pow_left₀ (by norm_num) hlow.le 2
  have hhigh2 := pow_le_pow_left₀ hpos.le hhigh.le 2
  have hlow3 := pow_le_pow_left₀ (by norm_num) hlow.le 3
  have hhigh3 := pow_le_pow_left₀ hpos.le hhigh.le 3
  have hhigh4 := pow_le_pow_left₀ hpos.le hhigh.le 4
  have hhigh5 := pow_le_pow_left₀ hpos.le hhigh.le 5
  rw [habs] at hsin hcos
  norm_num at hlow2 hhigh2 hlow3 hhigh3 hhigh4 hhigh5
  constructor
  · rw [abs_le] at hsin ⊢
    push_cast
    constructor <;> linarith
  · rw [abs_le] at hcos ⊢
    push_cast
    constructor <;> linarith

theorem sinLut_tracks : Rotation.tracks (2 ^ 48) (2 ^ 32) (2 ^ 31 + 4294967) 150 431777037209
    281474645541751 ((sinLut.take 1024).map fun a => a.toInt.toNat) 0 (2 ^ 48) 0 = true := by
  decide +kernel

/-- Every entry is rounded to the nearest number, up to a thousandth. -/
theorem sinEntry_near {i : ℕ} (hi : i ≤ 1024) :
    |(sinEntry i : ℝ) - 65536 * Real.sin (i * sinStep)| ≤ 501 / 1000 := by
  rcases Nat.eq_or_lt_of_le hi with rfl | hlt
  · have hquarter : ((1024 : ℕ) : ℝ) * sinStep = Real.pi / 2 := by
      rw [sinStep]
      push_cast
      ring
    rw [sinEntry_above le_rfl, hquarter, Real.sin_pi_div_two]
    norm_num
  · have hstart : Rotation.Near (2 ^ 48) (0 : ℕ) 0 0 (2 ^ 48) := by
      constructor <;> simp
    have hentry : ((sinLut.take 1024).map fun a => a.toInt.toNat)[i]? = some (sinEntry i) := by
      have hlen : i < sinLut.length := by
        rw [length_sinLut]
        omega
      rw [List.getElem?_map, List.getElem?_take_of_lt hlt, List.getElem?_eq_getElem hlen, sinEntry,
        List.getD_eq_getElem _ _ hlen]
      rfl
    have htrack := Rotation.tracks_sound (by decide) near_sinStep hstart sinLut_tracks hentry
    rw [zero_add] at htrack
    rw [abs_le] at htrack ⊢
    push_cast at htrack
    constructor <;> linarith

/-! ## The interpolation -/

theorem quarterSine_near {t : ℕ} (ht : t ≤ 16384) :
    |(quarterSine t : ℝ) - 65536 * Real.sin (QuarterWave.angle 16384 t)| ≤ 5 / 3 := by
  rcases Nat.eq_or_lt_of_le ht with rfl | hlt
  · have hquarter : QuarterWave.angle 16384 16384 = Real.pi / 2 := by
      rw [QuarterWave.angle]
      push_cast
      ring
    rw [quarterSine_quarter, hquarter, Real.sin_pi_div_two]
    norm_num
  · obtain ⟨hlow, hhigh⟩ := sinStep_bounds
    have hpos : 0 < sinStep := by linarith
    have hangle : QuarterWave.angle 16384 t = (t : ℝ) / (16 : ℕ) * sinStep := by
      rw [QuarterWave.angle, sinStep]
      push_cast
      ring
    have hlookup := TableAccuracy.abs_interpolate_sub_le (f := Real.sin) (g := Real.cos) (L := 1) (t := t)
      sinEntry_mono (by decide : 0 < 16) (by norm_num : (0 : ℝ) ≤ 65536) zero_le_one hpos.le
      Real.hasDerivAt_sin (fun x y => by rw [one_mul]; exact Real.abs_cos_sub_cos_le x y)
      (sinEntry_near (by omega)) (sinEntry_near (by omega))
    have hsquare := pow_le_pow_left₀ hpos.le hhigh.le 2
    norm_num at hsquare
    rw [quarterSine, hangle]
    linarith

/-- The sine and the cosine of an angle, as close as the table and the interpolation make them. -/
theorem turnSine_near (angle : UInt16) :
    |(turnSine angle.toNat : ℝ) - 65536 * Real.sin (radians angle)| ≤ 5 / 3 ∧
      |(turnSine (angle.toNat + 16384) : ℝ) - 65536 * Real.cos (radians angle)| ≤ 5 / 3 := by
  have hnear := QuarterWave.abs_wave_sub_sin_le (by decide : 0 < 16384) fun r hr => quarterSine_near hr
  have hangle : QuarterWave.angle 16384 angle.toNat = radians angle := by
    rw [QuarterWave.angle, radians, brad]
    push_cast
    ring
  have hangle' : QuarterWave.angle 16384 (angle.toNat + 16384) = radians angle + Real.pi / 2 := by
    rw [QuarterWave.angle, radians, brad]
    push_cast
    ring
  have hsine := hnear angle.toNat
  have hcosine := hnear (angle.toNat + 16384)
  rw [hangle] at hsine
  rw [hangle', Real.sin_add_pi_div_two] at hcosine
  exact ⟨hsine, hcosine⟩

/-- For every angle `cb_fx16_sin` and `cb_fx16_cos` are wrong by at most five thirds of a unit in the
last place. -/
theorem sine_cosine_accurate (angle : UInt16) : ∃ s c, fx16Sin angle = some s ∧ fx16Cos angle = some c ∧
    |(s.toInt : ℝ) - fx16One.toInt * Real.sin (radians angle)| ≤ 5 / 3 ∧
    |(c.toInt : ℝ) - fx16One.toInt * Real.cos (radians angle)| ≤ 5 / 3 := by
  obtain ⟨s, hs, hsval⟩ := fx16Sin_spec angle
  obtain ⟨c, hc, hcval⟩ := fx16Cos_spec angle
  have hone : (fx16One.toInt : ℝ) = 65536 := by
    have hint : fx16One.toInt = 65536 := rfl
    rw [hint]
    norm_num
  refine ⟨s, c, hs, hc, ?_⟩
  rw [hsval, hcval, hone]
  exact turnSine_near angle

end CBase.Fixed
