import CBase.Fixed.Arith

/-!
# Linear interpolation

`cb_fx16_lerp` adds a share of the difference of its endpoints to the first of them. Each of its
three steps saturates by itself. When the difference fits, none of them does, and the rounding
towards zero leaves both endpoints and the order of the values as they are. A difference that
saturates leaves the second endpoint out of reach.

* `Interpolates`: what is expected of the values between two endpoints.
* `interpolates_iff`: the endpoints with these values.
* `lerp_misses_endpoint`: endpoints without them.
-/

namespace CBase.Fixed

open MachineInt

def fx16Lerp (a b t : Int32) : Int32 :=
  let diff := fx16Sub b a
  let scaled := fx16Mul diff t
  fx16Add a scaled

/-- The interpolation from `a` to `b` starts at `a`, ends at `b`, stays between them and never goes
away from `b`. -/
structure Interpolates (a b : Int32) : Prop where
  start : fx16Lerp a b 0 = a
  stop : fx16Lerp a b fx16One = b
  between : ∀ t, 0 ≤ t → t ≤ fx16One →
    min a.toInt b.toInt ≤ (fx16Lerp a b t).toInt ∧ (fx16Lerp a b t).toInt ≤ max a.toInt b.toInt
  approaches : ∀ t₁ t₂, 0 ≤ t₁ → t₁ ≤ t₂ → t₂ ≤ fx16One →
    (b.toInt - (fx16Lerp a b t₂).toInt).natAbs ≤ (b.toInt - (fx16Lerp a b t₁).toInt).natAbs

theorem fx16One_pos : (0 : Int) < 2 ^ 16 := by decide

theorem toInt_fx16Lerp (a b t : Int32) : (fx16Lerp a b t).toInt =
    clamp16 (a.toInt + clamp16 (share (2 ^ 16) (clamp16 (b.toInt - a.toInt)) t.toInt)) := by
  rw [fx16Lerp, toInt_fx16Add, toInt_fx16Mul, toInt_fx16Sub, share]

/-- A share of the difference, where `t` runs from zero to one. -/
theorem toInt_fx16Lerp_of_fits {a b t : Int32} (hlo : -2 ^ 31 ≤ b.toInt - a.toInt)
    (hhi : b.toInt - a.toInt < 2 ^ 31) (h0 : 0 ≤ t.toInt) (h1 : t.toInt ≤ 2 ^ 16) :
    (fx16Lerp a b t).toInt = a.toInt + share (2 ^ 16) (b.toInt - a.toInt) t.toInt := by
  obtain ⟨ha, ha'⟩ := toInt_range a
  obtain ⟨hb, hb'⟩ := toInt_range b
  have hdiff : clamp16 (b.toInt - a.toInt) = b.toInt - a.toInt := clamp_of_range hlo (by omega)
  have hshare := share_between fx16One_pos h0 (Int.le_refl _) h1 (b.toInt - a.toInt)
  rw [toInt_fx16Lerp, hdiff]
  generalize share (2 ^ 16) (b.toInt - a.toInt) t.toInt = s at hshare ⊢
  have hscaled : clamp16 s = s := clamp_of_range (by omega) (by omega)
  have hsum : clamp16 (a.toInt + s) = a.toInt + s := clamp_of_range (by omega) (by omega)
  rw [hscaled, hsum]

/-- When an interpolation reaches its second endpoint. -/
theorem fx16Lerp_one (a b : Int32) : fx16Lerp a b fx16One = b ↔
    -2 ^ 31 ≤ b.toInt - a.toInt ∧ b.toInt - a.toInt < 2 ^ 31 := by
  obtain ⟨ha, ha'⟩ := toInt_range a
  obtain ⟨hb, hb'⟩ := toInt_range b
  have hone : fx16One.toInt = 2 ^ 16 := rfl
  rw [← Int32.toInt_inj, toInt_fx16Lerp, hone, share_one (by decide)]
  simp only [clamp16, clamp]
  split_ifs <;> omega

/-- Which endpoints can be interpolated. `cb_fx16_lerp` hits both endpoints, stays between them and
never moves away from the second one if and only if their difference fits in 32 bits. -/
theorem interpolates_iff (a b : Int32) : Interpolates a b ↔
    -2 ^ 31 ≤ b.toInt - a.toInt ∧ b.toInt - a.toInt < 2 ^ 31 := by
  constructor
  · intro h
    exact (fx16Lerp_one a b).mp h.stop
  · rintro ⟨hlo, hhi⟩
    have hone : fx16One.toInt = 2 ^ 16 := rfl
    have hzero : (0 : Int32).toInt = 0 := rfl
    refine ⟨?_, (fx16Lerp_one a b).mpr ⟨hlo, hhi⟩, fun t h0 h1 => ?_, fun t₁ t₂ h0 h h1 => ?_⟩
    · rw [← Int32.toInt_inj, toInt_fx16Lerp_of_fits hlo hhi (by decide) (by decide), hzero,
        share_zero, Int.add_zero]
    · rw [Int32.le_iff_toInt_le, hzero] at h0
      rw [Int32.le_iff_toInt_le, hone] at h1
      have hshare := share_between fx16One_pos h0 (Int.le_refl _) h1 (b.toInt - a.toInt)
      rw [toInt_fx16Lerp_of_fits hlo hhi h0 h1]
      omega
    · rw [Int32.le_iff_toInt_le, hzero] at h0
      rw [Int32.le_iff_toInt_le] at h
      rw [Int32.le_iff_toInt_le, hone] at h1
      have hshare := share_between fx16One_pos h0 h h1 (b.toInt - a.toInt)
      rw [toInt_fx16Lerp_of_fits hlo hhi h0 (h.trans h1),
        toInt_fx16Lerp_of_fits hlo hhi (h0.trans h) h1]
      omega

/-- From the smallest to the largest value: the interpolation ends in the middle. -/
theorem lerp_misses_endpoint : ¬ ∀ a b : Int32, Interpolates a b := by
  intro h
  exact absurd (h fx16Min fx16Max).stop (by decide)

end CBase.Fixed
