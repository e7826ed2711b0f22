import Mathlib.Algebra.Order.Floor.Div
import Mathlib.Data.Nat.ModEq
import Mathlib.Order.Interval.Finset.Nat
import Mathlib.Tactic.Linarith
import Mathlib.Tactic.Ring

/-!
# Scaling a draw down, with rejection

A draw `x < range` is scaled to `x * bound / range`, a number below `bound`. The scaled numbers are
equally frequent once the draws with `x * bound % range < range % bound` are thrown away: each of
them then has `range / bound` draws (`card_scaled`).
-/

namespace Rejection

/-- A draw is taken unless its remainder is below the remainder of the range. -/
def Accepted (range bound x : ℕ) : Prop := range % bound ≤ x * bound % range

instance (range bound x : ℕ) : Decidable (Accepted range bound x) :=
  inferInstanceAs (Decidable (_ ≤ _))

/-- What a draw is scaled to. -/
def scaled (range bound x : ℕ) : ℕ := x * bound / range

variable {range bound x r : ℕ}

/-- The draws of one number are those whose product lies in a window of the multiples of `bound`. -/
theorem accepted_and_scaled_iff (hrange : 0 < range) :
    Accepted range bound x ∧ scaled range bound x = r ↔
      r * range + range % bound ≤ x * bound ∧ x * bound < (r + 1) * range := by
  have hdecompose := Nat.div_add_mod (x * bound) range
  have hmod := Nat.mod_lt (x * bound) hrange
  constructor
  · rintro ⟨haccepted, rfl⟩
    unfold Accepted scaled at *
    constructor
    · calc x * bound / range * range + range % bound
          ≤ range * (x * bound / range) + x * bound % range := by
            rw [Nat.mul_comm]
            exact Nat.add_le_add_left haccepted _
        _ = x * bound := hdecompose
    · calc x * bound = range * (x * bound / range) + x * bound % range := hdecompose.symm
        _ < range * (x * bound / range) + range := Nat.add_lt_add_left hmod _
        _ = (x * bound / range + 1) * range := by ring
  · rintro ⟨hlow, hhigh⟩
    have hquotient : x * bound / range = r :=
      Nat.div_eq_of_lt_le (by omega) hhigh
    refine ⟨?_, hquotient⟩
    rw [hquotient, Nat.mul_comm range r] at hdecompose
    unfold Accepted
    omega

/-- The window of a number holds `range / bound` multiples of `bound`. -/
theorem window_iff (hb : 0 < bound) :
    r * range + range % bound ≤ x * bound ∧ x * bound < (r + 1) * range ↔
      (r * range + range % bound) ⌈/⌉ bound ≤ x ∧
        x < (r * range + range % bound) ⌈/⌉ bound + range / bound := by
  have hwidth : (r + 1) * range = r * range + range % bound + range / bound * bound := by
    calc (r + 1) * range = r * range + range := by ring
      _ = r * range + (bound * (range / bound) + range % bound) := by rw [Nat.div_add_mod]
      _ = r * range + range % bound + range / bound * bound := by ring
  have hceil : ∀ y, (r * range + range % bound) ⌈/⌉ bound ≤ y ↔
      r * range + range % bound ≤ y * bound := by
    intro y
    rw [ceilDiv_le_iff_le_smul hb, smul_eq_mul, Nat.mul_comm bound y]
  rw [hceil, hwidth, ← not_le, ← not_le, Nat.add_comm _ (range / bound)]
  refine and_congr_right fun hlow => not_congr ?_
  by_cases hmany : range / bound ≤ x
  · obtain ⟨y, rfl⟩ := Nat.exists_eq_add_of_le hmany
    rw [Nat.add_le_add_iff_left, hceil, Nat.add_mul]
    omega
  · have hfew := Nat.mul_lt_mul_of_pos_right (not_le.mp hmany) hb
    constructor
    · intro hle
      omega
    · intro hle
      omega

/-- Every number below the bound is hit by the same count of accepted draws. -/
theorem card_scaled (hb : 0 < bound) (hr : r < bound) (hrange : 0 < range) :
    ((Finset.range range).filter fun x =>
      Accepted range bound x ∧ scaled range bound x = r).card = range / bound := by
  have hwindow : ((Finset.range range).filter fun x =>
      Accepted range bound x ∧ scaled range bound x = r) =
      Finset.Ico ((r * range + range % bound) ⌈/⌉ bound)
        ((r * range + range % bound) ⌈/⌉ bound + range / bound) := by
    ext x
    rw [Finset.mem_filter, Finset.mem_range, Finset.mem_Ico, accepted_and_scaled_iff hrange,
      ← window_iff hb]
    refine ⟨And.right, fun h => ⟨?_, h⟩⟩
    have hall : x * bound < range * bound :=
      calc x * bound < (r + 1) * range := h.2
        _ ≤ bound * range := Nat.mul_le_mul_right _ hr
        _ = range * bound := Nat.mul_comm _ _
    exact Nat.lt_of_mul_lt_mul_right hall
  rw [hwindow, Nat.card_Ico, Nat.add_sub_cancel_left]

end Rejection
