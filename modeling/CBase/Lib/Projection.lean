import CBase.Lib.Run

/-!
# Runs through a projection of the state

`core` is a part of the state, and some steps of a run leave it alone. `Linked core c l c'` says that the
steps `l` lead from `c` to `c'` as far as the core goes.

* `Run.linked`: the steps of a run that are kept are linked, if the others leave the core alone.
* `Linked.agree`: two lists of steps stay in the same core, if steps that are related do.
-/

variable {σ ι κ : Type} {core : σ → κ}

/-- Every step begins in the core in which the step before it ends. -/
def Linked (core : σ → κ) : κ → List (Taken σ ι) → κ → Prop
  | c, [], c' => c = c'
  | c, t :: l, c' => core t.pre = c ∧ Linked core (core t.post) l c'

namespace Linked

variable {c c' c₁ c₂ : κ} {l l' : List (Taken σ ι)} {t : Taken σ ι}

theorem snoc (h : Linked core c l (core t.pre)) : Linked core c (l ++ [t]) (core t.post) := by
  induction l generalizing c with
  | nil => exact ⟨h.symm, rfl⟩
  | cons u l ih => exact ⟨h.1, ih h.2⟩

/-- Related steps that begin in the same core end in the same core. -/
theorem agree {R Q : Taken σ ι → Taken σ ι → Prop} (h : Linked core c l c₁) (h' : Linked core c l' c₂)
    (hrel : List.Forall₂ R l l')
    (hstep : ∀ t ∈ l, ∀ t' ∈ l', R t t' → core t.pre = core t'.pre → core t.post = core t'.post ∧ Q t t') :
    c₁ = c₂ ∧ List.Forall₂ (fun t t' => core t.pre = core t'.pre ∧ core t.post = core t'.post ∧ Q t t')
      l l' := by
  induction hrel generalizing c with
  | nil => exact ⟨h.symm.trans h', .nil⟩
  | @cons t t' l l' hR _ ih =>
    obtain ⟨hpre, hrest⟩ := h
    obtain ⟨hpre', hrest'⟩ := h'
    have hsame := hpre.trans hpre'.symm
    obtain ⟨hpost, hQ⟩ := hstep t List.mem_cons_self t' List.mem_cons_self hR hsame
    rw [hpost] at hrest
    obtain ⟨hend, hall⟩ := ih hrest hrest' fun u hu u' hu' =>
      hstep u (List.mem_cons_of_mem _ hu) u' (List.mem_cons_of_mem _ hu')
    exact ⟨hend, .cons ⟨hsame, hpost, hQ⟩ hall⟩

end Linked

/-- The steps that are kept lead from the first core to the last. -/
theorem Run.linked {step : σ → ι → σ → Prop} {s₀ s : σ} {h : List (Taken σ ι)} {keep : Taken σ ι → Bool}
    (hrun : Run step s₀ h s) (hquiet : ∀ t ∈ h, keep t = false → core t.post = core t.pre) :
    Linked core (core s₀) (h.filter keep) (core s) := by
  induction hrun with
  | nil => exact rfl
  | @snoc h s s' i _ _ ih =>
    have hlinked := ih fun t ht => hquiet t (List.mem_append_left _ ht)
    rw [List.filter_append]
    cases hkeep : keep ⟨s, i, s'⟩ with
    | true =>
      rw [List.filter_cons_of_pos hkeep]
      exact Linked.snoc (t := ⟨s, i, s'⟩) hlinked
    | false =>
      have hsame : core s' = core s :=
        hquiet _ (List.mem_append_right _ (List.mem_singleton_self _)) hkeep
      rw [List.filter_cons_of_neg (by simp [hkeep]), hsame]
      simpa using hlinked
