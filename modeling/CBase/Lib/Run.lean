import Mathlib.Data.List.Induction
import Mathlib.Data.List.Forall2

/-!
# Runs of a labelled transition relation

`Run step s₀ h s`: the labelled relation `step` leads from `s₀` to `s`, and `h` is what it did on
the way, oldest step first. The history keeps the state before and after every step, so that a
property of a run can speak about any moment of it.

* `Run.invariant`, `Run.invariant_hist`: the induction rules (start and one step).
* `Run.taken`: every entry of the history is a step between two states of the run.
* `Run.simulate`: a forward simulation carries a run of one machine to a run of another.
-/

variable {σ ι τ κ : Type}

/-- One step of a run: the state before it, its label and the state after it. -/
structure Taken (σ ι : Type) where
  pre : σ
  label : ι
  post : σ

/-- Runs of `step` from `s₀`, with their history. -/
inductive Run (step : σ → ι → σ → Prop) (s₀ : σ) : List (Taken σ ι) → σ → Prop
  | nil : Run step s₀ [] s₀
  | snoc {h : List (Taken σ ι)} {s s' : σ} {i : ι} :
      Run step s₀ h s → step s i s' → Run step s₀ (h ++ [⟨s, i, s'⟩]) s'

namespace Run

variable {step : σ → ι → σ → Prop} {s₀ s : σ} {h : List (Taken σ ι)}

/-- What holds at the start and is kept by every step holds after every run, together with the
history so far. -/
theorem invariant_hist (P : List (Taken σ ι) → σ → Prop) (hrun : Run step s₀ h s)
    (start : P [] s₀)
    (keep : ∀ h s i s', Run step s₀ h s → P h s → step s i s' → P (h ++ [⟨s, i, s'⟩]) s') :
    P h s := by
  induction hrun with
  | nil => exact start
  | snoc hr hs ih => exact keep _ _ _ _ hr ih hs

/-- The same rule for a property of the state alone. -/
theorem invariant (P : σ → Prop) (hrun : Run step s₀ h s) (start : P s₀)
    (keep : ∀ s i s', P s → step s i s' → P s') : P s :=
  invariant_hist (fun _ s => P s) hrun start fun _ _ _ _ _ hp hs => keep _ _ _ hp hs

theorem single {i : ι} {s' : σ} (hs : step s i s') : Run step s [⟨s, i, s'⟩] s' :=
  snoc nil hs

theorem append {h' : List (Taken σ ι)} {s' : σ} (h₁ : Run step s₀ h s)
    (h₂ : Run step s h' s') : Run step s₀ (h ++ h') s' := by
  induction h₂ with
  | nil => simpa using h₁
  | snoc _ hs ih => rw [← List.append_assoc]; exact snoc ih hs

/-- A run splits at every point of its history. -/
theorem split {h' : List (Taken σ ι)} (hrun : Run step s₀ (h ++ h') s) :
    ∃ m, Run step s₀ h m ∧ Run step m h' s := by
  induction h' using List.reverseRecOn generalizing s with
  | nil => exact ⟨s, by simpa using hrun, nil⟩
  | append_singleton h' t ih =>
    generalize hk : h ++ (h' ++ [t]) = k at hrun
    cases hrun with
    | nil => simp at hk
    | @snoc k r _ i hr hs =>
      rw [← List.append_assoc] at hk
      obtain ⟨rfl, ht⟩ := List.append_inj' hk rfl
      obtain ⟨m, hm, hm'⟩ := ih hr
      cases ht
      exact ⟨m, hm, snoc hm' hs⟩

/-- Every entry of the history is a step, from a state that the run reached to the next. -/
theorem taken {t : Taken σ ι} (hrun : Run step s₀ h s) (ht : t ∈ h) :
    step t.pre t.label t.post := by
  induction hrun with
  | nil => cases ht
  | snoc _ hs ih =>
    rcases List.mem_append.mp ht with h' | h'
    · exact ih h'
    · rw [List.mem_singleton.mp h']; exact hs

theorem of_nil (hrun : Run step s₀ [] s) : s = s₀ := by
  generalize hk : ([] : List (Taken σ ι)) = k at hrun
  cases hrun with
  | nil => rfl
  | snoc _ _ => simp at hk

/-- A run of exactly one entry. -/
theorem of_singleton {t : Taken σ ι} (hrun : Run step s₀ [t] s) :
    t.pre = s₀ ∧ t.post = s ∧ step s₀ t.label s := by
  generalize hk : [t] = k at hrun
  cases hrun with
  | nil => cases hk
  | @snoc h' r _ i hr hs =>
    have hnil : h' = [] := by
      cases h' with
      | nil => rfl
      | cons _ l => simp at hk
    subst hnil
    cases hk
    obtain rfl := of_nil hr
    exact ⟨rfl, rfl, hs⟩

/-- The history up to one of its entries is a run to the state before that entry. -/
theorem at_entry {h' : List (Taken σ ι)} {t : Taken σ ι} (hrun : Run step s₀ (h ++ t :: h') s) :
    Run step s₀ h t.pre ∧ step t.pre t.label t.post ∧ Run step t.post h' s := by
  obtain ⟨m, hm, hrest⟩ := split hrun
  rw [← List.singleton_append] at hrest
  obtain ⟨m', hone, hrest⟩ := split hrest
  obtain ⟨rfl, rfl, hs⟩ := of_singleton hone
  exact ⟨hm, hs, hrest⟩

/-- What a run does at every entry of its history, under an invariant. -/
theorem forall_taken (P : σ → Prop) (Q : Taken σ ι → Prop) (hrun : Run step s₀ h s)
    (start : P s₀) (keep : ∀ s i s', P s → step s i s' → P s' ∧ Q ⟨s, i, s'⟩) :
    P s ∧ ∀ t ∈ h, Q t := by
  refine invariant_hist (fun h s => P s ∧ ∀ t ∈ h, Q t) hrun ⟨start, by simp⟩ ?_
  intro h s i s' _ ⟨hp, hq⟩ hs
  obtain ⟨hp', hq'⟩ := keep s i s' hp hs
  refine ⟨hp', fun t ht => ?_⟩
  rcases List.mem_append.mp ht with ht | ht
  · exact hq t ht
  · rw [List.mem_singleton.mp ht]; exact hq'

/-- A forward simulation: every step of the first machine is matched by the second. -/
theorem simulate {r : τ → κ → τ → Prop} {t₀ : τ} (R : σ → τ → Prop) (L : ι → κ → Prop)
    (hrun : Run step s₀ h s) (start : R s₀ t₀)
    (sim : ∀ s i s' t, R s t → step s i s' → ∃ k t', r t k t' ∧ L i k ∧ R s' t') :
    ∃ h' t, Run r t₀ h' t ∧ R s t ∧
      List.Forall₂ (fun a b => R a.pre b.pre ∧ L a.label b.label ∧ R a.post b.post) h h' := by
  induction hrun with
  | nil => exact ⟨[], t₀, nil, start, .nil⟩
  | @snoc h q s' i _ hs ih =>
    obtain ⟨h', t, hrun', hr, hh⟩ := ih
    obtain ⟨k, t', hk, hl, hr'⟩ := sim _ _ _ _ hr hs
    exact ⟨_, t', snoc hrun' hk, hr', List.rel_append hh (.cons ⟨hr, hl, hr'⟩ .nil)⟩

end Run
