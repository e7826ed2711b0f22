import Mathlib.Data.Set.Card

/-!
# Threads that wait for a condition

A thread in a phase with `blocked` sleeps until it is woken, one with `woken` was woken and has not run
yet. `Covered n` says that a wakeup is on its way for each of `n` units, as long as some thread sleeps.

* `Covered.keep`: nothing woken has run.
* `Covered.gain`: a signal wakes a sleeper, so one more unit is covered.
* `Covered.lose`: one thread runs and takes one unit.
-/

namespace Wakeups

variable {θ φ : Type} {blocked woken : φ → Prop} {p p' : θ → φ} {n : Nat}

/-- When a thread sleeps, at least `n` threads have been woken and have not run. -/
def Covered (blocked woken : φ → Prop) (n : Nat) (p : θ → φ) : Prop :=
  (∃ t, blocked (p t)) → (n : ℕ∞) ≤ {t | woken (p t)}.encard

theorem Covered.zero : Covered blocked woken 0 p := fun _ => by simp

theorem Covered.keep (h : Covered blocked woken n p) (hblocked : ∀ t, blocked (p' t) → blocked (p t))
    (hwoken : ∀ t, woken (p t) → woken (p' t)) : Covered blocked woken n p' := fun ⟨t, ht⟩ =>
  (h ⟨t, hblocked t ht⟩).trans (Set.encard_le_encard hwoken)

/-- A signal: when a thread sleeps, one that was not woken is. -/
theorem Covered.gain (h : Covered blocked woken n p)
    (hblocked : ∀ t, blocked (p' t) → blocked (p t)) (hwoken : ∀ t, woken (p t) → woken (p' t))
    (hsignal : (∃ t, blocked (p t)) → ∃ t, ¬ woken (p t) ∧ woken (p' t)) :
    Covered blocked woken (n + 1) p' := by
  rintro ⟨t, ht⟩
  have hsleeps : ∃ t, blocked (p t) := ⟨t, hblocked t ht⟩
  obtain ⟨u, hu, hu'⟩ := hsignal hsleeps
  have hnew : u ∉ {t | woken (p t)} := hu
  have hsub : insert u {t | woken (p t)} ⊆ {t | woken (p' t)} := by
    rintro v (rfl | hv)
    · exact hu'
    · exact hwoken v hv
  calc ((n + 1 : Nat) : ℕ∞) = n + 1 := by norm_cast
    _ ≤ {t | woken (p t)}.encard + 1 := add_le_add (h hsleeps) le_rfl
    _ = (insert u {t | woken (p t)}).encard := (Set.encard_insert_of_notMem hnew).symm
    _ ≤ {t | woken (p' t)}.encard := Set.encard_le_encard hsub

/-- One thread runs, and all others stay as they are. -/
theorem Covered.lose (h : Covered blocked woken (n + 1) p) (t : θ)
    (hblocked : ∀ u, blocked (p' u) → blocked (p u))
    (hwoken : ∀ u, u ≠ t → woken (p u) → woken (p' u)) : Covered blocked woken n p' := by
  rintro ⟨u, hu⟩
  have hsub : {t | woken (p t)} ⊆ insert t {t | woken (p' t)} := by
    intro v hv
    by_cases hvt : v = t
    · exact .inl hvt
    · exact .inr (hwoken v hvt hv)
  have hle : ((n + 1 : Nat) : ℕ∞) ≤ {t | woken (p' t)}.encard + 1 :=
    (h ⟨u, hblocked u hu⟩).trans ((Set.encard_le_encard hsub).trans (Set.encard_insert_le _ _))
  rw [Nat.cast_add, Nat.cast_one] at hle
  exact (ENat.add_le_add_iff_right (by decide)).mp hle

/-- A wakeup is on its way when there is a unit and a thread sleeps. -/
theorem Covered.exists_woken (h : Covered blocked woken n p) (hn : 0 < n)
    (hblocked : ∃ t, blocked (p t)) : ∃ t, woken (p t) := by
  have hle := h hblocked
  have hone : (1 : ℕ∞) ≤ {t | woken (p t)}.encard := le_trans (by exact_mod_cast hn) hle
  exact Set.one_le_encard_iff_nonempty.mp hone

end Wakeups
