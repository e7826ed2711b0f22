import Mathlib.Data.Option.Basic
import Mathlib.Data.List.Basic

/-!
# Machines that answer

A machine answers a request and goes to its next state, or it has no answer.

* `run`: the answers to a list of requests, with the state behind them.
* `run_alike`: machines that answer alike in related states cannot be told apart.
* `run_ghost`, `run_keeps`: what every answer keeps, with or without a book of the answers.
-/

namespace Machine

variable {σ τ α ρ : Type}

/-- The answers to a list of requests. There are none if one request has none. -/
def run (act : σ → α → Option (ρ × σ)) : σ → List α → Option (List ρ × σ)
  | s, [] => some ([], s)
  | s, a :: as =>
    match act s a with
    | none => none
    | some (r, s) => (run act s as).map fun (rs, s) => (r :: rs, s)

variable {f : σ → α → Option (ρ × σ)} {g : τ → α → Option (ρ × τ)} {R : σ → τ → Prop}

/-- The same answer and related states, or no answer on either side. -/
def Alike (R : σ → τ → Prop) : Option (ρ × σ) → Option (ρ × τ) → Prop :=
  Option.Rel fun x y => x.1 = y.1 ∧ R x.2 y.2

theorem run_cons {s s' : σ} {a : α} {r : ρ} (h : f s a = some (r, s')) (as : List α) :
    run f s (a :: as) = (run f s' as).map fun (rs, s) => (r :: rs, s) := by
  rw [run, h]

/-- Machines that answer alike in related states cannot be told apart. -/
theorem run_alike (h : ∀ s t a, R s t → Alike R (f s a) (g t a)) {s : σ} {t : τ} (hR : R s t)
    (as : List α) : Alike R (run f s as) (run g t as) := by
  induction as generalizing s t with
  | nil => exact .some ⟨rfl, hR⟩
  | cons a as ih =>
    have hstep := h s t a hR
    unfold run
    generalize f s a = x at hstep
    generalize g t a = y at hstep
    cases hstep with
    | none => exact .none
    | @some x y hxy =>
      obtain ⟨r, s'⟩ := x
      obtain ⟨r', t'⟩ := y
      obtain ⟨heq, hR'⟩ := hxy
      have hrest := ih hR'
      show Alike R (Option.map _ (run f s' as)) (Option.map _ (run g t' as))
      generalize run f s' as = x at hrest
      generalize run g t' as = y at hrest
      cases hrest with
      | none => exact .none
      | some hrest => exact .some ⟨congrArg₂ List.cons heq hrest.1, hrest.2⟩

/-- The answers of machines that answer alike are the same. -/
theorem answers_eq (h : ∀ s t a, R s t → Alike R (f s a) (g t a)) {s : σ} {t : τ} (hR : R s t)
    (as : List α) : (run f s as).map Prod.fst = (run g t as).map Prod.fst := by
  have hrun := run_alike h hR as
  generalize run f s as = x at hrun
  generalize run g t as = y at hrun
  cases hrun with
  | none => rfl
  | some heq => exact congrArg some heq.1

/-- What is booked of the requests and their answers stays true of the state. -/
theorem run_ghost {γ : Type} (G : γ → σ → Prop) (book : γ → α × ρ → γ)
    (h : ∀ l s a r s', G l s → f s a = some (r, s') → G (book l (a, r)) s') {l : γ} {s s' : σ}
    {as : List α} {rs : List ρ} (hs : G l s) (hrun : run f s as = some (rs, s')) :
    G ((as.zip rs).foldl book l) s' := by
  induction as generalizing l s rs with
  | nil =>
    cases hrun
    exact hs
  | cons a as ih =>
    cases hact : f s a with
    | none =>
      rw [run, hact] at hrun
      cases hrun
    | some answer =>
      obtain ⟨r, s₁⟩ := answer
      rw [run_cons hact] at hrun
      obtain ⟨⟨rs', s₂⟩, hrest, heq⟩ := Option.map_eq_some_iff.mp hrun
      cases heq
      exact ih (h _ _ _ _ _ hs hact) hrest

/-- What every answer keeps holds after every run. -/
theorem run_keeps (P : σ → Prop) (h : ∀ s a r s', P s → f s a = some (r, s') → P s') {s s' : σ}
    {as : List α} {rs : List ρ} (hs : P s) (hrun : run f s as = some (rs, s')) : P s' :=
  run_ghost (l := ()) (fun _ => P) (fun l _ => l) (fun _ => h) hs hrun

end Machine
