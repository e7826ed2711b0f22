import Mathlib.Data.Fin.Tuple.Basic
import Mathlib.GroupTheory.Perm.Option
import Mathlib.Logic.Equiv.Fin.Basic

/-!
# The Fisher–Yates shuffle

From the last position down, the element at a position is exchanged with one that is drawn from the
positions up to it. `shuffle` is the run on a list and `perm` the permutation of positions that it
comes to.

* `getElem?_shuffle`: what stands at each position after the run.
* `perm_bijective`: each permutation belongs to exactly one sequence of draws.
-/

namespace FisherYates

open Equiv

variable {α : Type} {m : ℕ}

/-- For each position from 1 to `m` a position up to it. -/
abbrev Draws (m : ℕ) := (i : Fin m) → Fin (i.val + 2)

def Draws.top (d : Draws (m + 1)) : Fin (m + 2) := d (Fin.last m)

def Draws.rest (d : Draws (m + 1)) : Draws m := fun i => d i.castSucc

/-- The permutation that leaves a new last position alone. -/
def extend (e : Perm (Fin m)) : Perm (Fin (m + 1)) := finSuccEquivLast.symm.permCongr e.optionCongr

/-- The permutation of positions that a sequence of draws comes to. -/
def perm : (m : ℕ) → Draws m → Perm (Fin (m + 1))
  | 0, _ => 1
  | m + 1, d => swap (Fin.last (m + 1)) d.top * extend (perm m d.rest)

/-- `xs` with the elements at `i` and `j` exchanged. -/
def exchange (xs : List α) (i j : ℕ) : List α :=
  match xs[i]?, xs[j]? with
  | some x, some y => (xs.set i y).set j x
  | _, _ => xs

def shuffle : (m : ℕ) → Draws m → List α → List α
  | 0, _, xs => xs
  | m + 1, d, xs => shuffle m d.rest (exchange xs (m + 1) d.top)

/-! ## Exchanges -/

theorem exchange_eq {xs : List α} {i j : ℕ} (hi : i < xs.length) (hj : j < xs.length) :
    exchange xs i j = (xs.set i xs[j]).set j xs[i] := by
  unfold exchange
  rw [List.getElem?_eq_getElem hi, List.getElem?_eq_getElem hj]

@[simp] theorem length_exchange (xs : List α) (i j : ℕ) : (exchange xs i j).length = xs.length := by
  unfold exchange
  split
  · rw [List.length_set, List.length_set]
  · rfl

theorem exchange_self (xs : List α) (i : ℕ) : exchange xs i i = xs := by
  by_cases hi : i < xs.length
  · rw [exchange_eq hi hi, List.set_set, List.set_getElem_self]
  · unfold exchange
    rw [List.getElem?_eq_none (by omega)]

theorem exchange_perm (xs : List α) (i j : ℕ) : (exchange xs i j).Perm xs := by
  by_cases h : i < xs.length ∧ j < xs.length
  · rw [exchange_eq h.1 h.2]
    exact List.set_set_perm h.1 h.2
  · unfold exchange
    split
    · next hx hy =>
      exact absurd ⟨(List.getElem?_eq_some_iff.mp hx).1, (List.getElem?_eq_some_iff.mp hy).1⟩ h
    · exact List.Perm.refl _

theorem getElem?_exchange {xs : List α} {i j : ℕ} (hi : i < xs.length) (hj : j < xs.length) (p : ℕ) :
    (exchange xs i j)[p]? = xs[swap i j p]? := by
  rw [exchange_eq hi hj, swap_apply_def, List.getElem?_set, List.getElem?_set, List.length_set]
  by_cases hpj : j = p
  · subst hpj
    by_cases hij : j = i
    · subst hij
      simp [hi]
    · simp [hij, hi, hj]
  · by_cases hpi : i = p
    · subst hpi
      simp [hpj, hi, hj]
    · simp [hpj, hpi, Ne.symm hpj, Ne.symm hpi]

/-! ## The run on a list -/

@[simp] theorem length_shuffle (d : Draws m) (xs : List α) : (shuffle m d xs).length = xs.length := by
  induction m generalizing xs with
  | zero => rfl
  | succ m ih => rw [shuffle, ih, length_exchange]

theorem shuffle_perm (d : Draws m) (xs : List α) : (shuffle m d xs).Perm xs := by
  induction m generalizing xs with
  | zero => exact List.Perm.refl _
  | succ m ih => exact (ih d.rest _).trans (exchange_perm _ _ _)

/-- The positions above the run keep their elements. -/
theorem getElem?_shuffle_above (d : Draws m) {xs : List α} (hm : m < xs.length) {p : ℕ} (hp : m < p) :
    (shuffle m d xs)[p]? = xs[p]? := by
  induction m generalizing xs with
  | zero => rfl
  | succ m ih =>
    have htop := d.top.isLt
    rw [shuffle, ih d.rest (by rw [length_exchange]; omega) (by omega),
      getElem?_exchange hm (by omega), swap_apply_of_ne_of_ne (by omega) (by omega)]

theorem extend_castSucc (e : Perm (Fin m)) (i : Fin m) : extend e i.castSucc = (e i).castSucc := by
  simp [extend, permCongr_apply]

theorem extend_last (e : Perm (Fin m)) : extend e (Fin.last m) = Fin.last m := by
  simp [extend, permCongr_apply]

theorem val_swap (a b c : Fin m) : (swap a b c).val = swap a.val b.val c.val := by
  simp only [swap_apply_def, Fin.ext_iff]
  split_ifs <;> rfl

/-- The run puts at each position what `perm` says. -/
theorem getElem?_shuffle (d : Draws m) {xs : List α} (hm : m < xs.length) (p : Fin (m + 1)) :
    (shuffle m d xs)[p.val]? = xs[(perm m d p).val]? := by
  induction m generalizing xs with
  | zero => rfl
  | succ m ih =>
    have htop := d.top.isLt
    have hlen : m < (exchange xs (m + 1) d.top).length := by
      rw [length_exchange]
      omega
    cases p using Fin.lastCases with
    | last =>
      rw [shuffle, Fin.val_last, getElem?_shuffle_above d.rest hlen (Nat.lt_succ_self m),
        getElem?_exchange hm (by omega), perm, Perm.mul_apply, extend_last, swap_apply_left,
        swap_apply_left]
    | cast q =>
      rw [shuffle, Fin.val_castSucc, ih d.rest hlen, getElem?_exchange hm (by omega), perm,
        Perm.mul_apply, extend_castSucc, val_swap, Fin.val_last, Fin.val_castSucc]

/-! ## One sequence of draws for each permutation -/

/-- A permutation is where the last position goes and a permutation of the others. -/
theorem place_bijective (m : ℕ) : Function.Bijective fun p : Fin (m + 1) × Perm (Fin m) =>
    swap (Fin.last m) p.1 * extend p.2 := by
  have heq : (fun p : Fin (m + 1) × Perm (Fin m) => swap (Fin.last m) p.1 * extend p.2) =
      finSuccEquivLast.symm.permCongr ∘ Perm.decomposeOption.symm ∘
        Prod.map finSuccEquivLast id := by
    funext p
    have hswap : finSuccEquivLast.symm.permCongr (swap none (finSuccEquivLast p.1)) =
        swap (Fin.last m) p.1 := by
      rw [permCongr_def, symm_trans_swap_trans, finSuccEquivLast_symm_none, symm_apply_apply]
    change _ = finSuccEquivLast.symm.permCongr
      (swap none (finSuccEquivLast p.1) * p.2.optionCongr)
    rw [permCongr_mul, hswap, extend]
  rw [heq]
  exact (permCongr _).bijective.comp
    (Perm.decomposeOption.symm.bijective.comp (finSuccEquivLast.bijective.prodMap Function.bijective_id))

theorem split_bijective (m : ℕ) :
    Function.Bijective fun d : Draws (m + 1) => (d.top, d.rest) :=
  (Fin.snocEquiv fun i : Fin (m + 1) => Fin (i.val + 2)).symm.bijective

theorem perm_bijective (m : ℕ) : Function.Bijective (perm m) := by
  induction m with
  | zero =>
    refine ⟨fun d e _ => funext fun i => i.elim0, fun e => ⟨fun i => i.elim0, ?_⟩⟩
    exact Equiv.ext fun i => Fin.ext (by omega)
  | succ m ih =>
    have hcomp : perm (m + 1) = (fun p : Fin (m + 2) × Perm (Fin (m + 1)) =>
        swap (Fin.last (m + 1)) p.1 * extend p.2) ∘ Prod.map id (perm m) ∘
          fun d => (d.top, d.rest) := rfl
    rw [hcomp]
    exact (place_bijective (m + 1)).comp
      ((Function.bijective_id.prodMap ih).comp (split_bijective m))

end FisherYates
