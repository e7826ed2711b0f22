import Mathlib.Data.List.Induction

/-!
# Collisions of an iterated function

A hash that folds a function `f : σ → β → σ` over the blocks of a padded message gives back a
collision of `f` for every collision of its own, on the way through the two messages. The padding
matters only through the last block: lists of blocks that differ in length must differ there.

* `Reads f s₀ bs s b`: folding `f` over `bs` from `s₀` applies it to the state `s` and the block `b`.
* `Collides`: the folds over two lists apply `f` to two different arguments with one value.
* `collides`: two different lists with one value of the fold.
-/

namespace MerkleDamgard

variable {σ β : Type} {f : σ → β → σ} {s₀ s : σ} {b : β} {xs ys : List β}

def Reads (f : σ → β → σ) (s₀ : σ) (bs : List β) (s : σ) (b : β) : Prop :=
  ∃ before after, bs = before ++ b :: after ∧ s = before.foldl f s₀

/-- Somewhere on the way through the two lists `f` takes different arguments to the same state. -/
def Collides (f : σ → β → σ) (s₀ : σ) (xs ys : List β) : Prop :=
  ∃ s b s' b', Reads f s₀ xs s b ∧ Reads f s₀ ys s' b' ∧ (s, b) ≠ (s', b') ∧ f s b = f s' b'

theorem Reads.last (f : σ → β → σ) (s₀ : σ) (xs : List β) (b : β) :
    Reads f s₀ (xs ++ [b]) (xs.foldl f s₀) b := ⟨xs, [], rfl, rfl⟩

theorem Reads.append (h : Reads f s₀ xs s b) (zs : List β) : Reads f s₀ (xs ++ zs) s b := by
  obtain ⟨before, after, rfl, rfl⟩ := h
  exact ⟨before, after ++ zs, by rw [List.append_assoc, List.cons_append], rfl⟩

/-- Different last arguments with one value are a collision at once. -/
theorem collides_last {x y : β} (hne : (xs.foldl f s₀, x) ≠ (ys.foldl f s₀, y))
    (heq : (xs ++ [x]).foldl f s₀ = (ys ++ [y]).foldl f s₀) :
    Collides f s₀ (xs ++ [x]) (ys ++ [y]) := by
  rw [List.foldl_append, List.foldl_append] at heq
  exact ⟨_, x, _, y, .last f s₀ xs x, .last f s₀ ys y, hne, heq⟩

/-- For lists of one length the collision is where they differ for the last time, or later. -/
theorem collides_of_length (hlen : xs.length = ys.length) (hne : xs ≠ ys)
    (heq : xs.foldl f s₀ = ys.foldl f s₀) : Collides f s₀ xs ys := by
  induction xs using List.reverseRecOn generalizing ys with
  | nil => exact absurd (List.eq_nil_of_length_eq_zero hlen.symm).symm hne
  | append_singleton xs x ih =>
    cases ys using List.reverseRecOn with
    | nil => simp at hlen
    | append_singleton ys y =>
      by_cases hsame : (xs.foldl f s₀, x) = (ys.foldl f s₀, y)
      · rw [Prod.mk.injEq] at hsame
        obtain ⟨hstate, rfl⟩ := hsame
        have hlen' : xs.length = ys.length := by simpa using hlen
        obtain ⟨s, b, s', b', hs, hs', hcollision⟩ := ih hlen' (fun h => hne (by rw [h])) hstate
        exact ⟨s, b, s', b', hs.append _, hs'.append _, hcollision⟩
      · exact collides_last hsame heq

/-- Two lists with one value of the fold collide, if lists of different length have different last
blocks. -/
theorem collides (hne : xs ≠ ys) (heq : xs.foldl f s₀ = ys.foldl f s₀)
    (hlast : xs.length ≠ ys.length → ∃ xs' x ys' y, xs = xs' ++ [x] ∧ ys = ys' ++ [y] ∧ x ≠ y) :
    Collides f s₀ xs ys := by
  by_cases hlen : xs.length = ys.length
  · exact collides_of_length hlen hne heq
  · obtain ⟨xs', x, ys', y, rfl, rfl, hxy⟩ := hlast hlen
    exact collides_last (fun h => hxy (congrArg Prod.snd h)) heq

end MerkleDamgard
