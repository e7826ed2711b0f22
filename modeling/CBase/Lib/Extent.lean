import Mathlib.Data.List.Pairwise

/-!
# Extents of addresses

Half-open ranges of addresses, when one lies within another and when two are apart, and the step of
a bump allocator: taking the addresses after everything that was taken before keeps all extents
apart.
-/

/-- The addresses from `start` up to `stop`. -/
structure Extent where
  start : Nat
  stop : Nat
  deriving DecidableEq, Repr

namespace Extent

variable {ι : Type} {r s t u : Extent}

/-- All addresses of `r` are addresses of `s`. -/
def Within (r s : Extent) : Prop := s.start ≤ r.start ∧ r.stop ≤ s.stop

/-- One of the two ends before the other starts. -/
def Apart (r s : Extent) : Prop := r.stop ≤ s.start ∨ s.stop ≤ r.start

theorem Within.trans (h₁ : r.Within s) (h₂ : s.Within t) : r.Within t :=
  ⟨Nat.le_trans h₂.1 h₁.1, Nat.le_trans h₁.2 h₂.2⟩

theorem Apart.symm (h : r.Apart s) : s.Apart r := Or.symm h

/-- Parts of extents that are apart are apart. -/
theorem Apart.mono (h : t.Apart u) (hr : r.Within t) (hs : s.Within u) : r.Apart s :=
  h.imp (fun h => Nat.le_trans hr.2 (Nat.le_trans h hs.1))
    (fun h => Nat.le_trans hs.2 (Nat.le_trans h hr.1))

/-- Two extents of a list are the same entry or apart. -/
theorem apart_of_mem {l : List ι} {f : ι → Extent} (hl : (l.map f).Pairwise Apart) {x y : ι}
    (hx : x ∈ l) (hy : y ∈ l) (hne : x ≠ y) : (f x).Apart (f y) := by
  have hsymm : Std.Symm fun x y => (f x).Apart (f y) := ⟨fun _ _ h => h.symm⟩
  exact (List.pairwise_map.mp hl).forall hx hy hne

/-- The step of a bump allocator. `f` is the memory of a block and `g` the part of it that is
handed out. When the extents `l` lie in what the blocks `k` and `b` have handed out, a new extent
after what `b` has handed out is apart from all of them. -/
theorem apart_bump {k : List ι} {b : ι} {f g : ι → Extent} {l : List Extent}
    (hf : ((k ++ [b]).map f).Pairwise Apart) (hg : ∀ x ∈ k ++ [b], (g x).Within (f x))
    (hl : ∀ r ∈ l, ∃ x ∈ k ++ [b], r.Within (g x)) (hs : s.Within (f b))
    (hafter : (g b).stop ≤ s.start) : ∀ r ∈ l, s.Apart r := by
  intro r hr
  obtain ⟨x, hx, hrx⟩ := hl r hr
  rcases List.mem_append.mp hx with hk | hb
  · rw [List.map_append, List.pairwise_append] at hf
    have hxb := hf.2.2 (f x) (List.mem_map_of_mem hk) (f b) (by simp)
    exact hxb.symm.mono hs (hrx.trans (hg x hx))
  · obtain rfl := List.mem_singleton.mp hb
    exact .inr (Nat.le_trans hrx.2 hafter)

end Extent
