import CBase.Lib.LinkedLists

/-!
# A heap that holds one list

`Sole h q`: the list from `q` has every allocated cell of the heap.

* `Sole.sameLinks`: what changes neither links nor allocation keeps it.
* `Sole.alloc`, `Sole.unlinkFirst`: a new first cell, and a cell that is unlinked and freed.
-/

namespace LinkedHeap

variable {α : Type} {h h' h'' : Heap α} {a : Ptr} {q : Option Ptr} {l : List (Ptr × α)}

/-- The same cells are allocated, with the same links. -/
def SameLinks (h h' : Heap α) : Prop := ∀ p, (h'.cell p).map Cell.next = (h.cell p).map Cell.next

namespace SameLinks

theorem refl (h : Heap α) : SameLinks h h := fun _ => rfl

theorem trans (h₁ : SameLinks h h') (h₂ : SameLinks h' h'') : SameLinks h h'' := fun p =>
  (h₂ p).trans (h₁ p)

theorem modify {f : α → α} (hs : h.modify a f = some h') : SameLinks h h' := by
  cases ha : h.cell a with
  | none => simp [Heap.modify, ha] at hs
  | some c =>
    obtain ⟨h₁, hmod, hcell, hagree⟩ := Heap.modify_spec ha f
    obtain rfl : h₁ = h' := Option.some.inj (hmod.symm.trans hs)
    intro p
    by_cases hp : p = a
    · rw [hp, hcell, ha]
      rfl
    · rw [hagree.cell p (by simpa using hp)]

theorem isSome (hs : SameLinks h h') (p : Ptr) : (h'.cell p).isSome = (h.cell p).isSome := by
  have hnext := congrArg Option.isSome (hs p)
  simpa using hnext

/-- A list is the same list with other values. -/
theorem chain (hs : SameLinks h h') (hl : Chain h q l) : ∃ l', Chain h' q l' ∧ ptrs l' = ptrs l := by
  induction l generalizing q with
  | nil =>
    obtain rfl : q = none := hl
    exact ⟨[], rfl, rfl⟩
  | cons x l ih =>
    obtain ⟨rfl, r, hcell, htail⟩ := hl
    obtain ⟨l', hl', hptrs⟩ := ih htail
    have hnext := hs x.1
    rw [hcell] at hnext
    obtain ⟨c, hc, hr⟩ := Option.map_eq_some_iff.mp hnext
    refine ⟨(x.1, c.val) :: l', ⟨rfl, r, ?_, hl'⟩, by rw [ptrs_cons, ptrs_cons, hptrs]⟩
    obtain rfl : c.next = r := hr
    exact hc

end SameLinks

/-- A list that has every allocated cell. -/
theorem Contents.of_chain (hl : Chain h q l) (hall : ∀ a, (h.cell a).isSome → a ∈ ptrs l) :
    Contents h l := by
  refine ⟨hl.nodup, fun a v => ⟨fun ⟨r, hr⟩ => ?_, fun hv => hl.mem_cell hv⟩⟩
  obtain ⟨w, hw⟩ := mem_ptrs.mp (hall a (by rw [hr]; rfl))
  obtain ⟨s, hs⟩ := hl.mem_cell hw
  rw [hr] at hs
  cases hs
  exact hw

/-- The list from `q` has every allocated cell. -/
def Sole (h : Heap α) (q : Option Ptr) : Prop := ∃ l, Chain h q l ∧ Contents h l

namespace Sole

theorem contents (hs : Sole h q) (hl : Chain h q l) : Contents h l := by
  obtain ⟨l', hl', hc⟩ := hs
  rwa [hl.unique hl']

theorem empty : Sole (Heap.empty : Heap α) none := ⟨[], rfl, .empty⟩

theorem sameLinks (hs : Sole h q) (hlinks : SameLinks h h') : Sole h' q := by
  obtain ⟨l, hl, hc⟩ := hs
  obtain ⟨l', hl', hptrs⟩ := hlinks.chain hl
  refine ⟨l', hl', .of_chain hl' fun a ha => ?_⟩
  rw [hlinks.isSome] at ha
  rw [hptrs]
  exact hc.mem_ptrs_iff.mpr ha

theorem alloc (hs : Sole h q) (v : α) : Sole (h.alloc ⟨q, v⟩).2 (some h.brk) := by
  obtain ⟨l, hl, hc⟩ := hs
  refine ⟨(h.brk, v) :: l, ⟨rfl, q, ?_, Seg.alloc hl _⟩, hc.alloc _⟩
  rw [Heap.alloc_cell, if_pos rfl]

/-- No cell passed the test. -/
theorem unlinkNone {test : α → Bool} {q' : Option Ptr} (hs : Sole h q)
    (hunlink : unlinkFirst test h q = some (none, q', h')) : Sole h' q' := by
  obtain ⟨l, hl, hc⟩ := hs
  obtain ⟨q₁, h₁, hrun, hchain, hagree, -⟩ := unlinkFirst_chain test hl
  obtain ⟨hnone, rfl, rfl⟩ : (l.find? fun x => test x.2).map Prod.fst = none ∧ q₁ = q' ∧ h₁ = h' := by
    simpa using hrun.symm.trans hunlink
  rw [List.eraseP_of_forall_not fun x hx => List.find?_eq_none.mp (Option.map_eq_none_iff.mp hnone) x hx]
    at hchain
  refine ⟨l, hchain, .of_chain hchain fun a ha => ?_⟩
  by_contra hout
  rw [hagree.cell a hout, ← hc.mem_ptrs_iff] at ha
  exact hout ha

/-- The cell that passed the test is unlinked, changed and freed. -/
theorem unlinkFirst {test : α → Bool} {q' : Option Ptr} {h₁ h₂ : Heap α} (hs : Sole h q)
    (hunlink : LinkedHeap.unlinkFirst test h q = some (some a, q', h₁)) (hlinks : SameLinks h₁ h₂)
    (hfree : h₂.free a = some h') : Sole h' q' := by
  obtain ⟨l, hl, hc⟩ := hs
  obtain ⟨r, h₀, hrun, hchain, hagree, -⟩ := unlinkFirst_chain test hl
  obtain ⟨hfind, rfl, rfl⟩ :
      (l.find? fun x => test x.2).map Prod.fst = some a ∧ r = q' ∧ h₀ = h₁ := by
    simpa using hrun.symm.trans hunlink
  obtain ⟨⟨b, v⟩, hb, rfl⟩ := Option.map_eq_some_iff.mp hfind
  obtain ⟨k, m, hsplit, hk, htest⟩ : ∃ k m, l = k ++ (b, v) :: m ∧ (∀ x ∈ k, ¬ test x.2 = true) ∧
      test v = true := by
    obtain ⟨htest, k, m, hsplit, hk⟩ := List.find?_eq_some_iff_append.mp hb
    exact ⟨k, m, hsplit, fun x hx => by simpa using hk x hx, htest⟩
  have herase : l.eraseP (fun x => test x.2) = k ++ m := by
    rw [hsplit, List.eraseP_append_right _ hk, List.eraseP_cons_of_pos (by simpa using htest)]
  rw [herase] at hchain
  obtain ⟨l', hl', hptrs⟩ := hlinks.chain hchain
  have hnd := hc.nodup
  rw [hsplit, ptrs_append, ptrs_cons] at hnd
  have hnot : b ∉ ptrs l' := by
    rw [hptrs, ptrs_append]
    exact (List.nodup_cons.mp (List.perm_middle.nodup_iff.mp hnd)).1
  obtain ⟨c, hcell⟩ : ∃ c, h₂.cell b = some c := by
    cases hcell : h₂.cell b with
    | none => simp [Heap.free, hcell] at hfree
    | some c => exact ⟨c, rfl⟩
  obtain ⟨h₃, hfree', hgone, hkept⟩ := Heap.free_spec hcell
  obtain rfl : h₃ = h' := Option.some.inj (hfree'.symm.trans hfree)
  have hl'' : Chain h₃ r l' := Seg.agree hl' hkept fun p hp hpb => by
    rw [List.mem_singleton.mp hpb] at hp
    exact hnot hp
  refine ⟨l', hl'', .of_chain hl'' fun p hp => ?_⟩
  have hpb : p ≠ b := by
    rintro rfl
    rw [hgone] at hp
    cases hp
  rw [hkept.cell p (by simpa using hpb), hlinks.isSome] at hp
  have hmem : p ∈ ptrs l := by
    by_contra hout
    rw [hagree.cell p hout, ← hc.mem_ptrs_iff] at hp
    exact hout hp
  rw [hptrs, ptrs_append]
  rw [hsplit, ptrs_append, ptrs_cons, List.mem_append, List.mem_cons] at hmem
  rcases hmem with hmem | hmem | hmem
  · exact List.mem_append_left _ hmem
  · exact absurd hmem hpb
  · exact List.mem_append_right _ hmem

end Sole

end LinkedHeap
