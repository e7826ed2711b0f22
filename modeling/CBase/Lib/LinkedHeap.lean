import Mathlib.Data.Finset.Card
import Mathlib.Data.Finset.Range
import Mathlib.Data.List.Nodup

/-!
# Singly linked cells in a heap

A heap maps addresses to cells, and a cell is a value with the address of the next cell. Reading,
writing or freeing an address that is not allocated has no result.

* `Seg h p l q`: following the links from `p` visits the cells `l` and ends at `q`.
* `Chain h p l`: the same up to the NULL link. A chain never visits a cell twice (`Chain.nodup`),
  so it is no longer than the heap (`Chain.length_le_brk`).
* `set_last`, `insert_after`, `append_cell`, `modify_cell`: what one assignment does to them.
* `Contents h l`: the allocated cells of the heap are exactly `l`, so nothing is leaked.
-/

namespace LinkedHeap

abbrev Ptr := Nat

/-- A value and the link to the next cell. -/
structure Cell (α : Type) where
  next : Option Ptr
  val : α
  deriving DecidableEq, Repr

/-- Cells by address. Addresses from `brk` on were never handed out. -/
structure Heap (α : Type) where
  cell : Ptr → Option (Cell α)
  brk : Nat
  fresh : ∀ p, brk ≤ p → cell p = none

namespace Heap

variable {α : Type}

theorem lt_brk (h : Heap α) {p : Ptr} {c : Cell α} (hp : h.cell p = some c) : p < h.brk := by
  rcases Nat.lt_or_ge p h.brk with hlt | hge
  · exact hlt
  · rw [h.fresh p hge] at hp
    cases hp

/-- A heap without cells. -/
def empty : Heap α := ⟨fun _ => none, 0, fun _ _ => rfl⟩

/-- Allocate a cell at a new address. -/
def alloc (h : Heap α) (c : Cell α) : Ptr × Heap α :=
  (h.brk, {
    cell := fun q => if q = h.brk then some c else h.cell q
    brk := h.brk + 1
    fresh := fun q hq => by
      rw [if_neg (show q ≠ h.brk by omega)]
      exact h.fresh q (by omega) })

/-- Overwrite an allocated cell. -/
def write (h : Heap α) (p : Ptr) (c : Cell α) : Option (Heap α) :=
  if hp : p < h.brk ∧ (h.cell p).isSome then some {
    cell := fun q => if q = p then some c else h.cell q
    brk := h.brk
    fresh := fun q hq => by
      rw [if_neg (Nat.ne_of_gt (Nat.lt_of_lt_of_le hp.1 hq))]
      exact h.fresh q hq }
  else none

/-- Free an allocated cell. -/
def free (h : Heap α) (p : Ptr) : Option (Heap α) :=
  if (h.cell p).isSome then some {
    cell := fun q => if q = p then none else h.cell q
    brk := h.brk
    fresh := fun q hq => by
      split
      · rfl
      · exact h.fresh q hq }
  else none

/-- `p->next = q`. -/
def setNext (h : Heap α) (p : Ptr) (q : Option Ptr) : Option (Heap α) := do
  let c ← h.cell p
  h.write p { c with next := q }

/-- Change the value of the cell at `p`. -/
def modify (h : Heap α) (p : Ptr) (f : α → α) : Option (Heap α) := do
  let c ← h.cell p
  h.write p { c with val := f c.val }

@[simp] theorem alloc_fst (h : Heap α) (c : Cell α) : (h.alloc c).1 = h.brk := rfl

@[simp] theorem alloc_brk (h : Heap α) (c : Cell α) : (h.alloc c).2.brk = h.brk + 1 := rfl

theorem alloc_cell (h : Heap α) (c : Cell α) (q : Ptr) :
    (h.alloc c).2.cell q = if q = h.brk then some c else h.cell q := rfl

/-- Two heaps agree outside the addresses `s`, and handed out as many. -/
structure Agree (s : List Ptr) (h h' : Heap α) : Prop where
  brk : h'.brk = h.brk
  cell : ∀ q, q ∉ s → h'.cell q = h.cell q

theorem Agree.refl (s : List Ptr) (h : Heap α) : Agree s h h := ⟨rfl, fun _ _ => rfl⟩

theorem Agree.trans {s : List Ptr} {h h' h'' : Heap α} (h₁ : Agree s h h') (h₂ : Agree s h' h'') :
    Agree s h h'' :=
  ⟨h₂.brk.trans h₁.brk, fun q hq => (h₂.cell q hq).trans (h₁.cell q hq)⟩

theorem Agree.mono {s t : List Ptr} {h h' : Heap α} (h₁ : Agree s h h') (hst : s ⊆ t) :
    Agree t h h' :=
  ⟨h₁.brk, fun q hq => h₁.cell q fun hs => hq (hst hs)⟩

theorem write_spec {h : Heap α} {p : Ptr} {c : Cell α} (hp : h.cell p = some c) (d : Cell α) :
    ∃ h', h.write p d = some h' ∧ h'.cell p = some d ∧ Agree [p] h h' := by
  have hlt := h.lt_brk hp
  refine ⟨_, dif_pos ⟨hlt, by simp [hp]⟩, if_pos rfl, rfl, fun q hq => if_neg ?_⟩
  simpa using hq

theorem free_spec {h : Heap α} {p : Ptr} {c : Cell α} (hp : h.cell p = some c) :
    ∃ h', h.free p = some h' ∧ h'.cell p = none ∧ Agree [p] h h' := by
  refine ⟨_, if_pos (by simp [hp]), if_pos rfl, rfl, fun q hq => if_neg ?_⟩
  simpa using hq

theorem setNext_spec {h : Heap α} {p : Ptr} {c : Cell α} (hp : h.cell p = some c)
    (q : Option Ptr) :
    ∃ h', h.setNext p q = some h' ∧ h'.cell p = some ⟨q, c.val⟩ ∧ Agree [p] h h' := by
  obtain ⟨h', hw, hcell, hagree⟩ := write_spec hp { c with next := q }
  exact ⟨h', by simp [setNext, hp, hw], hcell, hagree⟩

theorem modify_spec {h : Heap α} {p : Ptr} {c : Cell α} (hp : h.cell p = some c) (f : α → α) :
    ∃ h', h.modify p f = some h' ∧ h'.cell p = some ⟨c.next, f c.val⟩ ∧ Agree [p] h h' := by
  obtain ⟨h', hw, hcell, hagree⟩ := write_spec hp { c with val := f c.val }
  exact ⟨h', by simp [modify, hp, hw], hcell, hagree⟩

/-- Only the value in the cell matters. -/
theorem modify_congr {h : Heap α} {p : Ptr} {c : Cell α} {f g : α → α} (hp : h.cell p = some c)
    (hfg : f c.val = g c.val) : h.modify p f = h.modify p g := by
  simp [modify, hp, hfg]

end Heap

/-! ## Segments and chains -/

variable {α : Type}

def ptrs (l : List (Ptr × α)) : List Ptr := l.map Prod.fst

@[simp] theorem ptrs_nil : ptrs ([] : List (Ptr × α)) = [] := rfl

@[simp] theorem ptrs_cons (x : Ptr × α) (l : List (Ptr × α)) : ptrs (x :: l) = x.1 :: ptrs l := rfl

@[simp] theorem ptrs_append (k l : List (Ptr × α)) : ptrs (k ++ l) = ptrs k ++ ptrs l :=
  List.map_append

@[simp] theorem length_ptrs (l : List (Ptr × α)) : (ptrs l).length = l.length := List.length_map _

theorem mem_ptrs {a : Ptr} {l : List (Ptr × α)} : a ∈ ptrs l ↔ ∃ v, (a, v) ∈ l := by
  simp [ptrs]

/-- The links from `p` lead through the cells `l` to `q`. -/
def Seg (h : Heap α) : Option Ptr → List (Ptr × α) → Option Ptr → Prop
  | p, [], q => p = q
  | p, (a, v) :: l, q => p = some a ∧ ∃ r, h.cell a = some ⟨r, v⟩ ∧ Seg h r l q

/-- The links from `p` lead through the cells `l` to NULL. -/
abbrev Chain (h : Heap α) (p : Option Ptr) (l : List (Ptr × α)) : Prop := Seg h p l none

namespace Seg

variable {h h' : Heap α} {p q r : Option Ptr} {a : Ptr} {v : α} {k l : List (Ptr × α)}

@[simp] theorem nil_iff : Seg h p [] q ↔ p = q := Iff.rfl

theorem cons_iff : Seg h p ((a, v) :: l) q ↔
    p = some a ∧ ∃ r, h.cell a = some ⟨r, v⟩ ∧ Seg h r l q := Iff.rfl

/-- A segment followed by another is a segment, and a segment splits at every cell. -/
theorem append_iff : Seg h p (k ++ l) q ↔ ∃ r, Seg h p k r ∧ Seg h r l q := by
  induction k generalizing p with
  | nil => simp
  | cons x k ih =>
    obtain ⟨a, v⟩ := x
    simp only [List.cons_append, cons_iff, ih]
    constructor
    · rintro ⟨rfl, s, hs, r, h₁, h₂⟩
      exact ⟨r, ⟨rfl, s, hs, h₁⟩, h₂⟩
    · rintro ⟨r, ⟨rfl, s, hs, h₁⟩, h₂⟩
      exact ⟨rfl, s, hs, r, h₁, h₂⟩

/-- A segment goes on by the cell that its end points to. -/
theorem snoc (hs : Seg h p k (some a)) (ha : h.cell a = some ⟨q, v⟩) : Seg h p (k ++ [(a, v)]) q :=
  append_iff.mpr ⟨_, hs, cons_iff.mpr ⟨rfl, q, ha, rfl⟩⟩

/-- Frame rule: a segment survives when its own cells are unchanged. -/
theorem frame (hs : Seg h p l q) (hcell : ∀ b ∈ ptrs l, h'.cell b = h.cell b) :
    Seg h' p l q := by
  induction l generalizing p with
  | nil => exact hs
  | cons x l ih =>
    obtain ⟨a, v⟩ := x
    obtain ⟨rfl, s, ha, hs⟩ := hs
    refine ⟨rfl, s, ?_, ih hs fun b hb => hcell b (List.mem_cons_of_mem _ hb)⟩
    rw [hcell a List.mem_cons_self, ha]

theorem agree {s : List Ptr} (hs : Seg h p l q) (hagree : Heap.Agree s h h')
    (hdis : ∀ b ∈ ptrs l, b ∉ s) : Seg h' p l q :=
  hs.frame fun b hb => hagree.cell b (hdis b hb)

/-- Allocation leaves every segment alone. -/
theorem alloc (hs : Seg h p l q) (c : Cell α) : Seg (h.alloc c).2 p l q := by
  induction l generalizing p with
  | nil => exact hs
  | cons x l ih =>
    obtain ⟨a, v⟩ := x
    obtain ⟨rfl, s, ha, hs⟩ := hs
    refine ⟨rfl, s, ?_, ih hs⟩
    rw [Heap.alloc_cell, if_neg (Nat.ne_of_lt (h.lt_brk ha)), ha]

/-- A segment starts at its first cell. -/
theorem head_eq (hs : Seg h p l q) : p = (l.head?.map Prod.fst).or q := by
  cases l with
  | nil => exact hs
  | cons x l => exact hs.1

theorem mem_cell (hs : Seg h p l q) (hm : (a, v) ∈ l) : ∃ r, h.cell a = some ⟨r, v⟩ := by
  obtain ⟨k, m, rfl⟩ := List.append_of_mem hm
  obtain ⟨_, _, _, r, hr, _⟩ := append_iff.mp hs
  exact ⟨r, hr⟩

theorem lt_brk (hs : Seg h p l q) {b : Ptr} (hb : b ∈ ptrs l) : b < h.brk := by
  obtain ⟨⟨b, v⟩, hm, rfl⟩ := List.mem_map.mp hb
  obtain ⟨r, hr⟩ := hs.mem_cell hm
  exact h.lt_brk hr

/-- Redirecting the link of the last cell moves the end of the segment. -/
theorem set_last (hs : Seg h p (k ++ [(a, v)]) q) (hnd : (ptrs (k ++ [(a, v)])).Nodup)
    (r : Option Ptr) :
    ∃ h', h.setNext a r = some h' ∧ Seg h' p (k ++ [(a, v)]) r ∧ Heap.Agree [a] h h' := by
  obtain ⟨s, hk, hs', t, ha, _⟩ := append_iff.mp hs
  obtain ⟨h', hset, hcell, hagree⟩ := Heap.setNext_spec ha r
  refine ⟨h', hset, append_iff.mpr ⟨s, hk.agree hagree ?_, hs', r, hcell, rfl⟩, hagree⟩
  intro b hb hba
  rw [ptrs_append, List.nodup_append] at hnd
  exact hnd.2.2 b hb a (by simp) (List.mem_singleton.mp hba)

end Seg

namespace Chain

variable {h h' : Heap α} {p : Option Ptr} {k l : List (Ptr × α)} {a : Ptr} {v : α}

/-- The cells of a chain are determined by its first link. -/
theorem unique (hl : Chain h p l) (hk : Chain h p k) : l = k := by
  induction l generalizing p k with
  | nil =>
    obtain rfl : p = none := hl
    cases k with
    | nil => rfl
    | cons x k => cases hk.1
  | cons x l ih =>
    obtain ⟨a, v⟩ := x
    obtain ⟨rfl, r, ha, hl⟩ := hl
    cases k with
    | nil => cases hk
    | cons y k =>
      obtain ⟨b, w⟩ := y
      obtain ⟨hb, s, hbs, hk⟩ := hk
      cases hb
      rw [ha] at hbs
      cases hbs
      rw [ih hl hk]

/-- A chain visits no cell twice: from the second visit on it would have to end both here and
there. -/
theorem nodup (hl : Chain h p l) : (ptrs l).Nodup := by
  induction l generalizing p with
  | nil => simp
  | cons x l ih =>
    obtain ⟨a, v⟩ := x
    have hall : Chain h (some a) ((a, v) :: l) := ⟨rfl, hl.2⟩
    obtain ⟨_, r, ha, htail⟩ := hl
    rw [ptrs_cons, List.nodup_cons]
    refine ⟨fun hmem => ?_, ih htail⟩
    obtain ⟨⟨b, w⟩, hm, hb⟩ := List.mem_map.mp hmem
    obtain rfl : b = a := hb
    obtain ⟨l₁, l₂, rfl⟩ := List.append_of_mem hm
    obtain ⟨_, _, hagain⟩ := Seg.append_iff.mp htail
    have hsame := unique hall (Seg.cons_iff.mpr ⟨rfl, hagain.2⟩)
    have := congrArg List.length hsame
    simp at this
    omega

theorem length_le_brk (hl : Chain h p l) : l.length ≤ h.brk := by
  have hsub : (ptrs l).toFinset ⊆ Finset.range h.brk := by
    intro b hb
    rw [Finset.mem_range]
    exact hl.lt_brk (List.mem_toFinset.mp hb)
  have := Finset.card_le_card hsub
  rwa [List.toFinset_card_of_nodup hl.nodup, Finset.card_range, length_ptrs] at this

/-- Linking an allocated cell after the cell `a`. -/
theorem insert_after {b : Ptr} {w : α} {r s : Option Ptr}
    (hl : Chain h p (k ++ (a, v) :: l)) (ha : h.cell a = some ⟨r, v⟩)
    (hb : h.cell b = some ⟨s, w⟩) (hfresh : b ∉ ptrs (k ++ (a, v) :: l)) :
    ∃ h₁ h₂, h.setNext b r = some h₁ ∧ h₁.setNext a (some b) = some h₂ ∧
      Chain h₂ p (k ++ (a, v) :: (b, w) :: l) ∧ Heap.Agree [a, b] h h₂ := by
  obtain ⟨h₁, hset₁, hcell₁, hagree₁⟩ := Heap.setNext_spec hb r
  have hl₁ : Chain h₁ p ((k ++ [(a, v)]) ++ l) := by
    rw [List.append_assoc]
    exact hl.agree hagree₁ fun c hc hcb => hfresh (List.mem_singleton.mp hcb ▸ hc)
  have hnd := hl₁.nodup
  obtain ⟨r', hpre, htail⟩ := Seg.append_iff.mp hl₁
  have hr : r' = r := by
    obtain ⟨_, _, _, t, ht, rfl⟩ := Seg.append_iff.mp hpre
    have hab : a ≠ b := by rintro rfl; exact hfresh (by simp)
    rw [hagree₁.cell a (by simpa using hab), ha] at ht
    cases ht
    rfl
  subst hr
  have hnd' : (ptrs (k ++ [(a, v)])).Nodup := by
    rw [ptrs_append] at hnd
    exact (List.nodup_append.mp hnd).1
  obtain ⟨h₂, hset₂, hpre₂, hagree₂⟩ := hpre.set_last hnd' (some b)
  refine ⟨h₁, h₂, hset₁, hset₂, ?_, ?_⟩
  · have htail₂ : Chain h₂ r' l := by
      refine htail.agree hagree₂ fun c hc hca => ?_
      rw [List.mem_singleton.mp hca] at hc
      rw [ptrs_append, List.nodup_append] at hnd
      exact hnd.2.2 a (by simp) a hc rfl
    have hcell₂ : h₂.cell b = some ⟨r', w⟩ := by
      rw [hagree₂.cell b ?_, hcell₁]
      simp only [List.mem_singleton]
      rintro rfl
      exact hfresh (by simp)
    have hall := Seg.append_iff.mpr ⟨_, hpre₂.snoc hcell₂, htail₂⟩
    rwa [List.append_assoc, List.append_assoc] at hall
  · exact (hagree₁.mono (by simp)).trans (hagree₂.mono (by simp))

/-- Linking an allocated last cell after the end of a chain. -/
theorem append_cell {b : Ptr} {w : α} (hl : Chain h p (k ++ [(a, v)]))
    (hb : h.cell b = some ⟨none, w⟩) (hfresh : b ∉ ptrs (k ++ [(a, v)])) :
    ∃ h', h.setNext a (some b) = some h' ∧ Chain h' p (k ++ [(a, v), (b, w)]) ∧
      Heap.Agree [a] h h' := by
  obtain ⟨h', hset, hpre, hagree⟩ := hl.set_last hl.nodup (some b)
  refine ⟨h', hset, ?_, hagree⟩
  have hcell : h'.cell b = some ⟨none, w⟩ := by
    rw [hagree.cell b ?_, hb]
    simp only [List.mem_singleton]
    rintro rfl
    exact hfresh (by simp)
  have hall := hpre.snoc hcell
  rwa [List.append_assoc] at hall

/-- Changing the value of one cell. -/
theorem modify_cell (hl : Chain h p (k ++ (a, v) :: l)) (f : α → α) :
    ∃ h', h.modify a f = some h' ∧ Chain h' p (k ++ (a, f v) :: l) ∧ Heap.Agree [a] h h' := by
  have hnd := hl.nodup
  obtain ⟨q, hk, rfl, r, ha, htail⟩ := Seg.append_iff.mp hl
  obtain ⟨h', hmod, hcell, hagree⟩ := Heap.modify_spec ha f
  rw [ptrs_append, List.nodup_append, ptrs_cons, List.nodup_cons] at hnd
  refine ⟨h', hmod, Seg.append_iff.mpr ⟨_, hk.agree hagree ?_, rfl, r, hcell, ?_⟩, hagree⟩
  · intro b hb hba
    exact hnd.2.2 b hb a List.mem_cons_self (List.mem_singleton.mp hba)
  · exact htail.agree hagree fun b hb hba => hnd.2.1.1 (List.mem_singleton.mp hba ▸ hb)

end Chain

/-! ## Everything that is allocated -/

/-- The allocated cells are exactly those of `l`, each once. -/
structure Contents (h : Heap α) (l : List (Ptr × α)) : Prop where
  nodup : (ptrs l).Nodup
  cell : ∀ p v, (∃ r, h.cell p = some ⟨r, v⟩) ↔ (p, v) ∈ l

namespace Contents

variable {h h' : Heap α} {k l m : List (Ptr × α)} {a : Ptr} {v : α}

theorem empty : Contents (Heap.empty : Heap α) [] :=
  ⟨by simp, fun p v => by simp [Heap.empty]⟩

theorem perm (hc : Contents h l) (hp : l.Perm m) : Contents h m :=
  ⟨(hp.map Prod.fst).nodup_iff.mp hc.nodup, fun p v => (hc.cell p v).trans hp.mem_iff⟩

theorem mem_ptrs_iff (hc : Contents h l) : a ∈ ptrs l ↔ (h.cell a).isSome := by
  rw [mem_ptrs, Option.isSome_iff_exists]
  constructor
  · rintro ⟨v, hv⟩
    obtain ⟨r, hr⟩ := (hc.cell a v).mpr hv
    exact ⟨_, hr⟩
  · rintro ⟨c, hr⟩
    exact ⟨c.val, (hc.cell a c.val).mp ⟨c.next, hr⟩⟩

theorem alloc (hc : Contents h l) (c : Cell α) :
    Contents (h.alloc c).2 ((h.brk, c.val) :: l) := by
  have hfresh : h.brk ∉ ptrs l := by
    rw [hc.mem_ptrs_iff, h.fresh _ (Nat.le_refl _)]
    simp
  refine ⟨List.nodup_cons.mpr ⟨hfresh, hc.nodup⟩, fun p v => ?_⟩
  rw [Heap.alloc_cell, List.mem_cons, Prod.mk.injEq]
  split
  · next hp =>
    subst hp
    have hnot : ¬ (h.brk, v) ∈ l := fun hm => hfresh (mem_ptrs.mpr ⟨v, hm⟩)
    simp only [hnot, or_false, true_and, Option.some.injEq]
    constructor
    · rintro ⟨r, rfl⟩; rfl
    · rintro rfl; exact ⟨c.next, rfl⟩
  · next hp => simp only [hp, false_and, false_or, hc.cell p v]

/-- Changing links leaves the contents alone. -/
theorem setNext {q : Option Ptr} (hc : Contents h l) (hs : h.setNext a q = some h') :
    Contents h' l := by
  obtain ⟨c, hcell⟩ : ∃ c, h.cell a = some c := by
    cases hcell : h.cell a with
    | none => simp [Heap.setNext, hcell] at hs
    | some c => exact ⟨c, rfl⟩
  obtain ⟨h₁, hset, ha, hagree⟩ := Heap.setNext_spec hcell q
  rw [hset] at hs
  cases hs
  refine ⟨hc.nodup, fun p v => ?_⟩
  rw [← hc.cell p v]
  rcases eq_or_ne p a with rfl | hne
  · rw [ha, hcell]
    constructor
    · rintro ⟨r, hr⟩; cases hr; exact ⟨c.next, rfl⟩
    · rintro ⟨r, hr⟩; cases hr; exact ⟨q, rfl⟩
  · rw [hagree.cell p (by simpa using hne)]

/-- Changing the value of one cell. -/
theorem modify {f : α → α} (hc : Contents h (k ++ (a, v) :: l)) (hs : h.modify a f = some h') :
    Contents h' (k ++ (a, f v) :: l) := by
  obtain ⟨r, hcell⟩ := (hc.cell a v).mpr (by simp)
  obtain ⟨h₁, hmod, ha, hagree⟩ := Heap.modify_spec hcell f
  rw [hmod] at hs
  cases hs
  refine ⟨by simpa using hc.nodup, fun p w => ?_⟩
  rcases eq_or_ne p a with rfl | hne
  · have hnd := hc.nodup
    rw [ptrs_append, List.nodup_append, ptrs_cons, List.nodup_cons] at hnd
    have hk : (p, w) ∉ k := fun hm =>
      hnd.2.2 p (mem_ptrs.mpr ⟨w, hm⟩) p List.mem_cons_self rfl
    have hl : (p, w) ∉ l := fun hm => hnd.2.1.1 (mem_ptrs.mpr ⟨w, hm⟩)
    rw [ha]
    simp only [List.mem_append, List.mem_cons, hk, hl, or_false, false_or, Prod.mk.injEq, true_and]
    constructor
    · rintro ⟨s, hs⟩; cases hs; rfl
    · rintro rfl; exact ⟨r, rfl⟩
  · rw [hagree.cell p (by simpa using hne), hc.cell p w]
    simp [hne]

/-- Changing the values of a chain and of no other cell. -/
theorem mapChain {p : Option Ptr} {f : α → α} (hc : Contents h (l ++ m))
    (hl' : Chain h' p (l.map fun x => (x.1, f x.2))) (hagree : Heap.Agree (ptrs l) h h') :
    Contents h' ((l.map fun x => (x.1, f x.2)) ++ m) := by
  have hptrs : ptrs (l.map fun x => (x.1, f x.2)) = ptrs l := by simp [ptrs]
  have hnd := hc.nodup
  refine ⟨by rwa [ptrs_append, hptrs, ← ptrs_append], fun a v => ?_⟩
  rw [ptrs_append, List.nodup_append] at hnd
  rw [List.mem_append]
  by_cases ha : a ∈ ptrs l
  · have hm : (a, v) ∉ m := fun hm => hnd.2.2 a ha a (mem_ptrs.mpr ⟨v, hm⟩) rfl
    simp only [hm, or_false]
    refine ⟨fun ⟨r, hr⟩ => ?_, fun hv => hl'.mem_cell hv⟩
    obtain ⟨w, hw⟩ := mem_ptrs.mp (hptrs ▸ ha)
    obtain ⟨s, hs⟩ := hl'.mem_cell hw
    rw [hr] at hs
    cases hs
    exact hw
  · have hv : (a, v) ∉ l.map fun x => (x.1, f x.2) := fun hv =>
      ha (hptrs ▸ mem_ptrs.mpr ⟨v, hv⟩)
    have hvl : (a, v) ∉ l := fun hv => ha (mem_ptrs.mpr ⟨v, hv⟩)
    rw [hagree.cell a ha, hc.cell a v, List.mem_append]
    simp only [hv, hvl]

/-- Freeing one cell. -/
theorem free (hc : Contents h (k ++ (a, v) :: l)) (hs : h.free a = some h') :
    Contents h' (k ++ l) := by
  obtain ⟨r, hcell⟩ := (hc.cell a v).mpr (by simp)
  obtain ⟨h₁, hfree, ha, hagree⟩ := Heap.free_spec hcell
  rw [hfree] at hs
  cases hs
  have hnd := hc.nodup
  rw [ptrs_append, List.nodup_append, ptrs_cons, List.nodup_cons] at hnd
  refine ⟨?_, fun p w => ?_⟩
  · rw [ptrs_append, List.nodup_append]
    exact ⟨hnd.1, hnd.2.1.2, fun b hb c hcm => hnd.2.2 b hb c (List.mem_cons_of_mem _ hcm)⟩
  · rcases eq_or_ne p a with rfl | hne
    · have hk : (p, w) ∉ k := fun hm =>
        hnd.2.2 p (mem_ptrs.mpr ⟨w, hm⟩) p List.mem_cons_self rfl
      have hl : (p, w) ∉ l := fun hm => hnd.2.1.1 (mem_ptrs.mpr ⟨w, hm⟩)
      simp [ha, hk, hl]
    · rw [hagree.cell p (by simpa using hne), hc.cell p w]
      simp [hne]

end Contents

end LinkedHeap
