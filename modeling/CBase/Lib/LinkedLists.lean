import CBase.Lib.LinkedLoops

/-!
# Several lists in one heap

`Filed h loose ls`: the heap holds the lists `ls`, the cells `loose` that are in no list, and nothing
else. Each lemma says what one assignment, or one loop, does to one of the lists, `l` in
`k ++ l :: m`; the other lists keep their cells.
-/

namespace LinkedHeap

variable {α : Type}

/-- The link to the first cell of a list. -/
def start (l : List (Ptr × α)) : Option Ptr := l.head?.map Prod.fst

@[simp] theorem start_nil : start ([] : List (Ptr × α)) = none := rfl

@[simp] theorem start_cons (x : Ptr × α) (l : List (Ptr × α)) : start (x :: l) = some x.1 := rfl

variable {h h' : Heap α} {l : List (Ptr × α)} {a : Ptr} {v : α}

theorem Chain.start_eq {p : Option Ptr} (hl : Chain h p l) : p = start l := by
  rw [hl.head_eq, Option.or_none]
  rfl

/-- A chain that lost cells, with the lost cells freed. -/
theorem Contents.shrink {p : Option Ptr} {l' m : List (Ptr × α)} (hc : Contents h (l ++ m))
    (hagree : Heap.Agree (ptrs l) h h') (hl' : Chain h' p l') (hsub : l'.Sublist l)
    (hgone : ∀ a ∈ ptrs l, a ∉ ptrs l' → h'.cell a = none) : Contents h' (l' ++ m) := by
  have hnd := hc.nodup
  rw [ptrs_append, List.nodup_append] at hnd
  have hptrs : (ptrs l').Sublist (ptrs l) := hsub.map Prod.fst
  refine ⟨?_, fun a v => ?_⟩
  · rw [ptrs_append, List.nodup_append]
    exact ⟨hnd.1.sublist hptrs, hnd.2.1, fun b hb => hnd.2.2 b (hptrs.subset hb)⟩
  rw [List.mem_append]
  by_cases ha : a ∈ ptrs l
  · have hm : (a, v) ∉ m := fun hm => hnd.2.2 a ha a (mem_ptrs.mpr ⟨v, hm⟩) rfl
    simp only [hm, or_false]
    refine ⟨fun ⟨r, hr⟩ => ?_, fun hv => hl'.mem_cell hv⟩
    by_cases ha' : a ∈ ptrs l'
    · obtain ⟨w, hw⟩ := mem_ptrs.mp ha'
      obtain ⟨s, hs⟩ := hl'.mem_cell hw
      rw [hr] at hs
      cases hs
      exact hw
    · rw [hgone a ha ha'] at hr
      cases hr
  · have hv : (a, v) ∉ l := fun hv => ha (mem_ptrs.mpr ⟨v, hv⟩)
    have hv' : (a, v) ∉ l' := fun hv' => hv (hsub.subset hv')
    rw [hagree.cell a ha, hc.cell a v, List.mem_append]
    simp only [hv, hv', false_or]

/-- The heap holds the lists `ls` and the cells `loose`, and nothing else. -/
structure Filed (h : Heap α) (loose : List (Ptr × α)) (ls : List (List (Ptr × α))) : Prop where
  chain : ∀ l ∈ ls, Chain h (start l) l
  contents : Contents h (loose ++ ls.flatten)

namespace Filed

variable {loose loose' l' : List (Ptr × α)} {k m ls : List (List (Ptr × α))}

/-- One of several lists, brought to the front. -/
theorem perm_front (loose l : List (Ptr × α)) (k m : List (List (Ptr × α))) :
    (loose ++ (k ++ l :: m).flatten).Perm (loose ++ l ++ (k.flatten ++ m.flatten)) := by
  rw [List.flatten_append, List.flatten_cons, List.append_assoc, ← List.append_assoc k.flatten,
    ← List.append_assoc l]
  exact (List.perm_append_comm.append_right _).append_left _

theorem perm_of (k m : List (List (Ptr × α))) (hp : (loose ++ l).Perm (loose' ++ l')) :
    (loose ++ (k ++ l :: m).flatten).Perm (loose' ++ (k ++ l' :: m).flatten) :=
  ((perm_front loose l k m).trans (hp.append_right _)).trans (perm_front loose' l' k m).symm

theorem empty : Filed (Heap.empty : Heap α) [] [[]] :=
  ⟨fun l hl => by rw [List.mem_singleton.mp hl]; exact rfl, .empty⟩

theorem list (hf : Filed h loose (k ++ l :: m)) : Chain h (start l) l := hf.chain l (by simp)

/-- A change of one list and of loose cells leaves the other lists alone. -/
theorem replace (hf : Filed h loose (k ++ l :: m)) (hagree : Heap.Agree (ptrs (loose ++ l)) h h')
    (hl' : Chain h' (start l') l') (hc : Contents h' (loose' ++ (k ++ l' :: m).flatten)) :
    Filed h' loose' (k ++ l' :: m) := by
  refine ⟨fun x hx => ?_, hc⟩
  have hnd := hf.contents.nodup
  have hother : x ∈ k ∨ x ∈ m → Chain h' (start x) x := by
    intro hx
    have hmem : x ∈ k ++ l :: m := by
      rcases hx with hx | hx <;> simp [hx]
    refine (hf.chain x hmem).agree hagree fun b hb hm => ?_
    have hperm : (ptrs (loose ++ (k ++ l :: m).flatten)).Perm
        (ptrs (loose ++ l) ++ ptrs (k.flatten ++ m.flatten)) := by
      rw [← ptrs_append]
      exact (perm_front loose l k m).map _
    rw [hperm.nodup_iff, List.nodup_append] at hnd
    refine hnd.2.2 b hm b ?_ rfl
    obtain ⟨w, hw⟩ := mem_ptrs.mp hb
    refine mem_ptrs.mpr ⟨w, ?_⟩
    rw [List.mem_append, List.mem_flatten, List.mem_flatten]
    rcases hx with hx | hx
    · exact .inl ⟨x, hx, hw⟩
    · exact .inr ⟨x, hx, hw⟩
  rcases List.mem_append.mp hx with hx | hx
  · exact hother (.inl hx)
  · rcases List.mem_cons.mp hx with rfl | hx
    · exact hl'
    · exact hother (.inr hx)

theorem drop_nil (hf : Filed h loose (k ++ [] :: m)) : Filed h loose (k ++ m) := by
  refine ⟨fun x hx => hf.chain x ?_, ?_⟩
  · rcases List.mem_append.mp hx with hx | hx <;> simp [hx]
  · simpa using hf.contents

theorem add_nil (hf : Filed h loose (k ++ m)) : Filed h loose (k ++ [] :: m) := by
  refine ⟨fun x hx => ?_, by simpa using hf.contents⟩
  rcases List.mem_append.mp hx with hx' | hx'
  · exact hf.chain x (List.mem_append_left _ hx')
  · rcases List.mem_cons.mp hx' with rfl | hx'
    · exact rfl
    · exact hf.chain x (List.mem_append_right _ hx')

theorem loose_cell (hf : Filed h ((a, v) :: loose) ls) : ∃ r, h.cell a = some ⟨r, v⟩ :=
  (hf.contents.cell a v).mpr (by simp)

/-- A loose cell is in no list. -/
theorem loose_not_mem (hf : Filed h ((a, v) :: loose) (k ++ l :: m)) : a ∉ ptrs l := by
  intro ha
  have hnd := hf.contents.nodup
  rw [List.cons_append, ptrs_cons, List.nodup_cons] at hnd
  obtain ⟨w, hw⟩ := mem_ptrs.mp ha
  exact hnd.1 (mem_ptrs.mpr ⟨w, by simp [hw]⟩)

/-! ## Loose cells -/

/-- Only loose cells change. -/
theorem of_loose (hf : Filed h loose ls) (hagree : Heap.Agree (ptrs loose) h h')
    (hc : Contents h' (loose' ++ ls.flatten)) : Filed h' loose' ls := by
  refine ⟨fun x hx => (hf.chain x hx).agree hagree fun b hb hm => ?_, hc⟩
  have hnd := hf.contents.nodup
  rw [ptrs_append, List.nodup_append] at hnd
  obtain ⟨w, hw⟩ := mem_ptrs.mp hb
  exact hnd.2.2 b hm b (mem_ptrs.mpr ⟨w, List.mem_flatten.mpr ⟨x, hx, hw⟩⟩) rfl

theorem alloc (hf : Filed h loose ls) (c : Cell α) :
    Filed (h.alloc c).2 ((h.brk, c.val) :: loose) ls :=
  ⟨fun x hx => (hf.chain x hx).alloc c, hf.contents.alloc c⟩

theorem modify (hf : Filed h ((a, v) :: loose) ls) (f : α → α) :
    ∃ h', h.modify a f = some h' ∧ h'.brk = h.brk ∧ Filed h' ((a, f v) :: loose) ls := by
  obtain ⟨r, hr⟩ := hf.loose_cell
  obtain ⟨h', hmod, -, hagree⟩ := Heap.modify_spec hr f
  have hc : Contents h' ([] ++ (a, f v) :: (loose ++ ls.flatten)) :=
    Contents.modify (k := []) hf.contents hmod
  exact ⟨h', hmod, hagree.brk, hf.of_loose (hagree.mono (by simp)) hc⟩

theorem free (hf : Filed h ((a, v) :: loose) ls) :
    ∃ h', h.free a = some h' ∧ h'.brk = h.brk ∧ Filed h' loose ls := by
  obtain ⟨r, hr⟩ := hf.loose_cell
  obtain ⟨h', hfree, -, hagree⟩ := Heap.free_spec hr
  have hc : Contents h' ([] ++ (loose ++ ls.flatten)) :=
    Contents.free (k := []) hf.contents hfree
  exact ⟨h', hfree, hagree.brk, hf.of_loose (hagree.mono (by simp)) hc⟩

theorem setNext (hf : Filed h ((a, v) :: loose) ls) (q : Option Ptr) :
    ∃ h', h.setNext a q = some h' ∧ h'.brk = h.brk ∧ h'.cell a = some ⟨q, v⟩ ∧
      Filed h' ((a, v) :: loose) ls := by
  obtain ⟨r, hr⟩ := hf.loose_cell
  obtain ⟨h', hset, hcell, hagree⟩ := Heap.setNext_spec hr q
  exact ⟨h', hset, hagree.brk, hcell, hf.of_loose (hagree.mono (by simp)) (hf.contents.setNext hset)⟩

/-! ## One cell -/

/-- The first cell of a list taken out of it, with no assignment. -/
theorem pop (hf : Filed h loose (k ++ ((a, v) :: l) :: m)) :
    ∃ r, h.cell a = some ⟨r, v⟩ ∧ r = start l ∧ Filed h ((a, v) :: loose) (k ++ l :: m) := by
  obtain ⟨-, r, hr, hl⟩ := hf.list
  have hstart := Chain.start_eq hl
  exact ⟨r, hr, hstart, hf.replace (.refl _ _) (hstart ▸ hl)
    (hf.contents.perm (perm_of k m List.perm_middle))⟩

/-- A loose cell that links to a list becomes its first. -/
theorem push (hf : Filed h ((a, v) :: loose) (k ++ l :: m)) (hr : h.cell a = some ⟨start l, v⟩) :
    Filed h loose (k ++ ((a, v) :: l) :: m) :=
  hf.replace (.refl _ _) ⟨rfl, _, hr, hf.list⟩ 
    (hf.contents.perm (perm_of k m List.perm_middle.symm))

/-- A loose cell is linked after the cell `b` of a list. -/
theorem insert_after {b : Ptr} {w : α} {r : Option Ptr} {l₁ l₂ : List (Ptr × α)}
    (hf : Filed h ((a, v) :: loose) (k ++ (l₁ ++ (b, w) :: l₂) :: m))
    (hb : h.cell b = some ⟨r, w⟩) :
    ∃ h₁ h₂, h.setNext a r = some h₁ ∧ h₁.setNext b (some a) = some h₂ ∧ h₂.brk = h.brk ∧
      Filed h₂ loose (k ++ (l₁ ++ (b, w) :: (a, v) :: l₂) :: m) := by
  obtain ⟨s, hs⟩ := hf.loose_cell
  obtain ⟨h₁, h₂, hset₁, hset₂, hl, hagree⟩ := hf.list.insert_after hb hs hf.loose_not_mem
  have hstart : start (l₁ ++ (b, w) :: l₂) = start (l₁ ++ (b, w) :: (a, v) :: l₂) := by
    cases l₁ <;> rfl
  refine ⟨h₁, h₂, hset₁, hset₂, hagree.brk, ?_⟩
  refine hf.replace (hagree.mono ?_) (hstart ▸ hl)
    (((hf.contents.setNext hset₁).setNext hset₂).perm ?_)
  · simp [List.subset_def]
  · refine perm_of k m ?_
    have hp : ((a, v) :: (loose ++ l₁ ++ [(b, w)] ++ l₂)).Perm
        (loose ++ l₁ ++ [(b, w)] ++ (a, v) :: l₂) := List.perm_middle.symm
    simpa using hp

/-- A loose cell that links to nothing is linked after the last cell of a list. -/
theorem append {b : Ptr} {w : α} {l₁ : List (Ptr × α)}
    (hf : Filed h ((a, v) :: loose) (k ++ (l₁ ++ [(b, w)]) :: m)) (ha : h.cell a = some ⟨none, v⟩) :
    ∃ h', h.setNext b (some a) = some h' ∧ h'.brk = h.brk ∧
      Filed h' loose (k ++ (l₁ ++ [(b, w), (a, v)]) :: m) := by
  obtain ⟨h', hset, hl, hagree⟩ := hf.list.append_cell ha hf.loose_not_mem
  have hstart : start (l₁ ++ [(b, w)]) = start (l₁ ++ [(b, w), (a, v)]) := by
    cases l₁ <;> rfl
  refine ⟨h', hset, hagree.brk, ?_⟩
  refine hf.replace (hagree.mono ?_) (hstart ▸ hl) ((hf.contents.setNext hset).perm (perm_of k m ?_))
  · simp [List.subset_def]
  · have hp : ((a, v) :: (loose ++ l₁ ++ [(b, w)])).Perm (loose ++ l₁ ++ [(b, w)] ++ [(a, v)]) :=
      (List.perm_append_singleton _ _).symm
    simpa using hp

/-! ## Loops -/

/-- The loop of an insertion into a sorted list, from its first cell on. -/
theorem insert_advance (test : α → Bool) {b : Ptr} {w : α}
    (hf : Filed h ((a, v) :: loose) (k ++ ((b, w) :: l) :: m)) :
    ∃ cur c h₁ h₂, advance test h b = some cur ∧ h.cell cur = some c ∧
      h.setNext a c.next = some h₁ ∧ h₁.setNext cur (some a) = some h₂ ∧ h₂.brk = h.brk ∧
      Filed h₂ loose (k ++ ((b, w) :: (l.takeWhile fun x => test x.2) ++
        (a, v) :: l.dropWhile fun x => test x.2) :: m) := by
  have hadv := advance_chain test hf.list
  obtain ⟨l₁, ⟨cur, u⟩, hlast⟩ : ∃ l₁ x, (b, w) :: l.takeWhile (fun x => test x.2) = l₁ ++ [x] :=
    ⟨_, _, (List.dropLast_concat_getLast (List.cons_ne_nil _ _)).symm⟩
  have hsplit : (b, w) :: l = l₁ ++ (cur, u) :: l.dropWhile fun x => test x.2 := by
    rw [List.append_cons, ← hlast, List.cons_append, List.takeWhile_append_dropWhile]
  have hcur : ((b, w) :: l.takeWhile fun x => test x.2).getLast (List.cons_ne_nil _ _) = (cur, u) := by
    simp only [hlast, List.getLast_append_singleton]
  rw [hcur] at hadv
  rw [hsplit] at hf
  obtain ⟨r, hr⟩ := hf.list.mem_cell (List.mem_append_right l₁ List.mem_cons_self)
  obtain ⟨h₁, h₂, hset₁, hset₂, hbrk, hf₂⟩ := hf.insert_after hr
  refine ⟨cur, _, h₁, h₂, hadv, hr, hset₁, hset₂, hbrk, ?_⟩
  rwa [hlast, List.append_assoc]

theorem freeAll (hf : Filed h loose (k ++ l :: m)) :
    ∃ h', LinkedHeap.freeAll h (start l) = some h' ∧ h'.brk = h.brk ∧
      Filed h' loose (k ++ [] :: m) := by
  obtain ⟨h', hfree, hagree, hgone⟩ := freeAll_chain hf.list
  have hc : Contents h' ([] ++ (loose ++ (k ++ [] :: m).flatten)) := by
    refine (hf.contents.perm ?_).shrink hagree rfl (List.nil_sublist _) fun a ha _ => hgone a ha
    refine (perm_front loose l k m).trans ((List.perm_append_comm.append_right _).trans ?_)
    simp
  exact ⟨h', hfree, hagree.brk, hf.replace (hagree.mono (by simp)) rfl hc⟩

theorem removeAll (hf : Filed h loose (k ++ l :: m)) (test : α → Bool) :
    ∃ h', LinkedHeap.removeAll test h (start l) = some ((l.filter fun x => test x.2).length,
        start (l.filter fun x => !test x.2), h') ∧ h'.brk = h.brk ∧
      Filed h' loose (k ++ (l.filter fun x => !test x.2) :: m) := by
  obtain ⟨head, h', hrun, hl, hagree, hgone⟩ := removeAll_chain test hf.list
  obtain rfl := hl.start_eq
  have hc : Contents h' ((l.filter fun x => !test x.2) ++ (loose ++ (k.flatten ++ m.flatten))) := by
    refine (hf.contents.perm ?_).shrink hagree hl List.filter_sublist fun a ha hkept => ?_
    · refine (perm_front loose l k m).trans ((List.perm_append_comm.append_right _).trans ?_)
      rw [List.append_assoc]
    · obtain ⟨v, hv⟩ := mem_ptrs.mp ha
      refine hgone a (mem_ptrs.mpr ⟨v, List.mem_filter.mpr ⟨hv, ?_⟩⟩)
      by_contra hno
      exact hkept (mem_ptrs.mpr ⟨v, List.mem_filter.mpr ⟨hv, by simpa using hno⟩⟩)
  refine ⟨h', hrun, hagree.brk, hf.replace (hagree.mono (by simp)) hl (hc.perm ?_)⟩
  refine List.Perm.trans ?_ (perm_front loose _ k m).symm
  rw [← List.append_assoc]
  exact List.perm_append_comm.append_right _

end Filed

end LinkedHeap
