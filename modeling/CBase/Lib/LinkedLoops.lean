import CBase.Lib.LinkedHeap

/-!
# Loops over linked cells

The loops that programs run over a singly linked list, each with what it does to a chain. A loop
that meets a cell that is not allocated, or that does not end within as many steps as there were
allocations, has no result; on a chain neither happens.

* `toList`: the cells of the list.
* `find`: the first cell that passes a test.
* `advance`: from a cell on, the last one before the first that fails a test.
* `unlinkFirst`, `removeAll`: through a pointer to the link, take the first matching cell out, or
  all of them and free them.
* `mapAll`: change the value of every cell.
* `freeAll`: free every cell.
-/

namespace LinkedHeap

variable {α : Type} {h : Heap α} {p : Option Ptr} {l : List (Ptr × α)}

/-! ## Reading loops -/

def toListLoop (h : Heap α) : Nat → Option Ptr → List (Ptr × α)
  | _, none => []
  | 0, some _ => []
  | n + 1, some p =>
    match h.cell p with
    | none => []
    | some c => (p, c.val) :: toListLoop h n c.next

def toList (h : Heap α) (p : Option Ptr) : List (Ptr × α) := toListLoop h h.brk p

def findLoop (test : α → Bool) (h : Heap α) : Nat → Option Ptr → Option (Option Ptr)
  | _, none => some none
  | 0, some _ => none
  | n + 1, some p => do
    let c ← h.cell p
    if test c.val then return some p else findLoop test h n c.next

/-- `while (e) { if (test(e)) return e; e = e->next; } return NULL;` -/
def find (test : α → Bool) (h : Heap α) (p : Option Ptr) : Option (Option Ptr) :=
  findLoop test h h.brk p

def advanceLoop (test : α → Bool) (h : Heap α) : Nat → Ptr → Option Ptr
  | 0, _ => none
  | n + 1, cur => do
    let c ← h.cell cur
    match c.next with
    | none => return cur
    | some q =>
      let d ← h.cell q
      if test d.val then advanceLoop test h n q else return cur

/-- `while (cur->next && test(cur->next)) cur = cur->next;` -/
def advance (test : α → Bool) (h : Heap α) (cur : Ptr) : Option Ptr :=
  advanceLoop test h h.brk cur

theorem toListLoop_chain {n : Nat} (hl : Chain h p l) (hn : l.length ≤ n) :
    toListLoop h n p = l := by
  induction l generalizing n p with
  | nil => obtain rfl : p = none := hl; cases n <;> rfl
  | cons x l ih =>
    obtain ⟨a, v⟩ := x
    obtain ⟨rfl, r, ha, hl⟩ := hl
    cases n with
    | zero => cases hn
    | succ n => simp only [toListLoop, ha, ih hl (Nat.le_of_succ_le_succ hn)]

@[simp] theorem toList_none (h : Heap α) : toList h none = [] := by
  unfold toList
  cases h.brk <;> rfl

theorem toList_chain (hl : Chain h p l) : toList h p = l :=
  toListLoop_chain hl hl.length_le_brk

theorem findLoop_chain {test : α → Bool} {n : Nat} (hl : Chain h p l) (hn : l.length ≤ n) :
    findLoop test h n p = some ((l.find? fun x => test x.2).map Prod.fst) := by
  induction l generalizing n p with
  | nil => obtain rfl : p = none := hl; cases n <;> rfl
  | cons x l ih =>
    obtain ⟨a, v⟩ := x
    obtain ⟨rfl, r, ha, hl⟩ := hl
    cases n with
    | zero => cases hn
    | succ n =>
      cases ht : test v with
      | true => simp [findLoop, ha, ht]
      | false => simp [findLoop, ha, ht, ih hl (Nat.le_of_succ_le_succ hn)]

theorem find_chain {test : α → Bool} (hl : Chain h p l) :
    find test h p = some ((l.find? fun x => test x.2).map Prod.fst) :=
  findLoop_chain hl hl.length_le_brk

theorem advanceLoop_chain {test : α → Bool} {a : Ptr} {v : α} {n : Nat}
    (hl : Chain h (some a) ((a, v) :: l)) (hn : l.length < n) :
    advanceLoop test h n a =
      some (((a, v) :: l.takeWhile fun x => test x.2).getLast (List.cons_ne_nil _ _)).1 := by
  induction l generalizing n a v with
  | nil =>
    obtain ⟨_, r, ha, hnil⟩ := hl
    obtain rfl : r = none := hnil
    cases n with
    | zero => cases hn
    | succ n => simp [advanceLoop, ha]
  | cons x l ih =>
    obtain ⟨b, w⟩ := x
    obtain ⟨_, r, ha, htail⟩ := hl
    have hb := htail
    obtain ⟨rfl, s, hbs, _⟩ := hb
    cases n with
    | zero => cases hn
    | succ n =>
      cases ht : test w with
      | true =>
        simp only [advanceLoop, ha, hbs, ht, Option.bind_eq_bind, Option.bind_some, if_true,
          List.takeWhile_cons, ih htail (Nat.lt_of_succ_lt_succ hn), List.getLast_cons_cons]
      | false => simp [advanceLoop, ha, hbs, ht]

theorem advance_chain (test : α → Bool) {a : Ptr} {v : α} (hl : Chain h (some a) ((a, v) :: l)) :
    advance test h a =
      some (((a, v) :: l.takeWhile fun x => test x.2).getLast (List.cons_ne_nil _ _)).1 :=
  advanceLoop_chain hl (Nat.lt_of_succ_le hl.length_le_brk)

/-! ## Loops through a pointer to the link -/

/-- The link that a pointer to a link points to: the head variable, or the link of a cell. -/
inductive Link where
  | head
  | next (p : Ptr)

/-- `*link = q`, for a list whose head variable holds `head`. -/
def setLink (h : Heap α) (head : Option Ptr) : Link → Option Ptr → Option (Option Ptr × Heap α)
  | .head, q => some (q, h)
  | .next p, q => do
    let h ← h.setNext p q
    return (head, h)

def unlinkFirstLoop (test : α → Bool) (h : Heap α) (head : Option Ptr) :
    Nat → Link → Option Ptr → Option (Option Ptr × Option Ptr × Heap α)
  | _, _, none => some (none, head, h)
  | 0, _, some _ => none
  | n + 1, link, some p => do
    let c ← h.cell p
    if test c.val then
      let (head, h) ← setLink h head link c.next
      return (some p, head, h)
    else unlinkFirstLoop test h head n (.next p) c.next

/-- Take the first cell that passes the test out of the list. The result is the address of that
cell, the new head and the heap. -/
def unlinkFirst (test : α → Bool) (h : Heap α) (head : Option Ptr) :
    Option (Option Ptr × Option Ptr × Heap α) :=
  unlinkFirstLoop test h head h.brk .head head

def removeAllLoop (test : α → Bool) :
    Nat → Heap α → Option Ptr → Link → Option Ptr → Nat → Option (Nat × Option Ptr × Heap α)
  | _, h, head, _, none, removed => some (removed, head, h)
  | 0, _, _, _, some _, _ => none
  | n + 1, h, head, link, some p, removed => do
    let c ← h.cell p
    if test c.val then
      let (head, h) ← setLink h head link c.next
      let h ← h.free p
      removeAllLoop test n h head link c.next (removed + 1)
    else removeAllLoop test n h head (.next p) c.next removed

/-- Take every cell that passes the test out of the list and free it. The result is the number of
these cells, the new head and the heap. -/
def removeAll (test : α → Bool) (h : Heap α) (head : Option Ptr) :
    Option (Nat × Option Ptr × Heap α) :=
  removeAllLoop test h.brk h head .head head 0

/-- The link that follows the cells `k` of a list. -/
def linkAfter (k : List (Ptr × α)) : Link :=
  match k.getLast? with
  | none => .head
  | some x => .next x.1

@[simp] theorem linkAfter_nil : linkAfter ([] : List (Ptr × α)) = .head := rfl

@[simp] theorem linkAfter_append (k : List (Ptr × α)) (x : Ptr × α) :
    linkAfter (k ++ [x]) = .next x.1 := by
  simp [linkAfter]

/-- Assigning to the link after `k` moves the end of the segment `k`. -/
theorem setLink_spec {head q : Option Ptr} {k : List (Ptr × α)} (hk : Seg h head k q)
    (hnd : (ptrs k).Nodup) (r : Option Ptr) :
    ∃ head' h', setLink h head (linkAfter k) r = some (head', h') ∧ Seg h' head' k r ∧
      Heap.Agree (ptrs k) h h' := by
  rcases List.eq_nil_or_concat' k with rfl | ⟨k, ⟨a, v⟩, rfl⟩
  · exact ⟨r, h, rfl, rfl, .refl _ _⟩
  · obtain ⟨h', hset, hseg, hagree⟩ := hk.set_last hnd r
    refine ⟨head, h', ?_, hseg, hagree.mono (by simp)⟩
    rw [linkAfter_append]
    simp [setLink, hset]

/-- Unlinking the cell behind `k` leaves what follows it, and the cell itself. -/
theorem unlink_spec {head r : Option Ptr} {k : List (Ptr × α)} {a : Ptr} {v : α}
    (hk : Seg h head k (some a)) (ha : h.cell a = some ⟨r, v⟩) (hl : Chain h r l)
    (hnd : (ptrs (k ++ (a, v) :: l)).Nodup) :
    ∃ head' h', setLink h head (linkAfter k) r = some (head', h') ∧ Seg h' head' k r ∧
      Chain h' r l ∧ h'.cell a = some ⟨r, v⟩ ∧ Heap.Agree (ptrs k) h h' := by
  rw [ptrs_append, List.nodup_append] at hnd
  obtain ⟨hndk, -, hdis⟩ := hnd
  obtain ⟨head', h', hset, hseg, hagree⟩ := setLink_spec hk hndk r
  refine ⟨head', h', hset, hseg, hl.agree hagree fun b hb hm => ?_, ?_, hagree⟩
  · exact hdis b hm b (by simp [hb]) rfl
  · rw [hagree.cell a fun hm => hdis a hm a (by simp) rfl, ha]

theorem unlinkFirstLoop_chain (test : α → Bool) {head q : Option Ptr} {k : List (Ptr × α)}
    {n : Nat} (hk : Seg h head k q) (hq : Chain h q l) (hnd : (ptrs (k ++ l)).Nodup)
    (hn : l.length ≤ n) :
    ∃ head' h', unlinkFirstLoop test h head n (linkAfter k) q =
        some ((l.find? fun x => test x.2).map Prod.fst, head', h') ∧
      Chain h' head' (k ++ l.eraseP fun x => test x.2) ∧ Heap.Agree (ptrs (k ++ l)) h h' ∧
      ∀ x, l.find? (fun x => test x.2) = some x → h'.cell x.1 = h.cell x.1 := by
  induction l generalizing n k q with
  | nil =>
    obtain rfl : q = none := hq
    refine ⟨head, h, ?_, ?_, .refl _ _, by simp⟩
    · cases n <;> rfl
    · simpa using hk
  | cons x l ih =>
    obtain ⟨a, v⟩ := x
    obtain ⟨rfl, r, ha, htail⟩ := hq
    cases n with
    | zero => cases hn
    | succ n =>
      cases ht : test v with
      | true =>
        obtain ⟨head', h', hset, hseg, htail', ha', hagree⟩ := unlink_spec hk ha htail hnd
        refine ⟨head', h', ?_, ?_, hagree.mono (by simp), ?_⟩
        · simp [unlinkFirstLoop, ha, ht, hset]
        · rw [List.eraseP_cons_of_pos (by simpa using ht)]
          exact Seg.append_iff.mpr ⟨r, hseg, htail'⟩
        · intro x hx
          rw [List.find?_cons_of_pos (by simpa using ht)] at hx
          cases hx
          exact ha'.trans ha.symm
      | false =>
        have hnd' : (ptrs ((k ++ [(a, v)]) ++ l)).Nodup := by simpa using hnd
        obtain ⟨head', h', hrun, hchain, hagree, hcell⟩ :=
          ih (hk.snoc ha) htail hnd' (Nat.le_of_succ_le_succ hn)
        refine ⟨head', h', ?_, ?_, hagree.mono (by simp), ?_⟩
        · rw [linkAfter_append] at hrun
          simp [unlinkFirstLoop, ha, ht, hrun]
        · rw [List.eraseP_cons_of_neg (by simp [ht])]
          simpa using hchain
        · intro x hx
          rw [List.find?_cons_of_neg (by simp [ht])] at hx
          exact hcell x hx

/-- `unlinkFirst` finds the first matching cell and leaves the chain of the others. -/
theorem unlinkFirst_chain (test : α → Bool) {head : Option Ptr} (hl : Chain h head l) :
    ∃ head' h', unlinkFirst test h head =
        some ((l.find? fun x => test x.2).map Prod.fst, head', h') ∧
      Chain h' head' (l.eraseP fun x => test x.2) ∧ Heap.Agree (ptrs l) h h' ∧
      ∀ x, l.find? (fun x => test x.2) = some x → h'.cell x.1 = h.cell x.1 := by
  have hloop := unlinkFirstLoop_chain (k := []) test rfl hl (by simpa using hl.nodup)
    hl.length_le_brk
  simpa [unlinkFirst] using hloop

theorem removeAllLoop_chain (test : α → Bool) {head q : Option Ptr} {k : List (Ptr × α)}
    {n m : Nat} (hk : Seg h head k q) (hq : Chain h q l) (hnd : (ptrs (k ++ l)).Nodup)
    (hn : l.length ≤ n) :
    ∃ head' h', removeAllLoop test n h head (linkAfter k) q m =
        some (m + (l.filter fun x => test x.2).length, head', h') ∧
      Chain h' head' (k ++ l.filter fun x => !test x.2) ∧ Heap.Agree (ptrs (k ++ l)) h h' ∧
      ∀ a ∈ ptrs (l.filter fun x => test x.2), h'.cell a = none := by
  induction l generalizing h n m head k q with
  | nil =>
    obtain rfl : q = none := hq
    refine ⟨head, h, ?_, ?_, .refl _ _, by simp⟩
    · cases n <;> rfl
    · simpa using hk
  | cons x l ih =>
    obtain ⟨a, v⟩ := x
    obtain ⟨rfl, r, ha, htail⟩ := hq
    cases n with
    | zero => cases hn
    | succ n =>
      cases ht : test v with
      | true =>
        obtain ⟨head₁, h₁, hset, hseg, htail₁, ha₁, hagree₁⟩ := unlink_spec hk ha htail hnd
        obtain ⟨h₂, hfree, hnone, hagree₂⟩ := Heap.free_spec ha₁
        have hmiddle := @List.perm_middle _ a (ptrs k) (ptrs l)
        rw [ptrs_append, ptrs_cons, hmiddle.nodup_iff, ← ptrs_append, List.nodup_cons] at hnd
        obtain ⟨ha', hnd⟩ := hnd
        have hother {b : Ptr} (hb : b ∈ ptrs (k ++ l)) : b ∉ [a] := fun hm =>
          ha' (List.mem_singleton.mp hm ▸ hb)
        have hk₂ : Seg h₂ head₁ k r := hseg.agree hagree₂ fun b hb => hother (by simp [hb])
        have hl₂ : Chain h₂ r l := htail₁.agree hagree₂ fun b hb => hother (by simp [hb])
        obtain ⟨head', h', hrun, hchain, hagree, hgone⟩ :=
          ih (m := m + 1) hk₂ hl₂ hnd (Nat.le_of_succ_le_succ hn)
        refine ⟨head', h', ?_, ?_, ?_, ?_⟩
        · simp only [removeAllLoop, ha, ht, hset, hfree, hrun, Option.bind_eq_bind,
            Option.bind_some, if_true, List.filter_cons, List.length_cons, Option.some.injEq,
            Prod.mk.injEq, and_true]
          omega
        · rw [List.filter_cons_of_neg (by simp [ht])]
          exact hchain
        · refine ((hagree₁.mono ?_).trans (hagree₂.mono ?_)).trans (hagree.mono ?_) <;>
            simp [List.subset_def] <;> grind
        · intro b hb
          rw [List.filter_cons_of_pos (by simpa using ht), ptrs_cons] at hb
          rcases List.mem_cons.mp hb with rfl | hb
          · rw [hagree.cell _ ha', hnone]
          · exact hgone b hb
      | false =>
        have hnd' : (ptrs ((k ++ [(a, v)]) ++ l)).Nodup := by simpa using hnd
        obtain ⟨head', h', hrun, hchain, hagree, hgone⟩ :=
          ih (m := m) (hk.snoc ha) htail hnd' (Nat.le_of_succ_le_succ hn)
        refine ⟨head', h', ?_, ?_, hagree.mono (by simp), ?_⟩
        · rw [linkAfter_append] at hrun
          simpa [removeAllLoop, ha, ht] using hrun
        · rw [List.filter_cons_of_pos (by simp [ht])]
          simpa using hchain
        · rw [List.filter_cons_of_neg (by simp [ht])]
          exact hgone

/-- `removeAll` leaves the chain of the cells that fail the test and frees the others. -/
theorem removeAll_chain (test : α → Bool) {head : Option Ptr} (hl : Chain h head l) :
    ∃ head' h', removeAll test h head =
        some ((l.filter fun x => test x.2).length, head', h') ∧
      Chain h' head' (l.filter fun x => !test x.2) ∧ Heap.Agree (ptrs l) h h' ∧
      ∀ a ∈ ptrs (l.filter fun x => test x.2), h'.cell a = none := by
  have hloop := removeAllLoop_chain (k := []) (m := 0) test rfl hl (by simpa using hl.nodup)
    hl.length_le_brk
  simpa [removeAll] using hloop

/-! ## Loops over every cell -/

def mapAllLoop (f : α → α) : Nat → Heap α → Option Ptr → Option (Heap α)
  | _, h, none => some h
  | 0, _, some _ => none
  | n + 1, h, some p => do
    let c ← h.cell p
    let h ← h.modify p f
    mapAllLoop f n h c.next

/-- `while (p) { p->val = f(p->val); p = p->next; }` -/
def mapAll (f : α → α) (h : Heap α) (p : Option Ptr) : Option (Heap α) := mapAllLoop f h.brk h p

theorem mapAllLoop_chain {f : α → α} {n : Nat} (hl : Chain h p l) (hn : l.length ≤ n) :
    ∃ h', mapAllLoop f n h p = some h' ∧ Chain h' p (l.map fun x => (x.1, f x.2)) ∧
      Heap.Agree (ptrs l) h h' := by
  induction l generalizing h n p with
  | nil =>
    obtain rfl : p = none := hl
    exact ⟨h, by cases n <;> rfl, rfl, .refl _ _⟩
  | cons x l ih =>
    have hnd := hl.nodup
    obtain ⟨a, v⟩ := x
    rw [ptrs_cons, List.nodup_cons] at hnd
    obtain ⟨rfl, r, ha, htail⟩ := hl
    cases n with
    | zero => cases hn
    | succ n =>
      obtain ⟨h₁, hmod, hcell, hagree₁⟩ := Heap.modify_spec ha f
      have hl₁ : Chain h₁ r l := htail.agree hagree₁ fun b hb hm =>
        hnd.1 (List.mem_singleton.mp hm ▸ hb)
      obtain ⟨h', hrun, hchain, hagree⟩ := ih hl₁ (Nat.le_of_succ_le_succ hn)
      refine ⟨h', ?_, ⟨rfl, r, ?_, hchain⟩, (hagree₁.mono (by simp)).trans (hagree.mono (by simp))⟩
      · simp [mapAllLoop, ha, hmod, hrun]
      · rw [hagree.cell a hnd.1, hcell]

/-- `mapAll` changes the values of the chain and no links. -/
theorem mapAll_chain {f : α → α} (hl : Chain h p l) :
    ∃ h', mapAll f h p = some h' ∧ Chain h' p (l.map fun x => (x.1, f x.2)) ∧
      Heap.Agree (ptrs l) h h' :=
  mapAllLoop_chain hl hl.length_le_brk

def freeAllLoop : Nat → Heap α → Option Ptr → Option (Heap α)
  | _, h, none => some h
  | 0, _, some _ => none
  | n + 1, h, some p => do
    let c ← h.cell p
    let h ← h.free p
    freeAllLoop n h c.next

/-- `while (p) { next = p->next; free(p); p = next; }` -/
def freeAll (h : Heap α) (p : Option Ptr) : Option (Heap α) := freeAllLoop h.brk h p

theorem freeAllLoop_chain {n : Nat} (hl : Chain h p l) (hn : l.length ≤ n) :
    ∃ h', freeAllLoop n h p = some h' ∧ Heap.Agree (ptrs l) h h' ∧
      ∀ a ∈ ptrs l, h'.cell a = none := by
  induction l generalizing h n p with
  | nil =>
    obtain rfl : p = none := hl
    exact ⟨h, by cases n <;> rfl, .refl _ _, by simp⟩
  | cons x l ih =>
    have hnd := hl.nodup
    obtain ⟨a, v⟩ := x
    rw [ptrs_cons, List.nodup_cons] at hnd
    obtain ⟨rfl, r, ha, htail⟩ := hl
    cases n with
    | zero => cases hn
    | succ n =>
      obtain ⟨h₁, hfree, hnone, hagree₁⟩ := Heap.free_spec ha
      have hl₁ : Chain h₁ r l := htail.agree hagree₁ fun b hb hm =>
        hnd.1 (List.mem_singleton.mp hm ▸ hb)
      obtain ⟨h', hrun, hagree, hgone⟩ := ih hl₁ (Nat.le_of_succ_le_succ hn)
      refine ⟨h', ?_, (hagree₁.mono (by simp)).trans (hagree.mono (by simp)), ?_⟩
      · simp [freeAllLoop, ha, hfree, hrun]
      · intro b hb
        rw [ptrs_cons] at hb
        rcases List.mem_cons.mp hb with rfl | hb
        · rw [hagree.cell _ hnd.1, hnone]
        · exact hgone b hb

/-- `freeAll` frees exactly the cells of the chain. -/
theorem freeAll_chain (hl : Chain h p l) :
    ∃ h', freeAll h p = some h' ∧ Heap.Agree (ptrs l) h h' ∧ ∀ a ∈ ptrs l, h'.cell a = none :=
  freeAllLoop_chain hl hl.length_le_brk

end LinkedHeap
