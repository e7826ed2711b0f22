import CBase.Arena.Blocks

/-!
# The arena as a list with a position

What the linked blocks stand for: the blocks before the current one, the current one, those after
it, and the blocks that the chain no longer reaches. `Zipper.alloc` and `Zipper.reset` say what the
calls do to it, and `alloc_refines` and `reset_refines` that the code does exactly that, for every
request.
-/

namespace CBase.Arena

open LinkedHeap

/-- An arena as lists of blocks. -/
structure Zipper where
  strategy : Strategy
  initialSize : UInt64
  before : List (Ptr × Block)
  cur : Ptr × Block
  after : List (Ptr × Block)
  lost : List (Ptr × Block)
  fresh : Ptr

namespace Zipper

/-- The blocks that the chain reaches. -/
def chain (z : Zipper) : List (Ptr × Block) := z.before ++ z.cur :: z.after

/-- Every block that `malloc` returned. -/
def all (z : Zipper) : List (Ptr × Block) := z.chain ++ z.lost

/-- The next block becomes the current one. -/
def forward (z : Zipper) : Zipper :=
  match z.after with
  | [] => z
  | next :: rest => { z with before := z.before ++ [z.cur], cur := next, after := rest }

/-- A new block becomes the current one, in the place of everything after the last. -/
def insert (z : Zipper) (b : Block) : Zipper :=
  { z with
    before := z.before ++ [z.cur]
    cur := (z.fresh, b)
    after := []
    lost := z.lost ++ z.after
    fresh := z.fresh + 1 }

/-- Hand out `size` bytes of the current block from `offset` on. -/
def take (z : Zipper) (offset size : UInt64) : AllocResult × Zipper :=
  (⟨.ok, some (z.cur.2.data + offset)⟩,
    { z with cur := (z.cur.1, z.cur.2.bumped offset size) })

/-- A request that fits neither in the current block nor in the one after it. -/
def grow (z : Zipper) (malloc : Malloc) (size align last : UInt64) :
    Option (AllocResult × Zipper) := do
  match wantedSize z.strategy z.initialSize last with
  | none => return (⟨.arenaOutOfMemory, none⟩, z)
  | some wanted =>
    match ← newBlock malloc (newBlockSize wanted size align) with
    | none => return (⟨.allocFailed, none⟩, z)
    | some b => return (z.insert b).take (alignForward 0 align) size

/-- Which block a request goes to. -/
def place (z : Zipper) (size align : UInt64) : Place :=
  if z.cur.2.fits (alignForward z.cur.2.used align) size then .current z.cur.1 z.cur.2
  else match z.after with
    | [] => .grow z.cur.1 z.cur.2
    | next :: _ =>
      if next.2.fits (alignForward 0 align) size then .next next.1 next.2
      else .grow z.cur.1 next.2

/-- `cb_arena_alloc` on lists. -/
def alloc (z : Zipper) (malloc : Malloc) (size align : UInt64) : Option (AllocResult × Zipper) :=
  let align := effectiveAlign align
  match z.place size align with
  | .current _ _ => some (z.take (alignForward z.cur.2.used align) size)
  | .next _ _ => some (z.forward.take (alignForward 0 align) size)
  | .grow _ tried => z.grow malloc size align tried.size

/-- `cb_arena_reset` on lists. -/
def reset (z : Zipper) : Zipper :=
  match z.chain.map fun x => (x.1, x.2.cleared) with
  | [] => z
  | first :: rest => { z with before := [], cur := first, after := rest }

theorem place_eq_current {z : Zipper} {size align : UInt64} {p : Ptr} {b : Block}
    (h : z.place size align = .current p b) :
    p = z.cur.1 ∧ b = z.cur.2 ∧ z.cur.2.fits (alignForward z.cur.2.used align) size = true := by
  unfold place at h
  split at h
  · next hfits => cases h; exact ⟨rfl, rfl, hfits⟩
  · split at h
    · cases h
    · split at h <;> cases h

theorem place_eq_next {z : Zipper} {size align : UInt64} {p : Ptr} {b : Block}
    (h : z.place size align = .next p b) :
    ∃ rest, z.after = (p, b) :: rest ∧ b.fits (alignForward 0 align) size = true := by
  unfold place at h
  split at h
  · cases h
  · split at h
    · cases h
    · next rest hafter =>
      split at h
      · next hfits => cases h; exact ⟨rest, hafter, hfits⟩
      · cases h

theorem place_eq_grow {z : Zipper} {size align : UInt64} {cur : Ptr} {tried : Block}
    (h : z.place size align = .grow cur tried) : cur = z.cur.1 := by
  unfold place at h
  split at h
  · cases h
  · split at h
    · cases h; rfl
    · split at h <;> cases h
      rfl

/-- The block that a request is served from, and the offset in it: the current block, the next
one, or a new one. `align` is not zero here. -/
inductive Opened (z : Zipper) (malloc : Malloc) (size align : UInt64) : Zipper → UInt64 → Prop
  | current : z.cur.2.fits (alignForward z.cur.2.used align) size = true →
      Opened z malloc size align z (alignForward z.cur.2.used align)
  | next {x : Ptr × Block} {rest : List (Ptr × Block)} : z.after = x :: rest →
      x.2.fits (alignForward 0 align) size = true →
      Opened z malloc size align z.forward (alignForward 0 align)
  | new {tried b : Block} {wanted : UInt64} : z.place size align = .grow z.cur.1 tried →
      wantedSize z.strategy z.initialSize tried.size = some wanted →
      newBlock malloc (newBlockSize wanted size align) = some (some b) →
      Opened z malloc size align (z.insert b) (alignForward 0 align)

/-- What a request for a new block does: a fixed arena refuses it, `malloc` fails, or the block is put
behind the current one. -/
theorem grow_cases {z z' : Zipper} {malloc : Malloc} {size align last : UInt64} {r : AllocResult}
    (h : z.grow malloc size align last = some (r, z')) :
    (wantedSize z.strategy z.initialSize last = none ∧ r = ⟨.arenaOutOfMemory, none⟩ ∧ z' = z) ∨
    ∃ wanted, wantedSize z.strategy z.initialSize last = some wanted ∧
      ((newBlock malloc (newBlockSize wanted size align) = some none ∧
          r = ⟨.allocFailed, none⟩ ∧ z' = z) ∨
        ∃ b, newBlock malloc (newBlockSize wanted size align) = some (some b) ∧
          (r, z') = (z.insert b).take (alignForward 0 align) size) := by
  unfold grow at h
  cases hw : wantedSize z.strategy z.initialSize last with
  | none =>
    rw [hw] at h
    cases h
    exact .inl ⟨rfl, rfl, rfl⟩
  | some wanted =>
    refine .inr ⟨wanted, rfl, ?_⟩
    cases hb : newBlock malloc (newBlockSize wanted size align) with
    | none => simp [hw, hb] at h
    | some ob =>
      simp only [hw, hb, Option.bind_eq_bind, Option.bind_some, Option.pure_def] at h
      cases ob with
      | none =>
        cases h
        exact .inl ⟨rfl, rfl, rfl⟩
      | some b => exact .inr ⟨b, rfl, (Option.some.inj h).symm⟩

/-- What a request can do: fail and change nothing, or open a block and take a region of it. -/
theorem alloc_cases {z z' : Zipper} {malloc : Malloc} {size align : UInt64} {r : AllocResult}
    (h : z.alloc malloc size align = some (r, z')) :
    (r.info ≠ .ok ∧ r.ptr = none ∧ z' = z) ∨
    ∃ z₁ offset, Opened z malloc size (effectiveAlign align) z₁ offset ∧
      (r, z') = z₁.take offset size := by
  unfold alloc at h
  cases hz : z.place size (effectiveAlign align) with
  | current p b =>
    simp only [hz, Option.some.injEq] at h
    exact .inr ⟨_, _, .current (place_eq_current hz).2.2, h.symm⟩
  | next p b =>
    obtain ⟨rest, hafter, hfits⟩ := place_eq_next hz
    simp only [hz, Option.some.injEq] at h
    exact .inr ⟨_, _, .next hafter hfits, h.symm⟩
  | grow cur tried =>
    obtain rfl := place_eq_grow hz
    simp only [hz] at h
    rcases grow_cases h with ⟨_, rfl, rfl⟩ | ⟨wanted, hw, ⟨_, rfl, rfl⟩ | ⟨b, hb, htake⟩⟩
    · exact .inl ⟨by simp, rfl, rfl⟩
    · exact .inl ⟨by simp, rfl, rfl⟩
    · exact .inr ⟨_, _, .new hz hw hb, htake⟩

@[simp] theorem reset_chain (z : Zipper) :
    z.reset.chain = z.chain.map fun x => (x.1, x.2.cleared) := by
  unfold reset
  split
  · next h => simp [chain] at h
  · next first rest h => simp [chain, ← h]

@[simp] theorem reset_lost (z : Zipper) : z.reset.lost = z.lost := by
  unfold reset
  split <;> rfl

@[simp] theorem reset_fresh (z : Zipper) : z.reset.fresh = z.fresh := by
  unfold reset
  split <;> rfl

@[simp] theorem reset_strategy (z : Zipper) : z.reset.strategy = z.strategy := by
  unfold reset
  split <;> rfl

@[simp] theorem reset_initialSize (z : Zipper) : z.reset.initialSize = z.initialSize := by
  unfold reset
  split <;> rfl

@[simp] theorem reset_before (z : Zipper) : z.reset.before = [] := by
  unfold reset
  split
  · next h => simp [chain] at h
  · rfl

end Zipper

/-! ## Refinement -/

/-- The linked blocks of `a` are the lists of `z`, and no other block is allocated. -/
structure Repr (a : Arena) (z : Zipper) : Prop where
  strategy : a.strategy = z.strategy
  initialSize : a.initialSize = z.initialSize
  chain : Chain a.blocks a.head z.chain
  current : a.current = some z.cur.1
  contents : Contents a.blocks z.all
  brk : a.blocks.brk = z.fresh

namespace Repr

variable {a : Arena} {z : Zipper}

theorem toList (hr : Repr a z) : a.chain = z.chain := toList_chain hr.chain

/-- The cell of the current block. -/
theorem cur_cell (hr : Repr a z) :
    a.blocks.cell z.cur.1 = some ⟨z.after.head?.map Prod.fst, z.cur.2⟩ := by
  obtain ⟨q, _, rfl, r, hcell, htail⟩ := Seg.append_iff.mp hr.chain
  rw [hcell]
  cases hafter : z.after with
  | nil => rw [hafter] at htail; obtain rfl : r = none := htail; rfl
  | cons x l => rw [hafter] at htail; obtain ⟨rfl, _⟩ := htail; rfl

/-- Changing the block at the position. -/
theorem modify_cur {p : Ptr} {b : Block} {k l m : List (Ptr × Block)} {f : Block → Block}
    (hchain : Chain a.blocks a.head (k ++ (p, b) :: l))
    (hall : Contents a.blocks ((k ++ (p, b) :: l) ++ m)) :
    ∃ h', a.blocks.modify p f = some h' ∧ Chain h' a.head (k ++ (p, f b) :: l) ∧
      Contents h' ((k ++ (p, f b) :: l) ++ m) ∧ h'.brk = a.blocks.brk := by
  obtain ⟨h', hmod, hchain', hagree⟩ := hchain.modify_cell f
  refine ⟨h', hmod, hchain', ?_, hagree.brk⟩
  rw [List.append_assoc, List.cons_append] at hall ⊢
  exact hall.modify hmod

end Repr

/-- Both levels choose the same block. -/
theorem place_refines {a : Arena} {z : Zipper} (hr : Repr a z) (size align : UInt64) :
    place a size align = some (z.place size align) := by
  have hcell := hr.cur_cell
  unfold place Zipper.place
  simp only [hr.current, hcell, Option.bind_eq_bind, Option.bind_some, Option.pure_def]
  cases hafter : z.after with
  | nil => split <;> rfl
  | cons next rest =>
    obtain ⟨r, hnext⟩ : ∃ r, a.blocks.cell next.1 = some ⟨r, next.2⟩ :=
      hr.chain.mem_cell (a := next.1) (v := next.2) (by simp [Zipper.chain, hafter])
    simp only [List.head?_cons, Option.map_some, hnext, Option.bind_some]
    split
    · rfl
    · split <;> rfl

/-- The two levels answer alike, and end in states that correspond. -/
def Matches : Option (AllocResult × Arena) → Option (AllocResult × Zipper) → Prop :=
  Option.Rel fun x y => x.1 = y.1 ∧ Repr x.2 y.2

theorem Matches.left {x : AllocResult × Arena} {o : Option (AllocResult × Zipper)}
    (h : Matches (some x) o) : ∃ y, o = some y ∧ x.1 = y.1 ∧ Repr x.2 y.2 := by
  cases h with
  | some h => exact ⟨_, rfl, h⟩

theorem Matches.right {y : AllocResult × Zipper} {o : Option (AllocResult × Arena)}
    (h : Matches o (some y)) : ∃ x, o = some x ∧ x.1 = y.1 ∧ Repr x.2 y.2 := by
  cases h with
  | some h => exact ⟨_, rfl, h⟩

theorem perm_grow {β : Type} (x : β) (k l m : List β) :
    (x :: ((k ++ l) ++ m)).Perm ((k ++ [x]) ++ (m ++ l)) := by
  have h₁ : (x :: ((k ++ l) ++ m)).Perm (k ++ x :: (l ++ m)) := by
    rw [List.append_assoc]
    exact List.perm_middle.symm
  refine h₁.trans ?_
  rw [List.append_assoc]
  exact List.Perm.append_left k (List.Perm.cons x List.perm_append_comm)

/-- Linking a new block after the current one and putting the region into it. -/
theorem link_new {a : Arena} {z : Zipper} (hr : Repr a z) (b : Block) (f : Block → Block) :
    ∃ h₂ h₃, (a.blocks.alloc ⟨none, b⟩).2.setNext z.cur.1 (some z.fresh) = some h₂ ∧
      h₂.cell z.fresh = some ⟨none, b⟩ ∧ h₂.modify z.fresh f = some h₃ ∧
      Chain h₃ a.head ((z.before ++ [z.cur]) ++ [(z.fresh, f b)]) ∧
      Contents h₃ (((z.before ++ [z.cur]) ++ [(z.fresh, f b)]) ++ (z.lost ++ z.after)) ∧
      h₃.brk = z.fresh + 1 := by
  have hbrk := hr.brk
  have hchain : Chain (a.blocks.alloc ⟨none, b⟩).2 a.head ((z.before ++ [z.cur]) ++ z.after) := by
    have := hr.chain.alloc ⟨none, b⟩
    rwa [Zipper.chain, ← List.singleton_append, ← List.append_assoc] at this
  have hcontents : Contents (a.blocks.alloc ⟨none, b⟩).2 ([] ++ (z.fresh, b) :: z.all) := by
    have := hr.contents.alloc ⟨none, b⟩
    rwa [hbrk] at this
  have hcell : (a.blocks.alloc ⟨none, b⟩).2.cell z.fresh = some ⟨none, b⟩ := by
    rw [Heap.alloc_cell, if_pos hbrk.symm]
  have hne : z.fresh ≠ z.cur.1 := by
    have hlt := hr.chain.lt_brk (b := z.cur.1) (by simp [Zipper.chain])
    rw [hbrk] at hlt
    exact Nat.ne_of_gt hlt
  have hnd := hchain.nodup
  obtain ⟨q, hpre, _⟩ := Seg.append_iff.mp hchain
  rw [ptrs_append, List.nodup_append] at hnd
  obtain ⟨h₂, hset, hpre₂, hagree₂⟩ := hpre.set_last hnd.1 (some z.fresh)
  have hcell₂ : h₂.cell z.fresh = some ⟨none, b⟩ := by
    rw [hagree₂.cell _ (by simpa using hne), hcell]
  have hchain₂ : Chain h₂ a.head ((z.before ++ [z.cur]) ++ (z.fresh, b) :: []) :=
    hpre₂.snoc hcell₂
  obtain ⟨h₃, hmod, hchain₃, hagree₃⟩ := hchain₂.modify_cell f
  refine ⟨h₂, h₃, hset, hcell₂, hmod, hchain₃, ?_, ?_⟩
  · refine ((hcontents.setNext hset).modify hmod).perm ?_
    have hperm := perm_grow (z.fresh, f b) (z.before ++ [z.cur]) z.after z.lost
    rwa [List.append_assoc z.before, List.singleton_append] at hperm
  · rw [hagree₃.brk, hagree₂.brk, Heap.alloc_brk, hbrk]

theorem grow_refines {a : Arena} {z : Zipper} (hr : Repr a z) (malloc : Malloc)
    (size align last : UInt64) :
    Matches (match wantedSize a.strategy a.initialSize last with
      | none => some (⟨.arenaOutOfMemory, none⟩, a)
      | some wanted => extend a malloc size align z.cur.1 wanted)
      (z.grow malloc size align last) := by
  unfold Zipper.grow
  rw [hr.strategy, hr.initialSize]
  cases wantedSize z.strategy z.initialSize last with
  | none => exact .some ⟨rfl, hr⟩
  | some wanted =>
    simp only [extend, blockCreate]
    cases newBlock malloc (newBlockSize wanted size align) with
    | none => exact .none
    | some ob =>
      cases ob with
      | none => exact .some ⟨rfl, hr⟩
      | some b =>
        obtain ⟨h₂, h₃, hset, hcell, hmod, hchain, hcontents, hbrk⟩ :=
          link_new hr b (·.bumped (alignForward 0 align) size)
        simp only [Option.bind_eq_bind, Option.bind_some, Option.pure_def, Heap.alloc_fst, hr.brk,
          hset, hcell, hmod]
        exact .some ⟨rfl, hr.strategy, hr.initialSize, hchain, rfl, hcontents, hbrk⟩

/-- `cb_arena_alloc` does to the blocks what `Zipper.alloc` does to the lists. -/
theorem alloc_refines {a : Arena} {z : Zipper} (hr : Repr a z) (malloc : Malloc)
    (size align : UInt64) :
    Matches (arenaAlloc a malloc size align) (z.alloc malloc size align) := by
  have hplace := place_refines hr size (effectiveAlign align)
  unfold arenaAlloc Zipper.alloc
  simp only [hplace, Option.bind_eq_bind, Option.bind_some]
  cases hz : z.place size (effectiveAlign align) with
  | current p b =>
    obtain ⟨rfl, rfl, _⟩ := Zipper.place_eq_current hz
    obtain ⟨h', hmod, hchain, hall, hbrk⟩ := Repr.modify_cur (p := z.cur.1) (b := z.cur.2)
      (f := (·.bumped (alignForward z.cur.2.used (effectiveAlign align)) size))
      hr.chain hr.contents
    simp only [hmod, Option.bind_some, Option.pure_def]
    exact .some ⟨rfl, hr.strategy, hr.initialSize, hchain, hr.current, hall, hbrk.trans hr.brk⟩
  | next p b =>
    obtain ⟨rest, hafter, _⟩ := Zipper.place_eq_next hz
    have hsplit : z.chain = (z.before ++ [z.cur]) ++ (p, b) :: rest := by
      simp [Zipper.chain, hafter]
    obtain ⟨h', hmod, hchain, hall, hbrk⟩ := Repr.modify_cur
      (f := (·.bumped (alignForward 0 (effectiveAlign align)) size))
      (hsplit ▸ hr.chain) (m := z.lost) (hsplit ▸ hr.contents)
    simp only [hmod, Option.bind_some, Option.pure_def, Zipper.forward, hafter]
    exact .some ⟨rfl, hr.strategy, hr.initialSize, hchain, rfl, hall, hbrk.trans hr.brk⟩
  | grow cur tried =>
    obtain rfl := Zipper.place_eq_grow hz
    exact grow_refines hr malloc size (effectiveAlign align) tried.size

/-- `cb_arena_reset` does to the blocks what `Zipper.reset` does to the lists. -/
theorem reset_refines {a : Arena} {z : Zipper} (hr : Repr a z) :
    ∃ a', arenaReset a = some a' ∧ Repr a' z.reset := by
  obtain ⟨h', hmap, hchain, hagree⟩ := mapAll_chain (f := Block.cleared) hr.chain
  have hall := hr.contents.mapChain hchain hagree
  rw [← Zipper.reset_chain] at hchain hall
  refine ⟨{ a with blocks := h', current := a.head }, by simp [arenaReset, hmap],
    by simp [hr.strategy], by simp [hr.initialSize], hchain, ?_, ?_, by simp [hagree.brk, hr.brk]⟩
  · have hhead := hchain.head_eq
    rw [Zipper.chain, Zipper.reset_before] at hhead
    simpa using hhead
  · rwa [Zipper.all, Zipper.reset_lost]

/-- An arena that was created has one block. -/
theorem create_refines {a : Arena} {malloc : Malloc} {size : UInt64} {strategy : Strategy}
    (h : arenaCreate malloc size strategy = some a) (hok : a.info = .ok) :
    ∃ b, newBlock malloc size = some (some b) ∧ Repr a ⟨strategy, size, [], (0, b), [], [], 1⟩ := by
  cases hb : newBlock malloc size with
  | none => simp [arenaCreate, blockCreate, hb] at h
  | some ob =>
    cases ob with
    | none => simp [arenaCreate, blockCreate, hb] at h; subst h; cases hok
    | some b =>
      simp only [arenaCreate, blockCreate, hb, Option.bind_eq_bind, Option.bind_some,
        Option.pure_def, Option.some.injEq] at h
      subst h
      refine ⟨b, rfl, rfl, rfl, ⟨rfl, none, rfl, rfl⟩, rfl, ?_, rfl⟩
      exact Contents.empty.alloc ⟨none, b⟩

end CBase.Arena
