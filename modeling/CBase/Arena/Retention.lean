import CBase.Arena.Zipper
import Mathlib.Tactic.IntervalCases

/-!
# Which blocks an arena keeps

A request that fits neither in the current block nor in the next one links a new block after the
current one. When the current block has a successor, that link is overwritten, and the blocks behind
it are no longer reachable from `head`: `cb_arena_destroy` does not free them, and
`cb_arena_check_health` does not look at them.

* `Kept`: every block that `malloc` returned is reachable once, freed by destroy and inspected.
* `arena_keeps_blocks`: a run keeps all blocks exactly when every request of it that got a new
  block found no successor of the current one.
* `tail_of_chain_lost`: a run that loses a block.
-/

namespace CBase.Arena

open LinkedHeap

/-- Every block that was obtained from `malloc` is reachable from `head`, once, so destroying the
arena frees every block and checking its health inspects every block. -/
structure Kept (a : Arena) : Prop where
  reachable : ∀ p < a.blocks.brk, p ∈ ptrs a.chain
  once : (ptrs a.chain).Nodup
  destroyed : ∃ a', arenaDestroy a = some a' ∧ ∀ p, a'.blocks.cell p = none
  inspected : ∀ mem, arenaCheckHealth mem a = some true ↔
    ∀ p c, a.blocks.cell p = some c → blockCheckGuards mem c.val = true

/-- When a request gets a new block, the current block has no successor. -/
def Call.KeepsTail (a : Arena) : Call → Prop
  | .alloc size align malloc _ => ∀ cur tried wanted c,
      place a size (effectiveAlign align) = some (.grow cur tried) →
      wantedSize a.strategy a.initialSize tried.size = some wanted →
      (malloc (blockTotal (newBlockSize wanted size (effectiveAlign align)))).isSome = true →
      a.blocks.cell cur = some c → c.next = none
  | .reset => True

/-! ## On lists -/

/-- The same on lists, for an `align` that is not zero. -/
def Zipper.KeepsTail (z : Zipper) (malloc : Malloc) (size align : UInt64) : Prop :=
  ∀ tried wanted, z.place size align = .grow z.cur.1 tried →
    wantedSize z.strategy z.initialSize tried.size = some wanted →
    (malloc (blockTotal (newBlockSize wanted size align))).isSome = true → z.after = []

theorem Zipper.keepsTail_grow {z : Zipper} {malloc : Malloc} {size align : UInt64} {tried : Block}
    (hz : z.place size align = .grow z.cur.1 tried) :
    z.KeepsTail malloc size align ↔
      ∀ wanted, wantedSize z.strategy z.initialSize tried.size = some wanted →
        (malloc (blockTotal (newBlockSize wanted size align))).isSome = true → z.after = [] := by
  refine ⟨fun h wanted => h tried wanted hz, fun h t wanted ht => ?_⟩
  rw [hz] at ht
  cases ht
  exact h wanted

/-- Every address that was handed out is listed. -/
def Zipper.Complete (z : Zipper) : Prop := ∀ p < z.fresh, p ∈ ptrs z.all

theorem newBlock_isSome {malloc : Malloc} {size : UInt64} {ob : Option Block}
    (h : newBlock malloc size = some ob) : (malloc (blockTotal size)).isSome = ob.isSome := by
  simp only [newBlock] at h
  split at h
  · next hnull => cases h; simp [hnull]
  · next raw hraw =>
    split at h <;> cases h
    simp [hraw]

/-- A request loses blocks exactly when it gets a new block in front of others. -/
theorem alloc_lost {z z' : Zipper} {malloc : Malloc} {size align : UInt64} {r : AllocResult}
    (h : z.alloc malloc size align = some (r, z')) :
    z'.lost = [] ↔ z.lost = [] ∧ z.KeepsTail malloc size (effectiveAlign align) := by
  unfold Zipper.alloc at h
  cases hz : z.place size (effectiveAlign align) with
  | current p b =>
    simp only [hz, Option.some.injEq, Zipper.take, Prod.mk.injEq] at h
    obtain ⟨_, rfl⟩ := h
    simp [Zipper.KeepsTail, hz]
  | next p b =>
    obtain ⟨rest, hafter, _⟩ := Zipper.place_eq_next hz
    simp only [hz, Option.some.injEq, Zipper.take, Zipper.forward, hafter, Prod.mk.injEq] at h
    obtain ⟨_, rfl⟩ := h
    simp [Zipper.KeepsTail, hz]
  | grow cur tried =>
    obtain rfl := Zipper.place_eq_grow hz
    simp only [hz] at h
    rw [Zipper.keepsTail_grow hz]
    rcases Zipper.grow_cases h with ⟨hw, _, rfl⟩ | ⟨wanted, hw, ⟨hb, _, rfl⟩ | ⟨b, hb, htake⟩⟩
    · simp [hw]
    · simp [hw, newBlock_isSome hb]
    · obtain rfl : z' = ((z.insert b).take (alignForward 0 (effectiveAlign align)) size).2 :=
        congrArg Prod.snd htake
      simp [hw, newBlock_isSome hb, Zipper.take, Zipper.insert]

theorem alloc_complete {z z' : Zipper} {malloc : Malloc} {size align : UInt64} {r : AllocResult}
    (hc : z.Complete) (h : z.alloc malloc size align = some (r, z')) : z'.Complete := by
  rcases Zipper.alloc_cases h with ⟨_, _, rfl⟩ | ⟨z₁, offset, hopen, htake⟩
  · exact hc
  · obtain ⟨_, rfl⟩ := Prod.mk.inj htake
    have htaken : ptrs (z₁.take offset size).2.all = ptrs z₁.all := by
      simp [Zipper.take, Zipper.all, Zipper.chain]
    have hopened : z₁.Complete := by
      cases hopen with
      | current => exact hc
      | next hafter =>
        intro p hp
        simp only [Zipper.forward, hafter] at hp ⊢
        simpa [Zipper.all, Zipper.chain, hafter] using hc p hp
      | new =>
        intro p hp
        rcases Nat.lt_succ_iff_lt_or_eq.mp hp with hlt | rfl
        · have := hc p hlt
          simp only [Zipper.all, Zipper.chain, Zipper.insert, ptrs_append, ptrs_cons, ptrs_nil,
            List.mem_append, List.mem_cons] at this ⊢
          grind
        · simp [Zipper.all, Zipper.chain, Zipper.insert]
    exact fun p hp => htaken ▸ hopened p hp

theorem reset_complete {z : Zipper} (hc : z.Complete) : z.reset.Complete := by
  intro p hp
  rw [Zipper.reset_fresh] at hp
  have hptrs : ptrs z.reset.all = ptrs z.all := by
    rw [Zipper.all, Zipper.reset_chain, Zipper.reset_lost, Zipper.all]
    simp [ptrs, Function.comp_def]
  exact hptrs ▸ hc p hp

/-! ## Every run -/

theorem keepsTail_iff {a : Arena} {z : Zipper} (hr : Repr a z) {size align : UInt64}
    {malloc : Malloc} {r : AllocResult} :
    (Call.alloc size align malloc r).KeepsTail a ↔
      z.KeepsTail malloc size (effectiveAlign align) := by
  have hcell := hr.cur_cell
  simp only [Call.KeepsTail, Zipper.KeepsTail, place_refines hr, hr.strategy, hr.initialSize,
    Option.some.injEq]
  constructor
  · intro h tried wanted hplace hwanted hsome
    simpa using h z.cur.1 tried wanted _ hplace hwanted hsome hcell
  · intro h cur tried wanted c hplace hwanted hsome hc
    obtain rfl := Zipper.place_eq_grow hplace
    rw [hcell] at hc
    cases hc
    simp [h tried wanted hplace hwanted hsome]

/-- A run loses blocks exactly when one of its requests cuts a tail off. -/
theorem run_lost {a₀ a : Arena} {z₀ : Zipper} {h : List (Taken Arena Call)} (hr₀ : Repr a₀ z₀)
    (hc₀ : z₀.Complete) (hlost₀ : z₀.lost = []) (hrun : Run Step a₀ h a) :
    ∃ z, Repr a z ∧ z.Complete ∧ (z.lost = [] ↔ ∀ t ∈ h, t.label.KeepsTail t.pre) := by
  induction hrun with
  | nil => exact ⟨z₀, hr₀, hc₀, by simp [hlost₀]⟩
  | @snoc h a a' c _ hs ih =>
    obtain ⟨z, hr, hc, hlost⟩ := ih
    simp only [List.forall_mem_append, List.forall_mem_singleton, ← hlost]
    cases hs with
    | alloc _ hcall =>
      obtain ⟨⟨_, z'⟩, hz, rfl, hr'⟩ := (hcall ▸ alloc_refines hr _ _ _).left
      exact ⟨z', hr', alloc_complete hc hz, by rw [alloc_lost hz, keepsTail_iff hr]⟩
    | reset hcall =>
      obtain ⟨a'', hreset, hr'⟩ := reset_refines hr
      rw [hcall] at hreset
      cases hreset
      exact ⟨_, hr', reset_complete hc, by simp [Call.KeepsTail]⟩

/-- Nothing is lost exactly when the blocks are kept. -/
theorem kept_iff_lost {a : Arena} {z : Zipper} (hr : Repr a z) (hc : z.Complete) :
    Kept a ↔ z.lost = [] := by
  constructor
  · intro hk
    have hnd := hr.contents.nodup
    rw [Zipper.all, ptrs_append, List.nodup_append] at hnd
    by_contra hne
    obtain ⟨x, hx⟩ := List.exists_mem_of_ne_nil _ hne
    have hxl : x.1 ∈ ptrs z.lost := mem_ptrs.mpr ⟨x.2, hx⟩
    obtain ⟨r, hcell⟩ := (hr.contents.cell x.1 x.2).mpr (List.mem_append_right _ hx)
    have hreach := hk.reachable x.1 (a.blocks.lt_brk hcell)
    rw [hr.toList] at hreach
    exact hnd.2.2 x.1 hreach x.1 hxl rfl
  · intro hlost
    have hall : z.all = z.chain := by rw [Zipper.all, hlost, List.append_nil]
    have hcontents := hr.contents
    rw [hall] at hcontents
    refine ⟨fun p hp => ?_, ?_, ?_, fun mem => ?_⟩
    · rw [hr.toList, ← hall]
      exact hc p (hr.brk ▸ hp)
    · rw [hr.toList]
      exact hcontents.nodup
    · obtain ⟨h', hfree, hagree, hgone⟩ := freeAll_chain hr.chain
      refine ⟨{ a with head := none, current := none, blocks := h' }, by simp [arenaDestroy, hfree],
        fun p => ?_⟩
      by_cases hp : p ∈ ptrs z.chain
      · exact hgone p hp
      · rw [hcontents.mem_ptrs_iff] at hp
        simpa [hagree.cell p (hcontents.mem_ptrs_iff.not.mpr hp)] using hp
    · simp only [arenaCheckHealth, find_chain hr.chain, Option.bind_eq_bind, Option.bind_some,
        Option.pure_def, Option.some.injEq, Option.isNone_map, Option.isNone_iff_eq_none,
        List.find?_eq_none]
      constructor
      · intro hall p c hcell
        simpa using hall (p, c.val) ((hcontents.cell p c.val).mp ⟨c.next, hcell⟩)
      · intro hall x hx
        obtain ⟨r, hcell⟩ := (hcontents.cell x.1 x.2).mpr hx
        simpa using hall x.1 _ hcell

/-- When an arena keeps its blocks. After a run on a created arena all blocks are kept if and only
if every request of the run that got a new block found no successor of the current block. -/
theorem arena_keeps_blocks {a₀ a : Arena} {malloc₀ : Malloc} {initial : UInt64}
    {strategy : Strategy} {h : List (Taken Arena Call)}
    (hcreate : arenaCreate malloc₀ initial strategy = some a₀) (hok : a₀.info = .ok)
    (hrun : Run Step a₀ h a) : Kept a ↔ ∀ t ∈ h, t.label.KeepsTail t.pre := by
  obtain ⟨b, _, hr₀⟩ := create_refines hcreate hok
  obtain ⟨z, hr, hc, hlost⟩ := run_lost hr₀ (fun p hp => by
    obtain rfl : p = 0 := Nat.lt_one_iff.mp hp
    simp [Zipper.all, Zipper.chain]) rfl hrun
  rw [← hlost]
  exact kept_iff_lost hr hc

/-- The step of a request that has an answer. -/
theorem Step.alloc_get {a : Arena} {m : Malloc} (size align : UInt64)
    (hm : MallocOk a.blocks m) (h : (arenaAlloc a m size align).isSome = true) :
    Step a (.alloc size align m ((arenaAlloc a m size align).get h).1)
      ((arenaAlloc a m size align).get h).2 :=
  .alloc hm (Option.some_get h).symm

/-- A `malloc` that has memory only for requests of `n` bytes. -/
def mallocOnly (n raw : UInt64) : Malloc := fun total => if total = n then some raw else none

theorem mallocOnly_ok {h : Heap Block} {n raw : UInt64} (hspace : raw.toNat + n.toNat < 2 ^ 64)
    (hapart : ∀ p < h.brk, ∀ c, h.cell p = some c →
      Extent.Apart ⟨raw.toNat, raw.toNat + n.toNat⟩ c.val.memory) :
    MallocOk h (mallocOnly n raw) := by
  intro total raw' hraw
  simp only [mallocOnly, Option.ite_none_right_eq_some, Option.some.injEq] at hraw
  obtain ⟨rfl, rfl⟩ := hraw
  exact ⟨hspace, fun p c hc => hapart p (h.lt_brk hc) c hc⟩

theorem mallocOnly_one {h : Heap Block} {n raw : UInt64} {c : Cell Block}
    (hspace : raw.toNat + n.toNat < 2 ^ 64) (hbrk : h.brk = 1) (hcell : h.cell 0 = some c)
    (hapart : Extent.Apart ⟨raw.toNat, raw.toNat + n.toNat⟩ c.val.memory) :
    MallocOk h (mallocOnly n raw) := by
  refine mallocOnly_ok hspace fun p hp d hd => ?_
  obtain rfl : p = 0 := Nat.lt_one_iff.mp (hbrk ▸ hp)
  obtain rfl : d = c := Option.some.inj (hd.symm.trans hcell)
  exact hapart

/-- An arena with blocks of 16 bytes grows, is reset, and fills both blocks again: both are kept. -/
theorem arena_keeps_blocks_reset :
    ∃ a : Arena, a.chain.map (·.2.used) = [16, 16] ∧ a.blocks.brk = 2 ∧ Kept a := by
  have hstart : Run Step ((arenaCreate (mallocOnly 80 4096) 16 .linear).get rfl) [] _ := .nil
  have hone := hstart.snoc (.alloc_get 16 0 (.null _) (by decide +kernel))
  have htwo := hone.snoc (.alloc_get 16 0 (m := mallocOnly 88 8192)
    (mallocOnly_one (by decide) rfl rfl (.inr (by decide))) (by decide +kernel))
  have hthree := htwo.snoc (.reset (Option.some_get (by decide +kernel)).symm)
  have hfour := hthree.snoc (.alloc_get 16 0 (.null _) (by decide +kernel))
  have hrun := hfour.snoc (.alloc_get 16 0 (.null _) (by decide +kernel))
  refine ⟨_, ?_, ?_, (arena_keeps_blocks (Option.some_get _).symm rfl hrun).mpr fun t ht => ?_⟩
  · decide +kernel
  · decide +kernel
  · simp only [List.nil_append, List.cons_append, List.mem_cons, List.not_mem_nil, or_false] at ht
    rcases ht with rfl | rfl | rfl | rfl | rfl
    · intro cur tried wanted c hplace
      cases hplace
    · intro cur tried wanted c hplace _ _ hcell
      cases hplace
      cases hcell
      rfl
    · trivial
    · intro cur tried wanted c hplace
      cases hplace
    · intro cur tried wanted c hplace
      cases hplace

/-- An arena loses a block. A linear arena with blocks of 16 bytes grows by a block for the second
request. After a reset, the first request uses the first block again, and the second is too large
for the other one: a new block takes its place in the chain. -/
theorem tail_of_chain_lost :
    ¬ ∀ (malloc₀ : Malloc) (initial : UInt64) (strategy : Strategy) (a₀ a : Arena)
      (h : List (Taken Arena Call)), MallocOk .empty malloc₀ →
      arenaCreate malloc₀ initial strategy = some a₀ → a₀.info = .ok → Run Step a₀ h a →
      (∀ t ∈ h, t.label.Fits t.pre) → ∀ p < a.blocks.brk, p ∈ ptrs a.chain := by
  intro hall
  have hstart : Run Step ((arenaCreate (mallocOnly 80 4096) 16 .linear).get rfl) [] _ := .nil
  have hone := hstart.snoc (.alloc_get 16 0 (.null _) (by decide +kernel))
  have htwo := hone.snoc (.alloc_get 16 0 (m := mallocOnly 88 8192)
    (mallocOnly_one (by decide) rfl rfl (.inr (by decide))) (by decide +kernel))
  have hthree := htwo.snoc (.reset (Option.some_get (by decide +kernel)).symm)
  have hfour := hthree.snoc (.alloc_get 16 0 (.null _) (by decide +kernel))
  have hrun := hfour.snoc (.alloc_get 64 0 (m := mallocOnly 136 16384)
    (mallocOnly_ok (by decide) fun p hp c hc => by
      have hlt : p < 2 := hp
      interval_cases p
      · cases hc
        exact .inr (by decide)
      · cases hc
        exact .inr (by decide)) (by decide +kernel))
  have hlost := hall (mallocOnly 80 4096) 16 .linear _ _ _ ?_ (Option.some_get _).symm rfl hrun ?_ 1
    (by decide)
  · revert hlost
    decide
  · exact mallocOnly_ok (by decide) fun p _ c hc => nomatch hc
  · intro t ht
    simp only [List.nil_append, List.cons_append, List.mem_cons, List.not_mem_nil, or_false] at ht
    rcases ht with rfl | rfl | rfl | rfl | rfl
    · refine ⟨.inl rfl, fun cur c hcur hcell => ?_, fun cur tried wanted hplace _ => ?_⟩
      · cases hcur; cases hcell; decide
      · cases hplace
    · refine ⟨.inl rfl, fun cur c hcur hcell => ?_, fun cur tried wanted hplace hwanted => ?_⟩
      · cases hcur; cases hcell; decide
      · cases hplace; cases hwanted; decide
    · trivial
    · refine ⟨.inl rfl, fun cur c hcur hcell => ?_, fun cur tried wanted hplace _ => ?_⟩
      · cases hcur; cases hcell; decide
      · cases hplace
    · refine ⟨.inl rfl, fun cur c hcur hcell => ?_, fun cur tried wanted hplace hwanted => ?_⟩
      · cases hcur; cases hcell; decide
      · cases hplace; cases hwanted; decide

end CBase.Arena
