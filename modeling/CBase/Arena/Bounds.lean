import CBase.Arena.Regions
import CBase.Arena.Retention

/-!
# Requests that no block has room for

The sums of `cb_arena_alloc` wrap, so a request can pass a test that it fails in the integers. Then
it is granted a region that its block has no room for, and the offset of the block goes back.

* `Bounded`: a request is granted within the size of its block, or refused with no change at all.
* `Unwrapped`: no sum that decides the request wraps.
* `bounded_iff_unwrapped`: in every state of every run, the second is when the first holds.
* `huge_request_granted`: a request of `SIZE_MAX` bytes that is granted.
-/

namespace CBase.Arena

open LinkedHeap

/-- What a block had handed out before a call. A block that did not exist had handed out nothing. -/
def usedBefore (a : Arena) (p : Ptr) : Nat := (a.blocks.cell p).elim 0 (·.val.used.toNat)

/-- No block has handed out less than before. -/
def Grows (a a' : Arena) : Prop :=
  ∀ p c, a.blocks.cell p = some c → ∃ c', a'.blocks.cell p = some c' ∧ c.val.used ≤ c'.val.used

/-- The answer to a granted request. The region starts at the aligned offset in its block and ends
within the block, both computed in the integers, and no block has handed out less than before. -/
structure Granted (a a' : Arena) (r : AllocResult) (size align : UInt64) : Prop where
  inside : ∃ p c, a'.current = some p ∧ a'.blocks.cell p = some c ∧
    r.ptr = some (c.val.data + .ofNat (Align.roundUp (usedBefore a p) align.toNat)) ∧
    Align.roundUp (usedBefore a p) align.toNat + size.toNat ≤ c.val.size.toNat
  grows : Grows a a'

/-- A request has an answer: it is granted, or it fails and changes nothing. -/
def Bounded (a : Arena) (malloc : Malloc) (size align : UInt64) : Prop :=
  ∃ r a', arenaAlloc a malloc size align = some (r, a') ∧
    (r.info = .ok → Granted a a' r size align) ∧ (r.info ≠ .ok → r.ptr = none ∧ a' = a)

/-- A request that the current block seems to have room for ends below `2 ^ 64`. One for which
`malloc` returns a new block is not larger than the block, and the total with header and guards is
below `2 ^ 64`. -/
structure Unwrapped (a : Arena) (malloc : Malloc) (size align : UInt64) : Prop where
  current : ∀ p b, place a size align = some (.current p b) →
    Align.roundUp b.used.toNat align.toNat + size.toNat < 2 ^ 64
  grow : ∀ cur tried wanted, place a size align = some (.grow cur tried) →
    wantedSize a.strategy a.initialSize tried.size = some wanted →
    (malloc (blockTotal (newBlockSize wanted size align))).isSome = true →
    (size.toNat + align.toNat < 2 ^ 64 ∨ size ≤ wanted) ∧
    headerSize.toNat + guardSize.toNat + (newBlockSize wanted size align).toNat +
      guardSize.toNat < 2 ^ 64

/-! ## On lists -/

/-- The blocks behind the current one have handed out nothing. -/
def Zipper.Unused (z : Zipper) : Prop := ∀ x ∈ z.after, x.2.used = 0

/-- The same on lists. -/
def Zipper.Grows (z z' : Zipper) : Prop :=
  ∀ x ∈ z.all, ∃ x' ∈ z'.all, x'.1 = x.1 ∧ x.2.used ≤ x'.2.used

section

variable {z z₁ z' : Zipper} {malloc : Malloc} {size align offset : UInt64} {r : AllocResult}

theorem newBlock_used {b : Block} (h : newBlock malloc size = some (some b)) :
    b.size = size ∧ b.used = 0 :=
  let ⟨hsize, hused, _⟩ := newBlock_spec h
  ⟨hsize, hused⟩

/-- The offset in the block that a request opens comes from what the block has handed out. -/
theorem Zipper.Opened.offset_eq (hopen : Zipper.Opened z malloc size align z₁ offset)
    (hunused : z.Unused) : offset = alignForward z₁.cur.2.used align := by
  cases hopen with
  | current => rfl
  | next hafter =>
    rw [show (z.forward).cur.2.used = 0 by
      simpa [Zipper.forward, hafter] using hunused _ (hafter ▸ List.mem_cons_self)]
  | new _ _ hnew => rw [show (z.insert _).cur.2.used = 0 from (newBlock_used hnew).2]

/-- Opening a block loses none. -/
theorem Zipper.Opened.all_subset (hopen : Zipper.Opened z malloc size align z₁ offset) :
    z.all ⊆ z₁.all := by
  cases hopen with
  | current => exact List.Subset.refl _
  | next hafter =>
    rw [Zipper.forward_all hafter]
    exact List.Subset.refl _
  | @new _ b => exact fun x hx => (z.insert_all b).mem_iff.mp (List.mem_cons_of_mem _ hx)

theorem Zipper.Opened.unused (hopen : Zipper.Opened z malloc size align z₁ offset)
    (hunused : z.Unused) : z₁.Unused := by
  cases hopen with
  | current => exact hunused
  | next hafter =>
    intro x hx
    simp only [Zipper.forward, hafter] at hx
    exact hunused x (hafter ▸ List.mem_cons_of_mem _ hx)
  | new => exact fun x hx => absurd hx List.not_mem_nil

theorem alloc_unused (hunused : z.Unused) (h : z.alloc malloc size align = some (r, z')) :
    z'.Unused := by
  rcases Zipper.alloc_cases h with ⟨_, _, rfl⟩ | ⟨z₁, offset, hopen, htake⟩
  · exact hunused
  · obtain ⟨_, rfl⟩ := Prod.mk.inj htake
    exact hopen.unused hunused

/-- Handing out a region that ends within the block. -/
theorem take_grows (hoffset : offset = alignForward z.cur.2.used align)
    (ha : Align.PowerOfTwo align)
    (hfits : Align.roundUp z.cur.2.used.toNat align.toNat + size.toNat ≤ z.cur.2.size.toNat) :
    Zipper.Grows z (z.take offset size).2 := by
  have hlt := z.cur.2.size.toNat_lt
  have hle := Align.le_roundUp ha.pos z.cur.2.used.toNat
  have hbumped : z.cur.2.used ≤ (z.cur.2.bumped offset size).used := by
    rw [UInt64.le_iff_toNat_le, Block.bumped, UInt64.toNat_add, hoffset, alignForward,
      Align.toNat_up_mod ha, Nat.mod_add_mod, Nat.mod_eq_of_lt (by omega)]
    omega
  intro x hx
  simp only [Zipper.all_eq, Zipper.take, List.mem_append, List.mem_cons] at hx ⊢
  rcases hx with hx | rfl | hx
  · exact ⟨x, .inl hx, rfl, UInt64.le_refl _⟩
  · exact ⟨_, .inr (.inl rfl), rfl, hbumped⟩
  · exact ⟨x, .inr (.inr hx), rfl, UInt64.le_refl _⟩

/-- The block that a request opens, before the request. -/
theorem usedBefore_eq {a : Arena} (hr : Repr a z)
    (hopen : Zipper.Opened z malloc size align z₁ offset) :
    usedBefore a z₁.cur.1 = z₁.cur.2.used.toNat := by
  cases hopen with
  | current => rw [usedBefore, hr.cur_cell, Option.elim_some]
  | @next x rest hafter =>
    have hcur : z.forward.cur = x := by simp [Zipper.forward, hafter]
    obtain ⟨q, hcell⟩ := (hr.contents.cell x.1 x.2).mpr (by simp [Zipper.all, Zipper.chain, hafter])
    rw [hcur, usedBefore, hcell, Option.elim_some]
  | @new tried b wanted _ _ hnew =>
    have hnone : a.blocks.cell z.fresh = none := by
      cases hcell : a.blocks.cell z.fresh with
      | none => rfl
      | some c => exact absurd (a.blocks.lt_brk hcell) (by rw [hr.brk]; exact Nat.lt_irrefl _)
    have hcur : (z.insert b).cur = (z.fresh, b) := rfl
    rw [hcur, usedBefore, hnone, (newBlock_used hnew).2]
    rfl

/-- A grant is within the block exactly when the sum in the integers is. -/
theorem granted_iff {a a' : Arena} (hr : Repr a z) (hr' : Repr a' (z₁.take offset size).2)
    (hunused : z.Unused) (ha : Align.PowerOfTwo align)
    (hopen : Zipper.Opened z malloc size align z₁ offset) :
    Granted a a' (z₁.take offset size).1 size align ↔
      Align.roundUp z₁.cur.2.used.toNat align.toNat + size.toNat ≤ z₁.cur.2.size.toNat := by
  have hused := usedBefore_eq hr hopen
  have hoffset := hopen.offset_eq hunused
  have hcell := hr'.cur_cell
  have hcurrent := hr'.current
  constructor
  · rintro ⟨⟨p, c, hp, hc, -, hfits⟩, -⟩
    obtain rfl : (z₁.take offset size).2.cur.1 = p := Option.some.inj (hcurrent.symm.trans hp)
    obtain rfl := Option.some.inj (hcell.symm.trans hc)
    rwa [show (z₁.take offset size).2.cur.1 = z₁.cur.1 from rfl, hused] at hfits
  · intro hfits
    refine ⟨⟨z₁.cur.1, _, hcurrent, hcell, ?_, by rwa [hused]⟩, fun p c hc => ?_⟩
    · have hptr : UInt64.ofNat (Align.roundUp z₁.cur.2.used.toNat align.toNat) = offset := by
        refine UInt64.toNat_inj.mp ?_
        rw [hoffset, alignForward, Align.toNat_up_mod ha, UInt64.toNat_ofNat']
      rw [hused, hptr]
      rfl
    · have hmem : (p, c.val) ∈ z.all := (hr.contents.cell p c.val).mp ⟨c.next, hc⟩
      obtain ⟨x', hx', hp, hle⟩ := take_grows hoffset ha hfits _ (hopen.all_subset hmem)
      obtain ⟨q, hcell'⟩ := (hr'.contents.cell x'.1 x'.2).mpr hx'
      exact ⟨_, hp ▸ hcell', hle⟩

end

/-! ## One request -/

section

variable {a : Arena} {z : Zipper} {malloc : Malloc} {size align : UInt64}

/-- A request that the test accepts ends within the block exactly when its end does not wrap. -/
theorem fits_iff {b : Block} (ha : Align.PowerOfTwo align)
    (hfits : b.fits (alignForward b.used align) size = true) :
    Align.roundUp b.used.toNat align.toNat + size.toNat ≤ b.size.toNat ↔
      Align.roundUp b.used.toNat align.toNat + size.toNat < 2 ^ 64 := by
  rw [Block.fits, decide_eq_true_eq, UInt64.le_iff_toNat_le, UInt64.toNat_add, alignForward,
    Align.toNat_up_mod ha, Nat.mod_add_mod] at hfits
  constructor
  · exact fun hle => Nat.lt_of_le_of_lt hle b.size.toNat_lt
  · intro hlt
    rwa [Nat.mod_eq_of_lt hlt] at hfits

/-- When a new block is large enough. -/
theorem le_newBlockSize_iff {wanted : UInt64} (ha : Align.PowerOfTwo align) :
    size.toNat ≤ (newBlockSize wanted size align).toNat ↔
      size.toNat + align.toNat < 2 ^ 64 ∨ size ≤ wanted := by
  have hpos := ha.pos
  have hsize := size.toNat_lt
  have halign := align.toNat_lt
  have hadd := UInt64.toNat_add size align
  rw [UInt64.le_iff_toNat_le, newBlockSize]
  split
  · next hlt =>
    rw [UInt64.lt_iff_toNat_lt] at hlt
    omega
  · next hle =>
    rw [UInt64.lt_iff_toNat_lt] at hle
    omega

/-- A block that `malloc` returns memory for is written inside it when its total does not wrap. -/
theorem newBlock_of_some {raw : UInt64} (hraw : malloc (blockTotal size) = some raw) :
    newBlock malloc size =
      if headerSize.toNat + guardSize.toNat + size.toNat + guardSize.toNat < 2 ^ 64 then
        some (some ⟨size, 0, raw + headerSize + guardSize⟩)
      else none := by
  have hheader : headerSize.toNat = 32 := rfl
  have hguard : guardSize.toNat = 16 := rfl
  have hsize := size.toNat_lt
  simp only [newBlock, hraw]
  refine if_congr ?_ rfl rfl
  simp only [blockTotal, UInt64.toNat_add, hheader, hguard]
  omega

/-- What a request on the lists says about `Bounded`. -/
theorem bounded_of_alloc {r : AllocResult} {z' : Zipper} (hr : Repr a z)
    (h : z.alloc malloc size align = some (r, z')) :
    ∃ a', Repr a' z' ∧ (Bounded a malloc size align ↔
      ((r.info = .ok → Granted a a' r size align) ∧ (r.info ≠ .ok → r.ptr = none ∧ a' = a))) := by
  obtain ⟨⟨r', a'⟩, halloc, rfl, hr'⟩ := (h ▸ alloc_refines hr malloc size align).right
  refine ⟨a', hr', fun ⟨r, a₂, h₂, hgrant, hfail⟩ => ?_, fun hres => ⟨_, _, halloc, hres⟩⟩
  obtain ⟨rfl, rfl⟩ := Prod.mk.inj (Option.some.inj (halloc.symm.trans h₂))
  exact ⟨hgrant, hfail⟩

theorem bounded_of_opened {z₁ : Zipper} {offset : UInt64} (hr : Repr a z) (hunused : z.Unused)
    (ha : Align.PowerOfTwo align) (hopen : Zipper.Opened z malloc size align z₁ offset)
    (h : z.alloc malloc size align = some (z₁.take offset size)) :
    Bounded a malloc size align ↔
      Align.roundUp z₁.cur.2.used.toNat align.toNat + size.toNat ≤ z₁.cur.2.size.toNat := by
  obtain ⟨a', hr', hbounded⟩ := bounded_of_alloc hr h
  rw [hbounded, ← granted_iff hr hr' hunused ha hopen]
  exact ⟨fun h => h.1 rfl, fun h => ⟨fun _ => h, fun hne => absurd rfl hne⟩⟩

theorem bounded_of_failed {r : AllocResult} (hr : Repr a z) (hok : r.info ≠ .ok)
    (h : z.alloc malloc size align = some (r, z)) : Bounded a malloc size align := by
  obtain ⟨⟨r', a'⟩, halloc, rfl, -⟩ := (h ▸ alloc_refines hr malloc size align).right
  rcases alloc_answer halloc with ⟨hok', _⟩ | ⟨_, hptr, rfl⟩
  · exact absurd hok' hok
  · exact ⟨_, _, halloc, fun h => absurd h hok, fun _ => ⟨hptr, rfl⟩⟩

theorem unwrapped_current {p : Ptr} {b : Block} (hplace : place a size align = some (.current p b)) :
    Unwrapped a malloc size align ↔
      Align.roundUp b.used.toNat align.toNat + size.toNat < 2 ^ 64 := by
  refine ⟨fun h => h.current _ _ hplace, fun hlt => ⟨fun q c hp => ?_, fun _ _ _ hp => ?_⟩⟩
  · rw [hplace] at hp
    cases hp
    exact hlt
  · rw [hplace] at hp
    cases hp

/-- The next block is unused, so nothing wraps there. -/
theorem unwrapped_next {p : Ptr} {b : Block} (hplace : place a size align = some (.next p b)) :
    Unwrapped a malloc size align := by
  refine ⟨fun _ _ hp => ?_, fun _ _ _ hp => ?_⟩
  · rw [hplace] at hp
    cases hp
  · rw [hplace] at hp
    cases hp

theorem unwrapped_grow {cur : Ptr} {tried : Block}
    (hplace : place a size align = some (.grow cur tried)) :
    Unwrapped a malloc size align ↔
      ∀ wanted, wantedSize a.strategy a.initialSize tried.size = some wanted →
        (malloc (blockTotal (newBlockSize wanted size align))).isSome = true →
        (size.toNat + align.toNat < 2 ^ 64 ∨ size ≤ wanted) ∧
        headerSize.toNat + guardSize.toNat + (newBlockSize wanted size align).toNat +
          guardSize.toNat < 2 ^ 64 := by
  refine ⟨fun h wanted => h.grow _ _ _ hplace, fun h => ⟨fun _ _ hp => ?_, fun _ _ wanted hp => ?_⟩⟩
  · rw [hplace] at hp
    cases hp
  · rw [hplace] at hp
    cases hp
    exact h wanted

/-- A request that fits neither in the current block nor in the next one. -/
theorem bounded_grow_iff {tried : Block} (hr : Repr a z) (hunused : z.Unused)
    (ha : Align.PowerOfTwo align) (hz : z.place size align = .grow z.cur.1 tried) :
    Bounded a malloc size align ↔ Unwrapped a malloc size align := by
  have hplace : place a size align = some (.grow z.cur.1 tried) := by rw [place_refines hr, hz]
  have halloc : z.alloc malloc size align = z.grow malloc size align tried.size := by
    simp only [Zipper.alloc, effectiveAlign_eq ha, hz]
  rw [unwrapped_grow hplace, hr.strategy, hr.initialSize]
  cases hw : wantedSize z.strategy z.initialSize tried.size with
  | none =>
    refine iff_of_true (bounded_of_failed (r := ⟨.arenaOutOfMemory, none⟩) hr (by simp) ?_)
      fun wanted hwanted => nomatch hwanted
    simp [halloc, Zipper.grow, hw]
  | some wanted =>
    simp only [Option.some.injEq, forall_eq']
    cases hraw : malloc (blockTotal (newBlockSize wanted size align)) with
    | none =>
      refine iff_of_true (bounded_of_failed (r := ⟨.allocFailed, none⟩) hr (by simp) ?_)
        fun h => absurd h (by simp)
      simp [halloc, Zipper.grow, hw, newBlock, hraw]
    | some raw =>
      have hnew := newBlock_of_some hraw
      by_cases htotal : headerSize.toNat + guardSize.toNat +
          (newBlockSize wanted size align).toNat + guardSize.toNat < 2 ^ 64
      · rw [if_pos htotal] at hnew
        have htake : z.alloc malloc size align =
            some ((z.insert ⟨newBlockSize wanted size align, 0, raw + headerSize + guardSize⟩).take
              (alignForward 0 align) size) := by
          simp [halloc, Zipper.grow, hw, hnew]
        rw [bounded_of_opened hr hunused ha (.new hz hw hnew) htake]
        change Align.roundUp 0 align.toNat + size.toNat ≤ (newBlockSize wanted size align).toNat ↔ _
        rw [Align.roundUp_zero ha.pos, Nat.zero_add, le_newBlockSize_iff ha]
        exact ⟨fun h _ => ⟨h, htotal⟩, fun h => (h rfl).1⟩
      · rw [if_neg htotal] at hnew
        have hnone : z.alloc malloc size align = none := by simp [halloc, Zipper.grow, hw, hnew]
        refine iff_of_false ?_ fun h => htotal (h rfl).2
        rintro ⟨r, a', hcall, -⟩
        obtain ⟨y, hy, -⟩ := (hcall ▸ alloc_refines hr malloc size align).left
        rw [hnone] at hy
        cases hy

/-- A request is decided in the integers exactly when no sum that decides it wraps. -/
theorem bounded_iff (hr : Repr a z) (hunused : z.Unused) (ha : Align.PowerOfTwo align) :
    Bounded a malloc size align ↔ Unwrapped a malloc size align := by
  have hplace := place_refines hr size align
  cases hz : z.place size align with
  | current p b =>
    obtain ⟨rfl, rfl, hfits⟩ := Zipper.place_eq_current hz
    rw [hz] at hplace
    have halloc : z.alloc malloc size align =
        some (z.take (alignForward z.cur.2.used align) size) := by
      simp only [Zipper.alloc, effectiveAlign_eq ha, hz]
    rw [bounded_of_opened hr hunused ha (.current hfits) halloc, fits_iff ha hfits,
      unwrapped_current hplace]
  | next p b =>
    obtain ⟨rest, hafter, hfits⟩ := Zipper.place_eq_next hz
    rw [hz] at hplace
    have halloc : z.alloc malloc size align =
        some (z.forward.take (alignForward 0 align) size) := by
      simp only [Zipper.alloc, effectiveAlign_eq ha, hz]
    have hcur : z.forward.cur = (p, b) := by simp [Zipper.forward, hafter]
    have hused : b.used = 0 := hunused (p, b) (hafter ▸ List.mem_cons_self)
    rw [bounded_of_opened hr hunused ha (.next hafter hfits) halloc, hcur, hused,
      UInt64.toNat_zero, Align.roundUp_zero ha.pos, Nat.zero_add]
    exact iff_of_true ((fits_zero ha).mp hfits) (unwrapped_next hplace)
  | grow cur tried =>
    obtain rfl := Zipper.place_eq_grow hz
    exact bounded_grow_iff hr hunused ha hz

end

/-! ## Every run -/

/-- A request with a power of two that meets the condition. -/
def Call.Unwrapped (a : Arena) : Call → Prop
  | .alloc size align malloc _ => Align.PowerOfTwo align ∧ Arena.Unwrapped a malloc size align
  | .reset => False

theorem Grows.refl (a : Arena) : Grows a a := fun _ c hc => ⟨c, hc, UInt64.le_refl _⟩

theorem Grows.trans {a b c : Arena} (hab : Grows a b) (hbc : Grows b c) : Grows a c := by
  intro p x hx
  obtain ⟨y, hy, hxy⟩ := hab p x hx
  obtain ⟨w, hw, hyw⟩ := hbc p y hy
  exact ⟨w, hw, UInt64.le_trans hxy hyw⟩

/-- The blocks behind the current one are unused in every state of a run. -/
theorem step_unused {a a' : Arena} {c : Call} (h : ∃ z, Repr a z ∧ z.Unused) (hs : Step a c a') :
    ∃ z, Repr a' z ∧ z.Unused := by
  obtain ⟨z, hr, hunused⟩ := h
  cases hs with
  | alloc _ hcall =>
    obtain ⟨⟨_, z'⟩, hz, _, hr'⟩ := (hcall ▸ alloc_refines hr _ _ _).left
    exact ⟨z', hr', alloc_unused hunused hz⟩
  | reset hcall =>
    obtain ⟨a'', hreset, hr'⟩ := reset_refines hr
    rw [hcall] at hreset
    cases hreset
    exact ⟨_, hr', z.reset_unused⟩

theorem create_unused {a : Arena} {malloc : Malloc} {size : UInt64} {strategy : Strategy}
    (h : arenaCreate malloc size strategy = some a) (hok : a.info = .ok) :
    ∃ z, Repr a z ∧ z.Unused := by
  obtain ⟨b, _, hr⟩ := create_refines h hok
  exact ⟨_, hr, fun x hx => absurd hx List.not_mem_nil⟩

/-- A request that meets the condition takes nothing back. -/
theorem step_grows {a a' : Arena} {c : Call} (h : ∃ z, Repr a z ∧ z.Unused) (hs : Step a c a')
    (hc : c.Unwrapped a) : Grows a a' := by
  obtain ⟨z, hr, hunused⟩ := h
  cases hs with
  | @alloc _ _ _ r _ _ hcall =>
    obtain ⟨r', a₁, hcall', hgrant, hfail⟩ := (bounded_iff hr hunused hc.1).mpr hc.2
    obtain ⟨rfl, rfl⟩ := Prod.mk.inj (Option.some.inj (hcall.symm.trans hcall'))
    rcases Decidable.em (r.info = .ok) with hok | hok
    · exact (hgrant hok).grows
    · rw [(hfail hok).2]
      exact Grows.refl a
  | reset => exact hc.elim

/-- Which requests are decided in the integers. After every run on a created arena, a request is
granted within its block or refused without a change if and only if no sum that decides it wraps.
While a run has such requests only, no block takes anything back. -/
theorem bounded_iff_unwrapped {a₀ a : Arena} {malloc₀ : Malloc} {initial : UInt64}
    {strategy : Strategy} {h : List (Taken Arena Call)}
    (hcreate : arenaCreate malloc₀ initial strategy = some a₀) (hok : a₀.info = .ok)
    (hrun : Run Step a₀ h a) :
    (∀ malloc size align, Align.PowerOfTwo align →
      (Bounded a malloc size align ↔ Unwrapped a malloc size align)) ∧
    ∀ h' a', Run Step a h' a' → (∀ t ∈ h', t.label.Unwrapped t.pre) → Grows a a' := by
  have hstart := hrun.invariant _ (create_unused hcreate hok) fun _ _ _ => step_unused
  constructor
  · obtain ⟨z, hr, hunused⟩ := hstart
    exact fun malloc size align ha => bounded_iff hr hunused ha
  · intro h' a' hrun' hall
    induction hrun' with
    | nil => exact Grows.refl a
    | snoc hr hs ih =>
      have hmid := hr.invariant _ hstart fun _ _ _ => step_unused
      have hgrown := ih fun t ht => hall t (List.mem_append_left _ ht)
      exact hgrown.trans (step_grows hmid hs (hall _ (List.mem_append_right _ List.mem_cons_self)))

/-- An arena with blocks of 16 bytes has grown, was reset and has filled its first block again: a
request of 10 bytes is decided in the integers, by the block that was kept. -/
theorem bounded_iff_unwrapped_reset : ∃ a : Arena, a.chain.map (·.2.used) = [16, 0] ∧
    Bounded a (fun _ => none) 10 8 := by
  have hstart : Run Step ((arenaCreate (mallocOnly 80 4096) 16 .linear).get rfl) [] _ := .nil
  have hone := hstart.snoc (.alloc_get 16 0 (.null _) (by decide +kernel))
  have htwo := hone.snoc (.alloc_get 16 0 (m := mallocOnly 88 8192)
    (mallocOnly_one (by decide) rfl rfl (.inr (by decide))) (by decide +kernel))
  have hthree := htwo.snoc (.reset (Option.some_get (by decide +kernel)).symm)
  have hrun := hthree.snoc (.alloc_get 16 0 (.null _) (by decide +kernel))
  refine ⟨_, ?_, ((bounded_iff_unwrapped (Option.some_get _).symm rfl hrun).1 (fun _ => none) 10 8
    ⟨3, by decide, rfl⟩).mpr ⟨fun p b hp => ?_, fun cur tried wanted hp => ?_⟩⟩
  · decide +kernel
  · cases hp
  · cases hp

/-- A fixed arena of 64 bytes, 8 of them in use, grants a request of `2 ^ 64 - 4` bytes. -/
theorem huge_request_granted :
    ¬ ∀ (malloc₀ : Malloc) (initial : UInt64) (strategy : Strategy) (a₀ a : Arena)
      (h : List (Taken Arena Call)), MallocOk .empty malloc₀ →
      arenaCreate malloc₀ initial strategy = some a₀ → a₀.info = .ok → Run Step a₀ h a →
      ∀ malloc size align, MallocOk a.blocks malloc → Align.PowerOfTwo align →
        Bounded a malloc size align := by
  intro hall
  have hstart : Run Step ((arenaCreate (mallocOnly 128 4096) 64 .fixed).get rfl) [] _ := .nil
  have hone := hstart.snoc (.alloc_get 8 8 (.null _) (by decide +kernel))
  have hcreate : arenaCreate (mallocOnly 128 4096) 64 .fixed = some _ := (Option.some_get rfl).symm
  have ha : Align.PowerOfTwo 8 := ⟨3, by decide, rfl⟩
  have hbounded := hall (mallocOnly 128 4096) 64 .fixed _ _ _
    (mallocOnly_ok (by decide) fun p _ c hc => nomatch hc) hcreate rfl hone (fun _ => none)
    0xfffffffffffffffc 8 (.null _) ha
  obtain ⟨z, hr, hunused⟩ := hone.invariant _ (create_unused hcreate rfl) fun _ _ _ => step_unused
  have hlt := ((bounded_iff hr hunused ha).mp hbounded).current 0 ⟨64, 8, 4144⟩ (by decide +kernel)
  exact absurd hlt (by decide)

end CBase.Arena
