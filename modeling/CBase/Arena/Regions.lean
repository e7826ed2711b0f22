import CBase.Arena.Zipper

/-!
# Regions of an arena

Between two resets, every region that a successful request returned lies in the user data of one
block, and no two of them share an address.

* `Layout`: the blocks are apart, each has handed out no more than it has, and the blocks after the
  current one have handed out nothing. The last part is what makes the offset 0 of the next block
  free.
* `Placed`: the live regions lie in what the blocks up to the current one have handed out.
* `regions_never_overlap`: both hold after every run of requests whose sums fit.
-/

namespace CBase.Arena

open LinkedHeap

/-- The addresses of an answer to a request of `size` bytes. -/
def region (p size : UInt64) : Extent := ⟨p.toNat, p.toNat + size.toNat⟩

def Call.live (l : List Extent) : Call → List Extent
  | .alloc size _ _ ⟨.ok, some p⟩ => region p size :: l
  | .alloc .. => l
  | .reset => []

/-- The regions of all successful requests since the last reset, the newest first. -/
def live (h : List (Taken Arena Call)) : List Extent := h.foldl (fun l t => t.label.live l) []

@[simp] theorem live_snoc (h : List (Taken Arena Call)) (t : Taken Arena Call) :
    live (h ++ [t]) = t.label.live (live h) := by
  simp [live]

theorem live_error {l : List Extent} {size align : UInt64} {malloc : Malloc} {r : AllocResult}
    (hr : r.ptr = none) : (Call.alloc size align malloc r).live l = l := by
  obtain ⟨i, p⟩ := r
  obtain rfl : p = none := hr
  cases i <;> rfl

/-! ## Blocks -/

def Block.taken (b : Block) : Extent := ⟨b.data.toNat, b.data.toNat + b.used.toNat⟩

/-- A block whose memory is within the address space, and that has handed out no more than it
has. -/
structure Block.Sound (b : Block) : Prop where
  used_le : b.used.toNat ≤ b.size.toNat
  header : (headerSize + guardSize).toNat ≤ b.data.toNat
  bound : b.data.toNat + b.size.toNat + guardSize.toNat < 2 ^ 64

@[simp] theorem Block.bumped_memory (b : Block) (offset size : UInt64) :
    (b.bumped offset size).memory = b.memory := rfl

@[simp] theorem Block.cleared_memory (b : Block) : b.cleared.memory = b.memory := rfl

theorem Block.userData_within (b : Block) : b.userData.Within b.memory :=
  ⟨Nat.sub_le _ _, Nat.le_add_right _ _⟩

theorem Block.Sound.taken_within {b : Block} (hb : b.Sound) : b.taken.Within b.userData :=
  ⟨Nat.le_refl _, Nat.add_le_add_left hb.used_le _⟩

theorem Block.Sound.cleared {b : Block} (hb : b.Sound) : b.cleared.Sound :=
  ⟨Nat.zero_le _, hb.header, hb.bound⟩

/-- A new block is unused, and its memory is what `malloc` returned. -/
theorem newBlock_spec {malloc : Malloc} {size : UInt64} {b : Block}
    (h : newBlock malloc size = some (some b)) :
    b.size = size ∧ b.used = 0 ∧ ∃ raw, malloc (blockTotal size) = some raw ∧
      (raw.toNat + (blockTotal size).toNat < 2 ^ 64 → b.Sound ∧
        b.memory = ⟨raw.toNat, raw.toNat + (blockTotal size).toNat⟩) := by
  simp only [newBlock] at h
  split at h
  · cases h
  · next raw hraw =>
    split at h
    · next htotal =>
      cases h
      refine ⟨rfl, rfl, raw, hraw, fun hspace => ?_⟩
      have hheader : headerSize.toNat = 32 := rfl
      have hguard : guardSize.toNat = 16 := rfl
      have hsum : (headerSize + guardSize).toNat = 48 := rfl
      have hsize : (blockTotal size).toNat = 64 + size.toNat := by
        have hle : (blockTotal size).toNat ≤ 48 + size.toNat + 16 := by
          simp only [blockTotal, UInt64.toNat_add, hheader, hguard]
          omega
        omega
      have hdata : (raw + headerSize + guardSize).toNat = raw.toNat + 48 := by
        simp only [UInt64.toNat_add, hheader, hguard]
        omega
      refine ⟨⟨Nat.zero_le _, ?_, ?_⟩, ?_⟩
      · simp only [hdata, hsum]
        omega
      · simp only [hdata, hguard]
        omega
      · simp only [Block.memory, hdata, hsum, hguard, hsize, Extent.mk.injEq]
        omega
    · cases h

/-! ## The layout of the blocks -/

/-- The invariant of the blocks. -/
structure Layout (z : Zipper) : Prop where
  sound : ∀ x ∈ z.all, x.2.Sound
  apart : (z.all.map fun x => x.2.memory).Pairwise Extent.Apart
  unused : ∀ x ∈ z.after, x.2.used = 0

/-- Live regions lie in what the blocks up to the current one have handed out. -/
def Placed (z : Zipper) (l : List Extent) : Prop :=
  ∀ r ∈ l, ∃ x ∈ z.before ++ [z.cur], r.Within x.2.taken

/-- `malloc` returns memory apart from all the blocks. -/
def Zipper.MallocOk (z : Zipper) (malloc : Malloc) : Prop :=
  ∀ total raw, malloc total = some raw → raw.toNat + total.toNat < 2 ^ 64 ∧
    ∀ x ∈ z.all, Extent.Apart ⟨raw.toNat, raw.toNat + total.toNat⟩ x.2.memory

/-- The sums of a request that is served from a block, with the alignment not zero. -/
structure Zipper.SumsFit (z : Zipper) (size align : UInt64) : Prop where
  offset : z.cur.2.used.toNat + (align - 1).toNat < 2 ^ 64 ∧
    (alignForward z.cur.2.used align).toNat + size.toNat < 2 ^ 64
  grow : ∀ tried wanted, z.place size align = .grow z.cur.1 tried →
    wantedSize z.strategy z.initialSize tried.size = some wanted →
    size.toNat + align.toNat < 2 ^ 64 ∧
    headerSize.toNat + guardSize.toNat + (newBlockSize wanted size align).toNat +
      guardSize.toNat < 2 ^ 64

theorem Zipper.all_eq (z : Zipper) : z.all = z.before ++ z.cur :: (z.after ++ z.lost) := by
  rw [Zipper.all, Zipper.chain, List.append_assoc, List.cons_append]

theorem Zipper.all_split (z : Zipper) :
    z.all = (z.before ++ [z.cur]) ++ (z.after ++ z.lost) := by
  rw [Zipper.all_eq, List.append_assoc, List.singleton_append]

theorem Zipper.before_cur_sub (z : Zipper) : z.before ++ [z.cur] ⊆ z.all := by
  rw [Zipper.all_split]
  exact List.subset_append_left _ _

theorem Zipper.cur_mem (z : Zipper) : z.cur ∈ z.all := by
  simp [Zipper.all, Zipper.chain]

/-! What moving on, linking a block and handing out a region do to the blocks. -/

theorem Zipper.forward_all {z : Zipper} {x : Ptr × Block} {rest : List (Ptr × Block)}
    (hafter : z.after = x :: rest) : z.forward.all = z.all := by
  simp [Zipper.all, Zipper.chain, Zipper.forward, hafter]

theorem Zipper.insert_all (z : Zipper) (b : Block) :
    ((z.fresh, b) :: z.all).Perm (z.insert b).all := by
  have hperm := perm_grow (z.fresh, b) (z.before ++ [z.cur]) z.after z.lost
  simpa [Zipper.all, Zipper.chain, Zipper.insert] using hperm

theorem Zipper.mem_take {z : Zipper} {offset size : UInt64} {x : Ptr × Block}
    (hx : x ∈ (z.take offset size).2.all) :
    x ∈ z.all ∨ x = (z.cur.1, z.cur.2.bumped offset size) := by
  rw [Zipper.all_eq, List.mem_append, List.mem_cons] at hx ⊢
  rcases hx with hx | rfl | hx
  · exact .inl (.inl hx)
  · exact .inr rfl
  · exact .inl (.inr (.inr hx))

theorem Zipper.reset_unused (z : Zipper) : ∀ x ∈ z.reset.after, x.2.used = 0 := by
  intro x hx
  have hmem : x ∈ z.reset.chain := by simp [Zipper.chain, hx]
  rw [Zipper.reset_chain] at hmem
  obtain ⟨y, _, rfl⟩ := List.mem_map.mp hmem
  rfl

namespace Layout

variable {z : Zipper} {size align : UInt64} {malloc : Malloc} {l : List Extent}

/-- The blocks up to the current one are apart. -/
theorem apart_before (hl : Layout z) :
    ((z.before ++ [z.cur]).map fun x => x.2.memory).Pairwise Extent.Apart := by
  have h := hl.apart
  rw [Zipper.all_split, List.map_append, List.pairwise_append] at h
  exact h.1

theorem forward (hl : Layout z) : Layout z.forward := by
  unfold Zipper.forward
  split
  · exact hl
  · next x rest hafter =>
    have hall : (Zipper.all { z with before := z.before ++ [z.cur], cur := x, after := rest }) =
        z.all := by
      simp [Zipper.all, Zipper.chain, hafter]
    refine ⟨hall ▸ hl.sound, hall ▸ hl.apart, fun y hy => hl.unused y ?_⟩
    simp [hafter, show y ∈ rest from hy]

theorem insert {b : Block} (hl : Layout z) (hb : b.Sound)
    (hapart : ∀ x ∈ z.all, b.memory.Apart x.2.memory) : Layout (z.insert b) := by
  have hperm := z.insert_all b
  refine ⟨fun x hx => ?_, ?_, fun x hx => absurd hx List.not_mem_nil⟩
  · rcases List.mem_cons.mp (hperm.mem_iff.mpr hx) with rfl | hx
    · exact hb
    · exact hl.sound x hx
  · refine ((hperm.map fun x => x.2.memory).pairwise_iff fun h => Extent.Apart.symm h).mp ?_
    refine List.pairwise_cons.mpr ⟨fun m hm => ?_, hl.apart⟩
    obtain ⟨x, hx, rfl⟩ := List.mem_map.mp hm
    exact hapart x hx

theorem take {offset : UInt64} (hl : Layout z)
    (hfits : offset.toNat + size.toNat ≤ z.cur.2.size.toNat) : Layout (z.take offset size).2 := by
  have hcur := hl.sound z.cur z.cur_mem
  refine ⟨fun x hx => ?_, ?_, hl.unused⟩
  · rcases Zipper.mem_take hx with hx | rfl
    · exact hl.sound x hx
    · refine ⟨?_, hcur.header, hcur.bound⟩
      have hlt := z.cur.2.size.toNat_lt
      rw [Block.bumped, UInt64.toNat_add, Nat.mod_eq_of_lt (by omega)]
      exact hfits
  · have hmem : ((z.take offset size).2.all.map fun x => x.2.memory) =
        z.all.map fun x => x.2.memory := by
      simp [Zipper.all, Zipper.chain, Zipper.take]
    rw [hmem]
    exact hl.apart

theorem reset (hl : Layout z) : Layout z.reset := by
  have hall : z.reset.all = (z.chain.map fun x => (x.1, x.2.cleared)) ++ z.lost := by
    rw [Zipper.all, Zipper.reset_chain, Zipper.reset_lost]
  refine ⟨fun x hx => ?_, ?_, z.reset_unused⟩
  · rw [hall, List.mem_append] at hx
    rcases hx with hx | hx
    · obtain ⟨y, hy, rfl⟩ := List.mem_map.mp hx
      exact (hl.sound y (List.mem_append_left _ hy)).cleared
    · exact hl.sound x (List.mem_append_right _ hx)
  · have hmem : (z.reset.all.map fun x => x.2.memory) = z.all.map fun x => x.2.memory := by
      simp [Zipper.all, Function.comp_def]
    rw [hmem]
    exact hl.apart

end Layout

/-! ## One request -/

/-- What an opened block is like: nothing from the offset on was handed out, and the request
ends within it. -/
structure Room (z : Zipper) (offset size : UInt64) : Prop where
  free : z.cur.2.used.toNat ≤ offset.toNat
  fits : offset.toNat + size.toNat ≤ z.cur.2.size.toNat

theorem fits_zero {b : Block} {size align : UInt64} (ha : Align.PowerOfTwo align) :
    b.fits (alignForward 0 align) size = true ↔ size.toNat ≤ b.size.toNat := by
  rw [alignForward, Align.up_zero ha]
  simp [Block.fits, UInt64.le_iff_toNat_le]

theorem le_newBlockSize {wanted size align : UInt64}
    (hsum : size.toNat + align.toNat < 2 ^ 64) :
    size.toNat ≤ (newBlockSize wanted size align).toNat := by
  have hadd : (size + align).toNat = size.toNat + align.toNat := by
    rw [UInt64.toNat_add, Nat.mod_eq_of_lt hsum]
  unfold newBlockSize
  split
  · omega
  · next h => rw [UInt64.lt_iff_toNat_lt] at h; omega

/-- Every block that a request opens has room for it, and opening it keeps the invariants. -/
theorem opened_sound {z z₁ : Zipper} {malloc : Malloc} {size align offset : UInt64}
    {l : List Extent} (hopen : Zipper.Opened z malloc size align z₁ offset) (hl : Layout z)
    (hp : Placed z l) (ha : Align.PowerOfTwo align) (hsums : z.SumsFit size align)
    (hmalloc : z.MallocOk malloc) : Layout z₁ ∧ Placed z₁ l ∧ Room z₁ offset size := by
  have hzero : (alignForward 0 align).toNat = 0 := by rw [alignForward, Align.up_zero ha]; rfl
  cases hopen with
  | current hfits =>
    refine ⟨hl, hp, Align.le_up ha hsums.offset.1, ?_⟩
    rw [Block.fits, decide_eq_true_eq, UInt64.le_iff_toNat_le, UInt64.toNat_add,
      Nat.mod_eq_of_lt hsums.offset.2] at hfits
    exact hfits
  | @next x rest hafter hfits =>
    have hunused := hl.unused x (by simp [hafter])
    have hcur : z.forward.cur = x := by simp [Zipper.forward, hafter]
    have hbefore : z.forward.before = z.before ++ [z.cur] := by simp [Zipper.forward, hafter]
    refine ⟨hl.forward, fun r hr => ?_, ?_, ?_⟩
    · obtain ⟨y, hy, hin⟩ := hp r hr
      exact ⟨y, by rw [hbefore]; exact List.mem_append_left _ hy, hin⟩
    · rw [hcur, hunused]
      exact Nat.zero_le _
    · rw [hcur, hzero, Nat.zero_add]
      exact (fits_zero ha).mp hfits
  | @new tried b wanted hplace hwanted hnew =>
    obtain ⟨hsize, hused, raw, hraw, hspec⟩ := newBlock_spec hnew
    obtain ⟨hspace, hapart⟩ := hmalloc _ _ hraw
    obtain ⟨hsound, hmemory⟩ := hspec hspace
    refine ⟨hl.insert hsound (by rwa [hmemory]), fun r hr => ?_, ?_, ?_⟩
    · obtain ⟨y, hy, hin⟩ := hp r hr
      exact ⟨y, List.mem_append_left _ hy, hin⟩
    · rw [show (z.insert b).cur.2 = b from rfl, hused]
      exact Nat.zero_le _
    · rw [show (z.insert b).cur.2 = b from rfl, hzero, Nat.zero_add, hsize]
      exact le_newBlockSize (hsums.grow _ _ hplace hwanted).1

/-- Taking a region of the current block: it is apart from all live ones, and live itself. -/
theorem take_sound {z : Zipper} {offset size : UInt64} {l : List Extent} (hl : Layout z)
    (hp : Placed z l) (hroom : Room z offset size) :
    (∀ r ∈ l, (region (z.cur.2.data + offset) size).Apart r) ∧
      Placed (z.take offset size).2 (region (z.cur.2.data + offset) size :: l) := by
  have hcur := hl.sound z.cur z.cur_mem
  have hfits := hroom.fits
  have hptr : (z.cur.2.data + offset).toNat = z.cur.2.data.toNat + offset.toNat := by
    have := hcur.bound
    rw [UInt64.toNat_add, Nat.mod_eq_of_lt (by omega)]
  have hstop : (offset + size).toNat = offset.toNat + size.toNat := by
    have := z.cur.2.size.toNat_lt
    rw [UInt64.toNat_add, Nat.mod_eq_of_lt (by omega)]
  have hwithin : (region (z.cur.2.data + offset) size).Within z.cur.2.userData := by
    simp only [region, Extent.Within, Block.userData, hptr]
    omega
  constructor
  · have hfree : z.cur.2.taken.stop ≤ (region (z.cur.2.data + offset) size).start := by
      simp only [Block.taken, region, hptr]
      exact Nat.add_le_add_left hroom.free _
    exact Extent.apart_bump (g := fun x : Ptr × Block => x.2.taken) hl.apart_before
      (fun x hx => (hl.sound x (z.before_cur_sub hx)).taken_within.trans x.2.userData_within)
      (by exact hp) (hwithin.trans z.cur.2.userData_within) hfree
  · intro r hr
    rcases List.mem_cons.mp hr with rfl | hr
    · refine ⟨(z.cur.1, z.cur.2.bumped offset size), List.mem_append_right _ (by simp [Zipper.take]),
        ?_, ?_⟩
      · simp only [region, hptr]
        exact Nat.le_add_right _ _
      · simp only [region, hptr, Block.taken, Block.bumped, hstop]
        omega
    · obtain ⟨x, hx, hin⟩ := hp r hr
      rcases List.mem_append.mp hx with hx | hx
      · exact ⟨x, List.mem_append_left _ hx, hin⟩
      · rw [List.mem_singleton.mp hx] at hin
        refine ⟨(z.cur.1, z.cur.2.bumped offset size),
          List.mem_append_right _ (by simp [Zipper.take]), hin.1, Nat.le_trans hin.2 ?_⟩
        have := hroom.free
        simp only [Block.taken, Block.bumped, hstop]
        omega

/-- A request whose sums fit has an answer: a new block is never smaller than what is written
to it. -/
theorem alloc_total {z : Zipper} {size align : UInt64} (malloc : Malloc)
    (hsums : z.SumsFit size (effectiveAlign align)) :
    ∃ y, z.alloc malloc size align = some y := by
  unfold Zipper.alloc
  cases hz : z.place size (effectiveAlign align) with
  | current p b => simp only [hz]; exact ⟨_, rfl⟩
  | next p b => simp only [hz]; exact ⟨_, rfl⟩
  | grow cur tried =>
    obtain rfl := Zipper.place_eq_grow hz
    simp only [hz, Zipper.grow]
    cases hw : wantedSize z.strategy z.initialSize tried.size with
    | none => exact ⟨_, rfl⟩
    | some wanted =>
      have htotal := (hsums.grow _ _ hz hw).2
      have hblock : ∃ ob, newBlock malloc (newBlockSize wanted size (effectiveAlign align)) =
          some ob := by
        simp only [newBlock]
        split
        · exact ⟨_, rfl⟩
        · rw [if_pos]
          · exact ⟨_, rfl⟩
          · have hheader : headerSize.toNat = 32 := rfl
            have hguard : guardSize.toNat = 16 := rfl
            simp only [blockTotal, UInt64.toNat_add, hheader, hguard] at htotal ⊢
            omega
      obtain ⟨ob, hob⟩ := hblock
      cases ob <;> exact ⟨_, by simp only [hob]; rfl⟩

/-! ## Every run -/

theorem effectiveAlign_powerOfTwo {align : UInt64} (h : align = 0 ∨ Align.PowerOfTwo align) :
    Align.PowerOfTwo (effectiveAlign align) := by
  unfold effectiveAlign
  split
  · exact ⟨3, by decide, by decide⟩
  · next hne => exact h.resolve_left hne

theorem effectiveAlign_eq {align : UInt64} (ha : Align.PowerOfTwo align) :
    effectiveAlign align = align := by
  refine if_neg fun hzero => ?_
  have hpos := ha.pos
  rw [hzero, UInt64.toNat_zero] at hpos
  exact Nat.lt_irrefl 0 hpos

/-- A request answers a pointer, or it fails and leaves the arena as it is. -/
theorem alloc_answer {a a' : Arena} {malloc : Malloc} {size align : UInt64} {r : AllocResult}
    (h : arenaAlloc a malloc size align = some (r, a')) :
    (r.info = .ok ∧ ∃ p, r.ptr = some p) ∨ (r.info ≠ .ok ∧ r.ptr = none ∧ a' = a) := by
  simp only [arenaAlloc, Option.bind_eq_bind, Option.bind_eq_some_iff] at h
  obtain ⟨place, _, h⟩ := h
  cases place with
  | current p b =>
    simp only [Option.bind_eq_some_iff, Option.pure_def, Option.some.injEq, Prod.mk.injEq] at h
    obtain ⟨_, _, rfl, _⟩ := h
    exact .inl ⟨rfl, _, rfl⟩
  | next p b =>
    simp only [Option.bind_eq_some_iff, Option.pure_def, Option.some.injEq, Prod.mk.injEq] at h
    obtain ⟨_, _, rfl, _⟩ := h
    exact .inl ⟨rfl, _, rfl⟩
  | grow cur tried =>
    simp only at h
    split at h
    · cases h; exact .inr ⟨by simp, rfl, rfl⟩
    · simp only [extend, Option.bind_eq_bind, Option.bind_eq_some_iff] at h
      obtain ⟨ob, _, h⟩ := h
      cases ob with
      | none => cases h; exact .inr ⟨by simp, rfl, rfl⟩
      | some pb =>
        simp only [Option.bind_eq_some_iff, Option.pure_def, Option.some.injEq,
          Prod.mk.injEq] at h
        obtain ⟨_, _, _, _, _, _, rfl, _⟩ := h
        exact .inl ⟨rfl, _, rfl⟩

/-- The arena stands for lists in which every live region has its place. -/
structure Inv (a : Arena) (l : List Extent) (z : Zipper) : Prop where
  repr : Repr a z
  layout : Layout z
  placed : Placed z l
  apart : l.Pairwise Extent.Apart

namespace Inv

variable {a a' : Arena} {l : List Extent} {z : Zipper} {size align : UInt64} {malloc : Malloc}

theorem mallocOk (hr : Repr a z) (hm : MallocOk a.blocks malloc) : z.MallocOk malloc := by
  intro total raw hraw
  obtain ⟨hspace, hapart⟩ := hm total raw hraw
  refine ⟨hspace, fun x hx => ?_⟩
  obtain ⟨r, hcell⟩ := (hr.contents.cell x.1 x.2).mpr hx
  exact hapart x.1 ⟨r, x.2⟩ hcell

theorem sumsFit (hr : Repr a z) (hs : SumsFit a size align) : z.SumsFit size align :=
  ⟨hs.offset _ _ hr.current hr.cur_cell, fun tried wanted hplace hwanted =>
    hs.grow z.cur.1 tried wanted (by rw [place_refines hr, hplace])
      (by rw [hr.strategy, hr.initialSize, hwanted])⟩

theorem alloc {r : AllocResult} (hi : Inv a l z) (hm : MallocOk a.blocks malloc)
    (hfits : (Call.alloc size align malloc r).Fits a)
    (h : arenaAlloc a malloc size align = some (r, a')) :
    ∃ z', Inv a' ((Call.alloc size align malloc r).live l) z' := by
  obtain ⟨⟨r', z'⟩, hz, rfl, hrepr⟩ := (h ▸ alloc_refines hi.repr malloc size align).left
  rcases Zipper.alloc_cases hz with ⟨_, hptr, rfl⟩ | ⟨z₁, offset, hopen, htake⟩
  · rw [live_error hptr]
    exact ⟨z', hrepr, hi.layout, hi.placed, hi.apart⟩
  · obtain ⟨hlayout, hplaced, hroom⟩ := opened_sound hopen hi.layout hi.placed
      (effectiveAlign_powerOfTwo hfits.1) (sumsFit hi.repr hfits.2) (mallocOk hi.repr hm)
    obtain ⟨hnew, hplaced'⟩ := take_sound hlayout hplaced hroom
    obtain ⟨rfl, rfl⟩ := Prod.mk.inj htake
    exact ⟨_, hrepr, hlayout.take hroom.fits, hplaced', List.pairwise_cons.mpr ⟨hnew, hi.apart⟩⟩

theorem reset (hi : Inv a l z) (h : arenaReset a = some a') : Inv a' [] z.reset := by
  obtain ⟨a'', hreset, hrepr⟩ := reset_refines hi.repr
  rw [h] at hreset
  cases hreset
  exact ⟨hrepr, hi.layout.reset, fun r hr => absurd hr List.not_mem_nil, List.Pairwise.nil⟩

theorem step {c : Call} (hi : Inv a l z) (hs : Step a c a') (hfits : c.Fits a) :
    ∃ z', Inv a' (c.live l) z' := by
  cases hs with
  | alloc hm h => exact hi.alloc hm hfits h
  | reset h => exact ⟨_, hi.reset h⟩

end Inv

/-- An arena that was created satisfies the invariant. -/
theorem create_inv {a : Arena} {malloc : Malloc} {size : UInt64} {strategy : Strategy}
    (hm : MallocOk .empty malloc) (h : arenaCreate malloc size strategy = some a)
    (hok : a.info = .ok) : ∃ z, Inv a [] z := by
  obtain ⟨b, hb, hrepr⟩ := create_refines h hok
  obtain ⟨_, _, raw, hraw, hspec⟩ := newBlock_spec hb
  have hsound := (hspec (hm _ _ hraw).1).1
  refine ⟨_, hrepr, ⟨?_, by simp [Zipper.all, Zipper.chain], by simp⟩,
    fun r hr => absurd hr List.not_mem_nil, List.Pairwise.nil⟩
  simpa [Zipper.all, Zipper.chain] using hsound

theorem run_inv {a₀ a : Arena} {h : List (Taken Arena Call)} (h₀ : ∃ z, Inv a₀ [] z)
    (hrun : Run Step a₀ h a) (hfits : ∀ t ∈ h, t.label.Fits t.pre) : ∃ z, Inv a (live h) z := by
  induction hrun with
  | nil => exact h₀
  | snoc _ hs ih =>
    obtain ⟨z, hi⟩ := ih fun t ht => hfits t (List.mem_append_left _ ht)
    rw [live_snoc]
    exact hi.step hs (hfits _ (List.mem_append_right _ (List.mem_singleton.mpr rfl)))

/-- What holds after every call: of the blocks, and of the regions `l` that are live. -/
structure Sound (a : Arena) (l : List Extent) : Prop where
  used_le : ∀ x ∈ a.chain, x.2.used ≤ x.2.size
  unused : ∃ before cur after, a.chain = before ++ cur :: after ∧ a.current = some cur.1 ∧
    ∀ x ∈ after, x.2.used = 0
  inside : ∀ r ∈ l, ∃ x ∈ a.chain, r.Within x.2.userData
  guards : ∀ r ∈ l, ∀ x ∈ a.chain, r.Apart x.2.guardHead ∧ r.Apart x.2.guardTail
  apart : l.Pairwise Extent.Apart

theorem Inv.sound {a : Arena} {l : List Extent} {z : Zipper} (hi : Inv a l z) : Sound a l := by
  have hchain := hi.repr.toList
  have hinside : ∀ r ∈ l, ∃ x ∈ z.chain, r.Within x.2.userData := fun r hr => by
    obtain ⟨x, hx, hin⟩ := hi.placed r hr
    refine ⟨x, ?_, hin.trans (hi.layout.sound x (z.before_cur_sub hx)).taken_within⟩
    simp only [Zipper.chain, List.mem_append, List.mem_cons] at hx ⊢
    grind
  rw [← hchain] at hinside
  refine ⟨fun x hx => ?_, ⟨z.before, z.cur, z.after, hchain, hi.repr.current, hi.layout.unused⟩,
    hinside, fun r hr y hy => ?_, hi.apart⟩
  · rw [hchain] at hx
    exact UInt64.le_iff_toNat_le.mpr (hi.layout.sound x (List.mem_append_left _ hx)).used_le
  · obtain ⟨x, hx, hin⟩ := hinside r hr
    rw [hchain] at hx hy
    have hsound := hi.layout.sound y (List.mem_append_left _ hy)
    rcases eq_or_ne x y with rfl | hne
    · exact ⟨.inr hin.1, .inl hin.2⟩
    · have hapart := Extent.apart_of_mem hi.layout.apart (List.mem_append_left _ hx)
        (List.mem_append_left _ hy) hne
      have hheader := hsound.header
      have hin' := hin.trans (Block.userData_within _)
      have hsum : (headerSize + guardSize).toNat = 48 := rfl
      have hguard : guardSize.toNat = 16 := rfl
      refine ⟨hapart.mono hin' ⟨?_, ?_⟩, hapart.mono hin' ⟨?_, ?_⟩⟩ <;>
        simp only [Block.memory, Block.guardHead, Block.guardTail, hsum, hguard] at hheader ⊢ <;>
        omega

/-- **Regions never overlap.** After every run of calls on a created arena whose sums fit, the
blocks and the live regions are sound, every call that fits has a result, and no failed request of
the run changed the arena. -/
theorem regions_never_overlap {a₀ a : Arena} {malloc₀ : Malloc} {initial : UInt64}
    {strategy : Strategy} {h : List (Taken Arena Call)} (hm : MallocOk .empty malloc₀)
    (hcreate : arenaCreate malloc₀ initial strategy = some a₀) (hok : a₀.info = .ok)
    (hrun : Run Step a₀ h a) (hfits : ∀ t ∈ h, t.label.Fits t.pre) :
    Sound a (live h) ∧
    (∀ size align malloc r, MallocOk a.blocks malloc →
      (Call.alloc size align malloc r).Fits a → ∃ y, arenaAlloc a malloc size align = some y) ∧
    (∃ a', arenaReset a = some a') ∧
    (∀ t ∈ h, ∀ size align malloc r, t.label = .alloc size align malloc r →
      (r.info = .ok ↔ ∃ p, r.ptr = some p) ∧ (r.info ≠ .ok → t.post = t.pre)) := by
  obtain ⟨z, hi⟩ := run_inv (create_inv hm hcreate hok) hrun hfits
  refine ⟨hi.sound, fun size align malloc r hmalloc hfit => ?_, ?_, ?_⟩
  · obtain ⟨y, hy⟩ := alloc_total malloc (Inv.sumsFit hi.repr hfit.2)
    obtain ⟨x, hx, _⟩ := (hy ▸ alloc_refines hi.repr malloc size align).right
    exact ⟨x, hx⟩
  · obtain ⟨a', hreset, _⟩ := reset_refines hi.repr
    exact ⟨a', hreset⟩
  · intro t ht size align malloc r hlabel
    obtain ⟨pre, label, post⟩ := t
    obtain rfl : label = _ := hlabel
    cases hrun.taken ht with
    | alloc _ hcall =>
      rcases alloc_answer hcall with ⟨hinfo, hptr⟩ | ⟨hinfo, hptr, hsame⟩
      · exact ⟨iff_of_true hinfo hptr, fun hne => absurd hinfo hne⟩
      · exact ⟨iff_of_false hinfo (by simp [hptr]), fun _ => hsame⟩

/-- Two requests in an arena of 64 bytes, the second with a larger alignment. -/
theorem regions_never_overlap_two : ∃ h, ∃ a : Arena,
    live h = [⟨4160, 4168⟩, ⟨4144, 4154⟩] ∧ a.chain.map (·.2.used) = [24] ∧
    (live h).Pairwise Extent.Apart ∧ ∀ x ∈ a.chain, x.2.used ≤ x.2.size := by
  let malloc : Malloc := fun total => if total = 128 then some 4096 else none
  have hm : MallocOk .empty malloc := by
    intro total raw hraw
    simp only [malloc, Option.ite_none_right_eq_some, Option.some.injEq] at hraw
    obtain ⟨rfl, rfl⟩ := hraw
    exact ⟨by decide, fun p c hc => nomatch hc⟩
  have hstart : Run Step ((arenaCreate malloc 64 .fixed).get rfl) [] _ := .nil
  have hrun := (hstart.snoc (i := .alloc 10 0 (fun _ => none) ⟨.ok, some 4144⟩)
    (.alloc (.null _) rfl)).snoc (i := .alloc 8 16 (fun _ => none) ⟨.ok, some 4160⟩)
    (.alloc (.null _) rfl)
  have hsound := regions_never_overlap hm (Option.some_get _).symm rfl hrun ?_
  · exact ⟨_, _, rfl, rfl, hsound.1.apart, hsound.1.used_le⟩
  · intro t ht
    simp only [List.nil_append, List.cons_append, List.mem_cons, List.not_mem_nil, or_false] at ht
    rcases ht with rfl | rfl
    · refine ⟨.inl rfl, fun cur c hcur hcell => ?_, fun cur tried wanted hplace _ => ?_⟩
      · cases hcur; cases hcell; decide
      · cases hplace
    · refine ⟨.inr ⟨4, by decide, by decide⟩, fun cur c hcur hcell => ?_,
        fun cur tried wanted hplace _ => ?_⟩
      · cases hcur; cases hcell; decide
      · cases hplace

end CBase.Arena
