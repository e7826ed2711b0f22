import CBase.Arena.Regions
import CBase.Arena.Retention

/-!
# Which addresses are aligned

`cb_arena_alloc` aligns the offset of a region in its block, not the address. The data of a block
starts after a header of 32 bytes and a guard of 16, so with a `malloc` that returns multiples of 16
it starts at a multiple of 16, and not always at one of more.

* `servingData`: where the data of the block starts that a request is served from.
* `aligned_iff`: in every run, a granted address is aligned as requested exactly when the alignment
  is at most 16 or the data of the block starts at a multiple of it.
* `address_misaligned`: a request for a multiple of 32 that is answered with an odd multiple of 16.
-/

namespace CBase.Arena

open LinkedHeap

/-- What `malloc` promises of its addresses on a 64-bit target. -/
def mallocAlign : UInt64 := 16

/-- Every address that `malloc` returns is aligned. -/
def MallocAligned (malloc : Malloc) : Prop :=
  ∀ total raw, malloc total = some raw → mallocAlign.toNat ∣ raw.toNat

def Call.MallocAligned : Call → Prop
  | .alloc _ _ malloc _ => Arena.MallocAligned malloc
  | .reset => True

/-- Where the data starts of the block that a place stands for: the current block, the next one, or
the one that `malloc` returns. -/
def Place.data (strategy : Strategy) (initialSize : UInt64) (malloc : Malloc) (size align : UInt64) :
    Place → Option UInt64
  | .current _ b => some b.data
  | .next _ b => some b.data
  | .grow _ tried => do
    let wanted ← wantedSize strategy initialSize tried.size
    let raw ← malloc (blockTotal (newBlockSize wanted size align))
    return raw + headerSize + guardSize

/-- Where the data starts of the block that a request is served from. `align` is not zero here. -/
def servingData (a : Arena) (malloc : Malloc) (size align : UInt64) : Option UInt64 := do
  (← place a size align).data a.strategy a.initialSize malloc size align

/-- The address of an answer is a multiple of the alignment. -/
def AllocResult.Aligned (r : AllocResult) (align : UInt64) : Prop :=
  ∃ p, r.ptr = some p ∧ align.toNat ∣ p.toNat

theorem mallocAlign_powerOfTwo : Align.PowerOfTwo mallocAlign := ⟨4, by decide, rfl⟩

/-! ## On lists -/

/-- The data of every block starts at a multiple of 16. -/
def Zipper.DataAligned (z : Zipper) : Prop := ∀ x ∈ z.all, mallocAlign.toNat ∣ x.2.data.toNat

section

variable {a : Arena} {z z₁ z' : Zipper} {malloc : Malloc} {size align offset : UInt64}
  {r : AllocResult} {b : Block}

/-- The data of a new block starts after the header and the guard. -/
theorem newBlock_data (h : newBlock malloc size = some (some b)) :
    ∃ raw, malloc (blockTotal size) = some raw ∧ b.data = raw + headerSize + guardSize := by
  simp only [newBlock] at h
  split at h
  · cases h
  · next raw hraw =>
    split at h
    · cases h
      exact ⟨raw, hraw, rfl⟩
    · cases h

/-- Header and guard together are a multiple of 16. -/
theorem dataStart_aligned {raw : UInt64} (h : mallocAlign.toNat ∣ raw.toNat) :
    mallocAlign.toNat ∣ (raw + headerSize + guardSize).toNat := by
  have hheader : mallocAlign.toNat ∣ headerSize.toNat := by decide
  have hguard : mallocAlign.toNat ∣ guardSize.toNat := by decide
  rwa [Align.PowerOfTwo.dvd_add_iff mallocAlign_powerOfTwo hguard,
    Align.PowerOfTwo.dvd_add_iff mallocAlign_powerOfTwo hheader]

theorem newBlock_aligned (hm : MallocAligned malloc) (h : newBlock malloc size = some (some b)) :
    mallocAlign.toNat ∣ b.data.toNat := by
  obtain ⟨raw, hraw, hdata⟩ := newBlock_data h
  rw [hdata]
  exact dataStart_aligned (hm _ _ hraw)

theorem Zipper.Opened.dataAligned (hopen : Zipper.Opened z malloc size align z₁ offset)
    (hm : MallocAligned malloc) (hz : z.DataAligned) : z₁.DataAligned := by
  cases hopen with
  | current => exact hz
  | next hafter =>
    intro x hx
    rw [Zipper.forward_all hafter] at hx
    exact hz x hx
  | @new _ b _ _ _ hnew =>
    intro x hx
    rcases List.mem_cons.mp ((z.insert_all b).mem_iff.mpr hx) with rfl | hx
    · exact newBlock_aligned hm hnew
    · exact hz x hx

theorem take_dataAligned (hz : z.DataAligned) : (z.take offset size).2.DataAligned := by
  intro x hx
  rcases Zipper.mem_take hx with hx | rfl
  · exact hz x hx
  · exact hz z.cur z.cur_mem

theorem alloc_dataAligned (hm : MallocAligned malloc) (hz : z.DataAligned)
    (h : z.alloc malloc size align = some (r, z')) : z'.DataAligned := by
  rcases Zipper.alloc_cases h with ⟨_, _, rfl⟩ | ⟨z₁, offset, hopen, htake⟩
  · exact hz
  · obtain ⟨_, rfl⟩ := Prod.mk.inj htake
    exact take_dataAligned (hopen.dataAligned hm hz)

theorem reset_dataAligned (hz : z.DataAligned) : z.reset.DataAligned := by
  intro x hx
  rw [Zipper.all, Zipper.reset_chain, Zipper.reset_lost, List.mem_append] at hx
  rcases hx with hx | hx
  · obtain ⟨y, hy, rfl⟩ := List.mem_map.mp hx
    exact hz y (List.mem_append_left _ hy)
  · exact hz x (List.mem_append_right _ hx)

/-! ## One request -/

theorem servingData_eq (hr : Repr a z) (malloc : Malloc) (size align : UInt64) :
    servingData a malloc size align =
      (z.place size align).data z.strategy z.initialSize malloc size align := by
  rw [servingData, place_refines hr, hr.strategy, hr.initialSize]
  rfl

/-- The address that a request is answered with is an aligned offset from the data of its block. -/
theorem alloc_served (hr : Repr a z) (ha : Align.PowerOfTwo align)
    (h : z.alloc malloc size align = some (r, z')) (hok : r.info = .ok) :
    ∃ data offset, servingData a malloc size align = some data ∧
      align.toNat ∣ offset.toNat ∧ r.ptr = some (data + offset) := by
  have hserving := servingData_eq hr malloc size align
  rw [Zipper.alloc, effectiveAlign_eq ha] at h
  cases hz : z.place size align with
  | current p b =>
    obtain ⟨rfl, rfl, _⟩ := Zipper.place_eq_current hz
    rw [hz] at hserving h
    obtain ⟨rfl, rfl⟩ := Prod.mk.inj (Option.some.inj h)
    exact ⟨_, _, hserving, Align.dvd_up ha, rfl⟩
  | next p b =>
    obtain ⟨rest, hafter, _⟩ := Zipper.place_eq_next hz
    rw [hz] at hserving h
    obtain ⟨rfl, rfl⟩ := Prod.mk.inj (Option.some.inj h)
    have hcur : z.forward.cur.2 = b := by simp [Zipper.forward, hafter]
    exact ⟨_, alignForward 0 align, hserving, Align.dvd_up ha, by rw [hcur]⟩
  | grow cur tried =>
    rw [hz] at hserving h
    rcases Zipper.grow_cases h with ⟨_, rfl, _⟩ | ⟨wanted, hw, ⟨_, rfl, _⟩ | ⟨b, hb, htake⟩⟩
    · cases hok
    · cases hok
    · obtain ⟨raw, hraw, hdata⟩ := newBlock_data hb
      obtain ⟨rfl, rfl⟩ := Prod.mk.inj htake
      simp only [Place.data, hw, hraw, Option.bind_eq_bind, Option.bind_some] at hserving
      exact ⟨_, alignForward 0 align, hserving, Align.dvd_up ha, by rw [← hdata]; rfl⟩

/-- The data of the block that a request is served from starts at a multiple of 16. -/
theorem servingData_aligned {data : UInt64} (hr : Repr a z) (hz : z.DataAligned)
    (hm : MallocAligned malloc) (h : servingData a malloc size align = some data) :
    mallocAlign.toNat ∣ data.toNat := by
  rw [servingData_eq hr] at h
  cases hplace : z.place size align with
  | current p b =>
    obtain ⟨rfl, rfl, _⟩ := Zipper.place_eq_current hplace
    rw [hplace] at h
    cases h
    exact hz z.cur z.cur_mem
  | next p b =>
    obtain ⟨rest, hafter, _⟩ := Zipper.place_eq_next hplace
    rw [hplace] at h
    cases h
    exact hz (p, b) (by simp [Zipper.all, Zipper.chain, hafter])
  | grow cur tried =>
    simp only [hplace, Place.data, Option.bind_eq_bind, Option.bind_eq_some_iff] at h
    obtain ⟨wanted, _, raw, hraw, h⟩ := h
    cases h
    exact dataStart_aligned (hm _ _ hraw)

theorem aligned_served (hr : Repr a z) (hz : z.DataAligned) (hm : MallocAligned malloc)
    (ha : Align.PowerOfTwo align) (h : z.alloc malloc size align = some (r, z'))
    (hok : r.info = .ok) :
    r.Aligned align ↔ align ≤ mallocAlign ∨
      ∃ data, servingData a malloc size align = some data ∧ align.toNat ∣ data.toNat := by
  obtain ⟨data, offset, hserving, hoffset, hptr⟩ := alloc_served hr ha h hok
  have haligned : r.Aligned align ↔ align.toNat ∣ data.toNat := by
    rw [AllocResult.Aligned, hptr, ← ha.dvd_add_iff hoffset]
    simp
  rw [haligned, hserving]
  constructor
  · exact fun hdvd => .inr ⟨data, rfl, hdvd⟩
  · rintro (hle | ⟨_, hdata, hdvd⟩)
    · exact (ha.dvd mallocAlign_powerOfTwo hle).trans (servingData_aligned hr hz hm hserving)
    · exact Option.some.inj hdata ▸ hdvd

end

/-! ## Every run -/

/-- The data of every block is aligned in every state of a run. -/
theorem step_dataAligned {a a' : Arena} {c : Call} (h : ∃ z, Repr a z ∧ z.DataAligned)
    (hs : Step a c a') (hc : c.MallocAligned) : ∃ z, Repr a' z ∧ z.DataAligned := by
  obtain ⟨z, hr, hz⟩ := h
  cases hs with
  | alloc _ hcall =>
    obtain ⟨⟨_, z'⟩, halloc, _, hr'⟩ := (hcall ▸ alloc_refines hr _ _ _).left
    exact ⟨z', hr', alloc_dataAligned hc hz halloc⟩
  | reset hcall =>
    obtain ⟨a'', hreset, hr'⟩ := reset_refines hr
    rw [hcall] at hreset
    cases hreset
    exact ⟨_, hr', reset_dataAligned hz⟩

theorem run_dataAligned {a₀ a : Arena} {h : List (Taken Arena Call)}
    (h₀ : ∃ z, Repr a₀ z ∧ z.DataAligned) (hrun : Run Step a₀ h a)
    (hm : ∀ t ∈ h, t.label.MallocAligned) : ∃ z, Repr a z ∧ z.DataAligned := by
  induction hrun with
  | nil => exact h₀
  | snoc _ hs ih =>
    have hmid := ih fun t ht => hm t (List.mem_append_left _ ht)
    exact step_dataAligned hmid hs (hm _ (List.mem_append_right _ List.mem_cons_self))

theorem create_dataAligned {a : Arena} {malloc : Malloc} {size : UInt64} {strategy : Strategy}
    (hm : MallocAligned malloc) (h : arenaCreate malloc size strategy = some a)
    (hok : a.info = .ok) : ∃ z, Repr a z ∧ z.DataAligned := by
  obtain ⟨b, hb, hr⟩ := create_refines h hok
  refine ⟨_, hr, fun x hx => ?_⟩
  obtain rfl : x = (0, b) := by simpa [Zipper.all, Zipper.chain] using hx
  exact newBlock_aligned hm hb

/-- Which requests are answered with an aligned address. In every run with a `malloc` that returns
multiples of 16, a granted address is a multiple of the alignment asked for if and only if the
alignment is at most 16 or the data of the block starts at a multiple of it. -/
theorem aligned_iff {a₀ a : Arena} {malloc₀ : Malloc} {initial : UInt64} {strategy : Strategy}
    {h : List (Taken Arena Call)} (hm₀ : MallocAligned malloc₀)
    (hcreate : arenaCreate malloc₀ initial strategy = some a₀) (hok : a₀.info = .ok)
    (hrun : Run Step a₀ h a) (hm : ∀ t ∈ h, t.label.MallocAligned) :
    ∀ t ∈ h, ∀ size align malloc r, t.label = .alloc size align malloc r →
      Align.PowerOfTwo align → r.info = .ok →
      (r.Aligned align ↔ align ≤ mallocAlign ∨
        ∃ data, servingData t.pre malloc size align = some data ∧ align.toNat ∣ data.toNat) := by
  intro t ht size align malloc r hlabel ha hrok
  obtain ⟨before, after, rfl⟩ := List.append_of_mem ht
  obtain ⟨hbefore, hs, _⟩ := hrun.at_entry
  obtain ⟨z, hr, hz⟩ := run_dataAligned (create_dataAligned hm₀ hcreate hok) hbefore
    fun u hu => hm u (List.mem_append_left _ hu)
  have hmt := hm t ht
  rw [hlabel] at hs hmt
  cases hs with
  | alloc _ hcall =>
    obtain ⟨⟨_, z'⟩, halloc, rfl, _⟩ := (hcall ▸ alloc_refines hr _ _ _).left
    exact aligned_served hr hz hmt ha halloc hrok

theorem mallocOnly_aligned {n raw : UInt64} (h : mallocAlign.toNat ∣ raw.toNat) :
    MallocAligned (mallocOnly n raw) := by
  intro total r hr
  rw [mallocOnly, Option.ite_none_right_eq_some] at hr
  obtain rfl := Option.some.inj hr.2
  exact h

theorem null_aligned : MallocAligned fun _ => none := fun _ _ h => nomatch h

/-- A request in an arena of 64 bytes with the largest alignment that always works. -/
theorem aligned_iff_one : ∃ r : AllocResult, r.ptr = some 4144 ∧ r.Aligned 16 := by
  have hstart : Run Step ((arenaCreate (mallocOnly 128 4096) 64 .fixed).get rfl) [] _ := .nil
  have hrun := hstart.snoc (.alloc_get 8 16 (.null _) (by decide +kernel))
  have haligned := aligned_iff (mallocOnly_aligned (by decide)) (Option.some_get _).symm rfl hrun
    (fun t ht => List.mem_singleton.mp ht ▸ null_aligned) _ List.mem_cons_self _ _ _ _ rfl
    ⟨4, by decide, rfl⟩ rfl
  exact ⟨_, rfl, haligned.mpr (.inl (by decide))⟩

/-- An arena of 64 bytes in memory from address 4096 on answers a request for a multiple of 32 with
address 4144. -/
theorem address_misaligned :
    ¬ ∀ (malloc₀ : Malloc) (initial : UInt64) (strategy : Strategy) (a₀ a : Arena)
      (h : List (Taken Arena Call)), MallocOk .empty malloc₀ → MallocAligned malloc₀ →
      arenaCreate malloc₀ initial strategy = some a₀ → a₀.info = .ok → Run Step a₀ h a →
      (∀ t ∈ h, t.label.MallocAligned) → (∀ t ∈ h, t.label.Fits t.pre) →
      ∀ t ∈ h, ∀ size align malloc r, t.label = .alloc size align malloc r →
        Align.PowerOfTwo align → r.info = .ok → r.Aligned align := by
  intro hall
  have hstart : Run Step ((arenaCreate (mallocOnly 128 4096) 64 .fixed).get rfl) [] _ := .nil
  have hrun := hstart.snoc (.alloc_get 8 32 (.null _) (by decide +kernel))
  have hok : MallocOk .empty (mallocOnly 128 4096) :=
    mallocOnly_ok (by decide) fun p _ c hc => nomatch hc
  have ha : Align.PowerOfTwo 32 := ⟨5, by decide, rfl⟩
  have haligned := hall _ 64 .fixed _ _ _ hok (mallocOnly_aligned (by decide))
    (Option.some_get _).symm rfl hrun (fun t ht => List.mem_singleton.mp ht ▸ null_aligned) ?_ _
    List.mem_cons_self _ _ _ _ rfl ha rfl
  · obtain ⟨p, hp, hdvd⟩ := haligned
    obtain rfl : 4144 = p := Option.some.inj hp
    exact absurd hdvd (by decide)
  · intro t ht
    obtain rfl := List.mem_singleton.mp ht
    refine ⟨.inr ha, fun cur c hcur hcell => ?_, fun cur tried wanted hplace _ => ?_⟩
    · cases hcur; cases hcell; decide
    · cases hplace

end CBase.Arena
