import CBase.Lib.Blocks
import CBase.Lib.FisherYates
import CBase.Lib.Memory
import CBase.Random.Bounded

/-!
# The shuffle

`cb_rng_shuffle` works on the bytes of the elements, with a scratch buffer for one of them. On the
list of elements it is the run of `FisherYates` with the draws of the generator (`shuffle_spec`).
-/

namespace CBase.Rng

open FisherYates (Draws)

def shuffleMaxStride : Nat := 256

/-- `memcpy` within one memory. The two ranges must not overlap. -/
def memcpyWithin (mem : List UInt8) (dst src n : Nat) : Option (List UInt8) :=
  if dst + n ≤ src ∨ src + n ≤ dst then do
    let bytes ← Memory.slice mem src n
    Memory.blit mem dst bytes
  else none

/-- The three `memcpy` calls of `cb_rng_shuffle`. -/
def swapElements (mem tmp : List UInt8) (pi pj stride : Nat) :
    Option (List UInt8 × List UInt8) := do
  let bytes ← Memory.slice mem pi stride
  let tmp ← Memory.blit tmp 0 bytes
  let mem ← memcpyWithin mem pi pj stride
  let bytes ← Memory.slice tmp 0 stride
  let mem ← Memory.blit mem pj bytes
  return (mem, tmp)

/-- `for (size_t i = n - 1; i > 0; --i) { ... }` of `cb_rng_shuffle`. -/
def shuffleLoop (base stride : Nat) :
    Nat → Rng → List UInt8 → List UInt8 → Option (Rng × List UInt8)
  | 0, rng, mem, _ => some (rng, mem)
  | i + 1, rng, mem, tmp => do
    let (j, rng) ← rng.u32Below (UInt32.ofNat (i + 1 + 1))
    -- an element that stays is not copied
    if j.toNat = i + 1 then shuffleLoop base stride i rng mem tmp
    else
      let (mem, tmp) ←
        swapElements mem tmp (base + (i + 1) * stride) (base + j.toNat * stride) stride
      shuffleLoop base stride i rng mem tmp

/-- `cb_rng_shuffle`, for an array at `base` in `mem` and any contents of the scratch buffer. -/
def shuffle (rng : Rng) (mem : List UInt8) (base n stride : Nat)
    (tmp : Vector UInt8 shuffleMaxStride) : Option (Rng × List UInt8) :=
  if n < 2 then some (rng, mem)
  else if shuffleMaxStride < stride then some ({ rng with info := .rngBadStride }, mem)
  else shuffleLoop base stride (n - 1) rng mem tmp.toList

/-! ## The elements of an array -/

def elements (mem : List UInt8) (base n stride : Nat) : List (List UInt8) :=
  Blocks.split stride n (mem.drop base)

/-- `mem` holds the array `es` at `base`, with the elements of length `stride`. -/
structure Holds (pre post : List UInt8) (stride : Nat) (es : List (List UInt8))
    (mem : List UInt8) : Prop where
  layout : mem = pre ++ (es.flatten ++ post)
  width : ∀ e ∈ es, e.length = stride

variable {pre post mem tmp : List UInt8} {stride i j n : Nat} {es : List (List UInt8)}

theorem length_flatten (h : ∀ e ∈ es, e.length = stride) : es.flatten.length = es.length * stride := by
  induction es with
  | nil => simp
  | cons e es ih =>
    rw [List.flatten_cons, List.length_append, h e List.mem_cons_self,
      ih fun e he => h e (List.mem_cons_of_mem _ he), List.length_cons]
    ring

/-- An element and the bytes around it. -/
theorem Holds.around (h : Holds pre post stride es mem) (hi : i < es.length) :
    ∃ before after, before.length = pre.length + i * stride ∧
      mem = before ++ (es[i] ++ after) ∧
      ∀ x : List UInt8, x.length = stride →
        Holds pre post stride (es.set i x) (before ++ (x ++ after)) := by
  have htake : ∀ e ∈ es.take i, e.length = stride := fun e he => h.width e (List.mem_of_mem_take he)
  refine ⟨pre ++ (es.take i).flatten, (es.drop (i + 1)).flatten ++ post, ?_, ?_, ?_⟩
  · rw [List.length_append, length_flatten htake, List.length_take, Nat.min_eq_left hi.le]
  · have hparts : es = es.take i ++ es[i] :: es.drop (i + 1) := by
      rw [List.cons_getElem_drop_succ, List.take_append_drop]
    rw [h.layout]
    conv_lhs => rw [hparts]
    rw [List.flatten_append, List.flatten_cons]
    simp only [List.append_assoc]
  · intro x hx
    refine ⟨?_, ?_⟩
    · rw [List.set_eq_take_append_cons_drop, if_pos hi, List.flatten_append, List.flatten_cons]
      simp only [List.append_assoc]
    · intro e he
      rcases List.mem_or_eq_of_mem_set he with he | rfl
      · exact h.width e he
      · exact hx

theorem Holds.slice (h : Holds pre post stride es mem) (hi : i < es.length) :
    Memory.slice mem (pre.length + i * stride) stride = some es[i] := by
  obtain ⟨before, after, hlen, hmem, -⟩ := h.around hi
  have hwidth := h.width _ (List.getElem_mem hi)
  rw [hmem, ← hlen, ← hwidth, Memory.slice_of_le (by simp only [List.length_append]; omega),
    List.drop_left, List.take_left]

theorem Holds.blit (h : Holds pre post stride es mem) (hi : i < es.length) {x : List UInt8}
    (hx : x.length = stride) :
    ∃ mem', Memory.blit mem (pre.length + i * stride) x = some mem' ∧
      Holds pre post stride (es.set i x) mem' := by
  obtain ⟨before, after, hlen, hmem, hset⟩ := h.around hi
  have hwidth := h.width _ (List.getElem_mem hi)
  refine ⟨_, ?_, hset x hx⟩
  have hdrop : (before ++ (es[i] ++ after)).drop (before.length + x.length) = after := by
    rw [hx, ← hwidth, ← List.append_assoc, ← List.length_append, List.drop_left]
  rw [hmem, ← hlen, Memory.blit_of_le (by simp only [List.length_append]; omega), Memory.splice,
    List.take_left, hdrop, List.append_assoc]

/-- Two elements of an array do not overlap. -/
theorem disjoint_elements {base : Nat} (hne : i ≠ j) :
    base + i * stride + stride ≤ base + j * stride ∨ base + j * stride + stride ≤ base + i * stride := by
  rcases Nat.lt_or_gt_of_ne hne with hlt | hlt
  · have hmul := Nat.mul_le_mul_right stride hlt
    rw [Nat.succ_mul] at hmul
    exact .inl (by omega)
  · have hmul := Nat.mul_le_mul_right stride hlt
    rw [Nat.succ_mul] at hmul
    exact .inr (by omega)

/-- The three copies exchange two elements. -/
theorem swapElements_spec (h : Holds pre post stride es mem) (hi : i < es.length)
    (hj : j < es.length) (hne : i ≠ j) (htmp : stride ≤ tmp.length) :
    ∃ mem' tmp', swapElements mem tmp (pre.length + i * stride) (pre.length + j * stride) stride =
        some (mem', tmp') ∧
      Holds pre post stride (FisherYates.exchange es i j) mem' ∧ tmp'.length = tmp.length := by
  have hwi := h.width _ (List.getElem_mem hi)
  have hwj := h.width _ (List.getElem_mem hj)
  obtain ⟨mem₁, hblit₁, h₁⟩ := h.blit hi hwj
  obtain ⟨mem₂, hblit₂, h₂⟩ := h₁.blit (i := j) (by rwa [List.length_set]) hwi
  have hfit : 0 + es[i].length ≤ tmp.length := by omega
  have hback : Memory.slice (Memory.splice tmp 0 es[i]) 0 stride = some es[i] := by
    rw [Memory.slice_of_le (by rw [Memory.length_splice hfit]; omega), List.drop_zero, ← hwi]
    have hend := Memory.take_splice_end (m := tmp) (x := es[i]) (i := 0) (Nat.zero_le _)
    rw [Nat.zero_add, List.take_zero, List.nil_append] at hend
    rw [hend]
  refine ⟨mem₂, Memory.splice tmp 0 es[i], ?_, ?_, Memory.length_splice hfit⟩
  · simp only [swapElements, memcpyWithin, h.slice hi, h.slice hj, Memory.blit_of_le hfit,
      if_pos (disjoint_elements hne), hblit₁, hback, hblit₂, Option.bind_eq_bind, Option.bind_some,
      Option.pure_def]
  · rw [FisherYates.exchange_eq hi hj]
    exact h₂

/-! ## The draws -/

/-- The draws of the loop from position `m` down, and the generator behind them. -/
def Drawn : (m : Nat) → Rng → Draws m → Rng → Prop
  | 0, rng, _, rng' => rng' = rng
  | m + 1, rng, d, rng' => ∃ j rng₁, rng.u32Below (UInt32.ofNat (m + 1 + 1)) = some (j, rng₁) ∧
      j.toNat = d.top.val ∧ Drawn m rng₁ d.rest rng'

theorem u32Below_info {rng rng' : Rng} {bound r : UInt32}
    (h : rng.u32Below bound = some (r, rng')) : rng'.info = rng.info := by
  by_cases hb : bound = 0
  · have hsame : rng.u32Below bound = some (0, rng) := if_pos hb
    rw [hsame] at h
    rw [← (Prod.mk.inj (Option.some.inj h)).2]
  · obtain ⟨k, -, -, hresult⟩ := u32Below_first rng hb
    rw [hresult] at h
    rw [← (Prod.mk.inj (Option.some.inj h)).2, info_iterate]

theorem Drawn.info {m : Nat} {rng rng' : Rng} {d : Draws m} (h : Drawn m rng d rng') :
    rng'.info = rng.info := by
  induction m generalizing rng with
  | zero => exact congrArg Rng.info h
  | succ m ih =>
    obtain ⟨j, rng₁, hdraw, -, hrest⟩ := h
    rw [ih hrest, u32Below_info hdraw]

/-- The draw for a position is at most the position, also where the bound does not fit in 32 bits. -/
theorem draw_position (rng : Rng) (i : Nat) :
    ∃ j rng', rng.u32Below (UInt32.ofNat (i + 1 + 1)) = some (j, rng') ∧ j.toNat < i + 2 := by
  by_cases hzero : UInt32.ofNat (i + 1 + 1) = 0
  · refine ⟨0, rng, ?_, ?_⟩
    · rw [hzero]
      rfl
    · rw [UInt32.toNat_zero]
      omega
  · obtain ⟨j, rng', hdraw, hlt⟩ := rng.u32Below_spec hzero
    refine ⟨j, rng', hdraw, ?_⟩
    rw [UInt32.lt_iff_toNat_lt, UInt32.toNat_ofNat'] at hlt
    exact hlt.trans_le (Nat.mod_le _ _)

/-! ## The loop -/

theorem shuffleLoop_spec {m : Nat} {rng : Rng} (h : Holds pre post stride es mem)
    (hm : m < es.length) (htmp : stride ≤ tmp.length) :
    ∃ rng' mem' d, shuffleLoop pre.length stride m rng mem tmp = some (rng', mem') ∧
      Drawn m rng d rng' ∧ Holds pre post stride (FisherYates.shuffle m d es) mem' := by
  induction m generalizing rng mem tmp es with
  | zero => exact ⟨rng, mem, fun i => i.elim0, rfl, rfl, h⟩
  | succ m ih =>
    obtain ⟨j, rng₁, hdraw, hj⟩ := draw_position rng m
    obtain ⟨mem₁, tmp₁, hround, h₁, htmp₁⟩ : ∃ mem₁ tmp₁,
        shuffleLoop pre.length stride (m + 1) rng mem tmp =
          shuffleLoop pre.length stride m rng₁ mem₁ tmp₁ ∧
        Holds pre post stride (FisherYates.exchange es (m + 1) j.toNat) mem₁ ∧
        stride ≤ tmp₁.length := by
      by_cases hsame : j.toNat = m + 1
      · refine ⟨mem, tmp, ?_, ?_, htmp⟩
        · simp only [shuffleLoop, hdraw, if_pos hsame, Option.bind_eq_bind, Option.bind_some]
        · rwa [hsame, FisherYates.exchange_self]
      · obtain ⟨mem₁, tmp₁, hswap, h₁, hlen⟩ :=
          swapElements_spec h hm (by omega) (fun heq => hsame heq.symm) htmp
        refine ⟨mem₁, tmp₁, ?_, h₁, by omega⟩
        simp only [shuffleLoop, hdraw, if_neg hsame, hswap, Option.bind_eq_bind, Option.bind_some]
    obtain ⟨rng', mem', rest, hloop, hdrawn, hholds⟩ := @ih _ _ _ rng₁ h₁
      (by rw [FisherYates.length_exchange]; omega) htmp₁
    obtain ⟨d, hd⟩ := (FisherYates.split_bijective m).surjective (⟨j.toNat, hj⟩, rest)
    obtain ⟨htop, hrest⟩ := Prod.mk.inj hd
    refine ⟨rng', mem', d, hround.trans hloop, ⟨j, rng₁, hdraw, ?_, ?_⟩, ?_⟩
    · rw [htop]
    · rwa [hrest]
    · rw [FisherYates.shuffle, htop, hrest]
      exact hholds

/-! ## Main results -/

theorem length_split (stride n : Nat) (xs : List UInt8) : (Blocks.split stride n xs).length = n := by
  induction n generalizing xs with
  | zero => rfl
  | succ n ih => rw [Blocks.split, List.length_cons, ih]

theorem split_flatten (stride : Nat) (h : ∀ e ∈ es, e.length = stride) :
    Blocks.split stride es.length (es.flatten ++ post) = es := by
  induction es with
  | nil => rfl
  | cons e es ih =>
    have hwidth := h e List.mem_cons_self
    rw [List.length_cons, Blocks.split, List.flatten_cons, List.append_assoc, ← hwidth,
      List.take_left, List.drop_left, hwidth, ih fun x hx => h x (List.mem_cons_of_mem _ hx)]

theorem flatten_split {xs : List UInt8} (h : n * stride ≤ xs.length) :
    (Blocks.split stride n xs).flatten = xs.take (n * stride) ∧
      ∀ e ∈ Blocks.split stride n xs, e.length = stride := by
  induction n generalizing xs with
  | zero => simp [Blocks.split]
  | succ n ih =>
    rw [Nat.succ_mul] at h
    obtain ⟨hflat, hwidth⟩ := @ih (xs.drop stride) (by rw [List.length_drop]; omega)
    constructor
    · rw [Blocks.split, List.flatten_cons, hflat, Nat.succ_mul, Nat.add_comm, List.take_add]
    · intro e he
      rcases List.mem_cons.mp he with rfl | he
      · rw [List.length_take]
        omega
      · exact hwidth e he

theorem elements_holds {base : Nat} (hfit : base + n * stride ≤ mem.length) :
    Holds (mem.take base) (mem.drop (base + n * stride)) stride (elements mem base n stride) mem := by
  obtain ⟨hflat, hwidth⟩ := @flatten_split stride n (mem.drop base) (by
    rw [List.length_drop]
    omega)
  refine ⟨?_, hwidth⟩
  rw [elements, hflat, ← List.drop_drop, List.take_append_drop, List.take_append_drop]

theorem Holds.elements_eq (h : Holds pre post stride es mem) :
    elements mem pre.length es.length stride = es := by
  rw [elements, h.layout, List.drop_left, split_flatten stride h.width]

theorem Holds.take (h : Holds pre post stride es mem) : mem.take pre.length = pre := by
  rw [h.layout, List.take_left]

theorem Holds.drop (h : Holds pre post stride es mem) :
    mem.drop (pre.length + es.length * stride) = post := by
  rw [h.layout, ← length_flatten h.width, ← List.append_assoc, ← List.length_append, List.drop_left]

theorem Holds.length (h : Holds pre post stride es mem) :
    mem.length = pre.length + (es.length * stride + post.length) := by
  rw [h.layout, List.length_append, List.length_append, length_flatten h.width]

/-- The run of the code on an array of `n` elements. -/
theorem shuffle_spec (rng : Rng) {base : Nat} (hfit : base + n * stride ≤ mem.length)
    (hstride : stride ≤ shuffleMaxStride) (hn : 2 ≤ n) (tmp : Vector UInt8 shuffleMaxStride) :
    ∃ rng' mem' d, shuffle rng mem base n stride tmp = some (rng', mem') ∧
      Drawn (n - 1) rng d rng' ∧
      elements mem' base n stride = FisherYates.shuffle (n - 1) d (elements mem base n stride) ∧
      mem'.length = mem.length ∧ mem'.take base = mem.take base ∧
      mem'.drop (base + n * stride) = mem.drop (base + n * stride) := by
  have hlen : (elements mem base n stride).length = n := length_split _ _ _
  have hpre : (mem.take base).length = base := by
    rw [List.length_take]
    omega
  have htmp : tmp.toList.length = shuffleMaxStride := by simp
  obtain ⟨rng', mem', d, hloop, hdrawn, hholds⟩ := @shuffleLoop_spec _ _ _ tmp.toList _ _ (n - 1) rng
    (elements_holds hfit) (by omega) (by omega)
  rw [hpre] at hloop
  have hshuffled := hholds.elements_eq
  rw [hpre, FisherYates.length_shuffle, hlen] at hshuffled
  have hbefore := hholds.take
  rw [hpre] at hbefore
  have hafter := hholds.drop
  rw [hpre, FisherYates.length_shuffle, hlen] at hafter
  have hlength := hholds.length
  rw [FisherYates.length_shuffle, ← (elements_holds hfit).length] at hlength
  refine ⟨rng', mem', d, ?_, hdrawn, hshuffled, hlength, hbefore, hafter⟩
  rw [shuffle, if_neg (by omega), if_neg (by omega)]
  exact hloop

/-- The shuffle permutes whole elements by the permutation of its draws, and each permutation belongs
to exactly one sequence of draws. A stride that does not fit in the scratch buffer is only reported. -/
theorem shuffle_uniform (rng : Rng) (mem : List UInt8) (base n stride : Nat)
    (hfit : base + n * stride ≤ mem.length) (tmp : Vector UInt8 shuffleMaxStride) :
    (stride ≤ shuffleMaxStride →
      ∃ rng' mem', shuffle rng mem base n stride tmp = some (rng', mem') ∧
        (elements mem' base n stride).Perm (elements mem base n stride) ∧
        (∀ e ∈ elements mem' base n stride, e.length = stride) ∧
        mem'.length = mem.length ∧ mem'.take base = mem.take base ∧
        mem'.drop (base + n * stride) = mem.drop (base + n * stride) ∧
        rng'.info = rng.info ∧
        (2 ≤ n → ∃ d, Drawn (n - 1) rng d rng' ∧ ∀ p : Fin (n - 1 + 1),
          (elements mem' base n stride)[p.val]? =
            (elements mem base n stride)[(FisherYates.perm (n - 1) d p).val]?)) ∧
    (2 ≤ n → n < 2 ^ 32 → Function.Bijective (FisherYates.perm (n - 1))) ∧
    (2 ≤ n → shuffleMaxStride < stride →
      shuffle rng mem base n stride tmp = some ({ rng with info := .rngBadStride }, mem)) := by
  refine ⟨fun hstride => ?_, fun _ _ => FisherYates.perm_bijective _, fun hn hwide => ?_⟩
  · have hwidth := (elements_holds hfit).width
    by_cases hn : 2 ≤ n
    · obtain ⟨rng', mem', d, hrun, hdrawn, helements, hlength, hbefore, hafter⟩ :=
        shuffle_spec rng hfit hstride hn tmp
      have hperm : (elements mem' base n stride).Perm (elements mem base n stride) := by
        rw [helements]
        exact FisherYates.shuffle_perm d _
      have hlen : (elements mem base n stride).length = n := length_split _ _ _
      refine ⟨rng', mem', hrun, hperm, fun e he => hwidth e (hperm.mem_iff.mp he), hlength,
        hbefore, hafter, hdrawn.info, fun _ => ⟨d, hdrawn, fun p => ?_⟩⟩
      rw [helements]
      exact FisherYates.getElem?_shuffle d (by omega) p
    · have hrun : shuffle rng mem base n stride tmp = some (rng, mem) := if_pos (by omega)
      exact ⟨rng, mem, hrun, List.Perm.refl _, hwidth, rfl, rfl, rfl, rfl, fun hn' => absurd hn' hn⟩
  · rw [shuffle, if_neg (by omega), if_pos hwide]

/-- Three elements of two bytes behind one byte that is not part of the array. -/
theorem shuffle_uniform_three :
    ∃ rng' mem', shuffle (seed 42 54) [0, 1, 1, 2, 2, 3, 3] 1 3 2 (Vector.replicate _ 0) =
        some (rng', mem') ∧
      (elements mem' 1 3 2).Perm [[1, 1], [2, 2], [3, 3]] := by
  obtain ⟨rng', mem', hrun, hperm, -⟩ := (shuffle_uniform (seed 42 54) [0, 1, 1, 2, 2, 3, 3] 1 3 2
    (by decide) (Vector.replicate _ 0)).1 (by decide)
  exact ⟨rng', mem', hrun, hperm⟩

end CBase.Rng
