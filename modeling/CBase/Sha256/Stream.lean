import CBase.Lib.LittleEndian
import CBase.Sha256.Hash

/-!
# Streaming

A context stands for the bytes it was fed: its state has absorbed their full blocks, and its buffer
holds the rest. So the digest is that of the concatenation, padded.

* `update_represents`: one chunk, through all four paths of `cb_sha256_update`.
* `final_represents`: the one-block and the two-block padding of `cb_sha256_final`.
* `streaming_digest`: every list of chunks.
-/

namespace CBase.Sha256

open Blocks

/-! ## The construction -/

/-- The number of zero bytes between the bit `1` and the length. -/
def zeroCount (n : Nat) : Nat := (119 - n % 64) % 64

/-- The message with its padding: the bit `1`, zeros, and the 64-bit big-endian bit length. -/
def pad (m : List UInt8) : List UInt8 :=
  m ++ 0x80 :: List.replicate (zeroCount m.length) 0 ++
    (LittleEndian.toBytes 8 (8 * m.length)).reverse

def State.bytes (s : State) : List UInt8 :=
  [s.a, s.b, s.c, s.d, s.e, s.f, s.g, s.h].flatMap fun x => (LittleEndian.toBytes 4 x.toNat).reverse

/-- The digest of a message: the block function folded over the blocks of the padded message. -/
def digest (m : List UInt8) : List UInt8 := ((blocks blockLen (pad m)).foldl compress h0).bytes

/-- The padded message consists of full blocks, and no smaller number of zeros achieves that. -/
theorem zeroCount_least (n : Nat) :
    blockLen ∣ n + 1 + zeroCount n + 8 ∧ ∀ z, blockLen ∣ n + 1 + z + 8 → zeroCount n ≤ z := by
  simp only [zeroCount, blockLen]
  constructor
  · omega
  · intro z hz
    omega

theorem length_pad (m : List UInt8) : (pad m).length = m.length + 1 + zeroCount m.length + 8 := by
  simp [pad]
  omega

theorem bitBytes_eq (bits : UInt64) :
    bitBytes bits = (LittleEndian.toBytes 8 bits.toNat).reverse := by
  have h := LittleEndian.shiftBytes_eq (n := 8) (s := 0) bits (by decide)
  rw [Nat.pow_zero, Nat.div_one] at h
  rw [← h]
  simp [LittleEndian.shiftBytes, bitBytes]

theorem wordBytes_eq (x : UInt32) : wordBytes x = (LittleEndian.toBytes 4 x.toNat).reverse := by
  have h := LittleEndian.shiftBytes_eq (n := 4) (s := 0) x.toUInt64 (by decide)
  rw [Nat.pow_zero, Nat.div_one, UInt32.toNat_toUInt64] at h
  rw [← h]
  have hbyte (n : UInt32) (hn : n.toNat < 32) :
      (x >>> n).toUInt8 = (x.toUInt64 >>> n.toUInt64).toUInt8 := by
    rw [← UInt8.toNat_inj, UInt32.toNat_toUInt8, UInt64.toNat_toUInt8, UInt32.toNat_shiftRight,
      UInt64.toNat_shiftRight, UInt32.toNat_toUInt64, UInt32.toNat_toUInt64, Nat.mod_eq_of_lt hn,
      Nat.mod_eq_of_lt (show n.toNat < 64 by omega)]
  simp [LittleEndian.shiftBytes, wordBytes, hbyte]

/-- `cb_sha256_final` writes the words big-endian. -/
theorem emit_eq (s : State) : emit s = s.bytes := by
  rw [emit, State.bytes, funext wordBytes_eq]

/-! ## Update -/

/-- The context has absorbed the message `m`. -/
structure Represents (ctx : Ctx) (m : List UInt8) : Prop where
  buffer : ctx.buffer.length = blockLen
  lt : ctx.bufferLen < blockLen
  absorbed : absorb compress blockLen h0 m = (ctx.state, ctx.buffer.take ctx.bufferLen)
  bits : ctx.totalBits = UInt64.ofNat (8 * m.length)

theorem blockLen_pos : 0 < blockLen := by decide

theorem init_represents {ctx : Ctx} (h : ctx.buffer.length = blockLen) :
    Represents (init ctx) [] :=
  ⟨h, blockLen_pos, rfl, rfl⟩

theorem compressAt_eq {s : State} {p : List UInt8} (h : blockLen ≤ p.length) :
    compressAt s p = some (compress s (p.take blockLen)) := by
  rw [compressAt, Memory.slice_of_le (by omega), List.drop_zero]
  rfl

theorem bulkLoop_eq (n : Nat) (s : State) (p : List UInt8) :
    bulkLoop n s p = some (absorbLoop compress blockLen n s p) := by
  induction n generalizing s p with
  | zero => rfl
  | succ n ih =>
    rw [bulkLoop, absorbLoop]
    split
    · next h => simp only [compressAt_eq h, Option.bind_eq_bind, Option.bind_some, ih]
    · rfl

theorem bulk_eq (s : State) (p : List UInt8) : bulk s p = some (absorb compress blockLen s p) :=
  bulkLoop_eq p.length s p

/-- The end of an update absorbs the input and stashes the tail. -/
theorem updateBlocks_absorb {ctx : Ctx} (hbuf : ctx.buffer.length = blockLen)
    (hlen : ctx.bufferLen = 0) (p : List UInt8) :
    ∃ ctx', updateBlocks ctx p = some ctx' ∧ ctx'.totalBits = ctx.totalBits ∧
      ctx'.buffer.length = blockLen ∧ ctx'.bufferLen < blockLen ∧
      absorb compress blockLen ctx.state p = (ctx'.state, ctx'.buffer.take ctx'.bufferLen) := by
  have hrest := length_absorb (f := compress) blockLen_pos ctx.state p
  have hlt := Nat.mod_lt p.length blockLen_pos
  obtain ⟨⟨state, rest⟩, habs⟩ : ∃ x, absorb compress blockLen ctx.state p = x := ⟨_, rfl⟩
  rw [habs] at hrest
  replace hrest : rest.length < blockLen := by
    rw [show rest.length = p.length % blockLen from hrest]
    exact hlt
  rcases Nat.eq_zero_or_pos rest.length with hzero | hpos
  · obtain rfl := List.eq_nil_of_length_eq_zero hzero
    refine ⟨{ ctx with state }, ?_, rfl, hbuf, by simp only [hlen]; exact blockLen_pos, ?_⟩
    · simp [updateBlocks, bulk_eq, habs]
    · simpa [hlen] using habs
  · have hblit := Memory.blit_of_le (m := ctx.buffer) (x := rest) (i := 0) (by omega)
    refine ⟨{ ctx with
      state, buffer := Memory.splice ctx.buffer 0 rest, bufferLen := rest.length },
      ?_, rfl, ?_, hrest, ?_⟩
    · simp [updateBlocks, bulk_eq, habs, hpos, hblit]
    · simp only
      rw [Memory.length_splice (by omega), hbuf]
    · have htake := Memory.take_splice_end (m := ctx.buffer) (x := rest) (Nat.zero_le _)
      rw [Nat.zero_add, List.take_zero, List.nil_append] at htake
      simpa only [htake] using habs

theorem bits_append (m data : List UInt8) :
    UInt64.ofNat (8 * m.length) + UInt64.ofNat data.length * 8 =
      UInt64.ofNat (8 * (m ++ data).length) := by
  refine UInt64.toNat_inj.mp ?_
  simp only [UInt64.toNat_add, UInt64.toNat_mul, UInt64.toNat_ofNat', List.length_append,
    UInt64.toNat_ofNat]
  omega

section Update

variable {ctx : Ctx} {m : List UInt8}

theorem Represents.length_take (h : Represents ctx m) :
    (ctx.buffer.take ctx.bufferLen).length = ctx.bufferLen := by
  have hbuf := h.buffer
  have hlt := h.lt
  rw [List.length_take]
  omega

/-- What follows is absorbed behind what is buffered. -/
theorem Represents.absorb_append (h : Represents ctx m) (data : List UInt8) :
    absorb compress blockLen h0 (m ++ data) =
      absorb compress blockLen ctx.state (ctx.buffer.take ctx.bufferLen ++ data) := by
  rw [Blocks.absorb_append blockLen_pos, h.absorbed]

theorem Represents.bits_append (h : Represents ctx m) (data : List UInt8) :
    ctx.totalBits + UInt64.ofNat data.length * 8 = UInt64.ofNat (8 * (m ++ data).length) := by
  rw [h.bits, Sha256.bits_append]

/-- A chunk for a context with nothing in its buffer. -/
theorem update_empty (h : Represents ctx m) {data : List UInt8} (hdata : 0 < data.length)
    (hempty : ctx.bufferLen = 0) :
    ∃ ctx', update ctx data = some ctx' ∧ Represents ctx' (m ++ data) := by
  obtain ⟨ctx', hrun, htotal, hbuf', hlt', habs⟩ := @updateBlocks_absorb
    { ctx with totalBits := ctx.totalBits + UInt64.ofNat data.length * 8 } h.buffer hempty data
  have hne : ¬ data.length = 0 := by omega
  have hnone : ¬ 0 < ctx.bufferLen := by omega
  refine ⟨ctx', by simp only [update, hne, hnone, if_false, hrun], hbuf', hlt', ?_,
    htotal.trans (h.bits_append data)⟩
  rw [h.absorb_append, hempty, List.take_zero, List.nil_append]
  exact habs

/-- A chunk that stays in the partial block. -/
theorem update_fits (h : Represents ctx m) {data : List UInt8} (hdata : 0 < data.length)
    (hsome : 0 < ctx.bufferLen) (hfits : data.length < blockLen - ctx.bufferLen) :
    ∃ ctx', update ctx data = some ctx' ∧ Represents ctx' (m ++ data) := by
  have hbuf := h.buffer
  have htake := h.length_take
  have hne : ¬ data.length = 0 := by omega
  have hblit := Memory.blit_of_le (m := ctx.buffer) (x := data) (i := ctx.bufferLen) (by omega)
  refine ⟨_, by simp [update, hne, hsome, hfits, hblit]; rfl, ?_, ?_, ?_, h.bits_append data⟩
  · simp only
    rw [Memory.length_splice (by omega), hbuf]
  · simp only
    omega
  · rw [h.absorb_append, absorb_of_lt (by rw [List.length_append, htake]; omega)]
    simp only [Memory.take_splice_end (m := ctx.buffer) (x := data)
      (show ctx.bufferLen ≤ ctx.buffer.length by omega)]

/-- A chunk that completes the partial block. -/
theorem update_completes (h : Represents ctx m) {data : List UInt8} (hdata : 0 < data.length)
    (hsome : 0 < ctx.bufferLen) (hfull : blockLen - ctx.bufferLen ≤ data.length) :
    ∃ ctx', update ctx data = some ctx' ∧ Represents ctx' (m ++ data) := by
  have hbuf := h.buffer
  have hlt := h.lt
  have htake := h.length_take
  have hne : ¬ data.length = 0 := by omega
  obtain ⟨front, back, rfl, hfront⟩ :=
    (lt_or_block (blockLen - ctx.bufferLen) data).resolve_left (by omega)
  have hblit := Memory.blit_of_le (m := ctx.buffer) (x := front) (i := ctx.bufferLen) (by omega)
  have hlen := Memory.length_splice (m := ctx.buffer) (x := front) (i := ctx.bufferLen) (by omega)
  have hblock : (Memory.splice ctx.buffer ctx.bufferLen front).take blockLen =
      ctx.buffer.take ctx.bufferLen ++ front := by
    rw [← Memory.take_splice_end (show ctx.bufferLen ≤ ctx.buffer.length by omega)]
    congr 1
    omega
  have hcompress := compressAt_eq (s := ctx.state)
    (p := Memory.splice ctx.buffer ctx.bufferLen front) (by omega)
  rw [hblock] at hcompress
  obtain ⟨ctx', hrun, htotal, hbuf', hlt', habs⟩ := @updateBlocks_absorb {
    state := compress ctx.state (ctx.buffer.take ctx.bufferLen ++ front)
    totalBits := ctx.totalBits + UInt64.ofNat (front ++ back).length * 8
    buffer := Memory.splice ctx.buffer ctx.bufferLen front
    bufferLen := 0 } (hlen.trans hbuf) rfl back
  refine ⟨ctx', ?_, hbuf', hlt', ?_, htotal.trans (h.bits_append _)⟩
  · have hge : ¬ (front ++ back).length < blockLen - ctx.bufferLen := by omega
    simp only [update, hne, hsome, hge, if_true, if_false, List.take_left' hfront,
      List.drop_left' hfront, hblit, hcompress, hrun, Option.bind_eq_bind, Option.bind_some]
  · rw [h.absorb_append, ← List.append_assoc, absorb_block blockLen_pos (by
      rw [List.length_append, htake]; omega)]
    exact habs

/-- One chunk. -/
theorem update_represents (h : Represents ctx m) (data : List UInt8) :
    ∃ ctx', update ctx data = some ctx' ∧ Represents ctx' (m ++ data) := by
  rcases Nat.eq_zero_or_pos data.length with hzero | hdata
  · obtain rfl := List.eq_nil_of_length_eq_zero hzero
    exact ⟨ctx, by simp [update], by rwa [List.append_nil]⟩
  rcases Nat.eq_zero_or_pos ctx.bufferLen with hempty | hsome
  · exact update_empty h hdata hempty
  rcases Nat.lt_or_ge data.length (blockLen - ctx.bufferLen) with hfits | hfull
  · exact update_fits h hdata hsome hfits
  · exact update_completes h hdata hsome hfull

end Update

theorem updates_represents {ctx : Ctx} {m : List UInt8} (h : Represents ctx m)
    (chunks : List (List UInt8)) :
    ∃ ctx', updates ctx chunks = some ctx' ∧ Represents ctx' (m ++ chunks.flatten) := by
  induction chunks generalizing ctx m with
  | nil => exact ⟨ctx, rfl, by simpa using h⟩
  | cons chunk chunks ih =>
    obtain ⟨ctx₁, hupdate, h₁⟩ := update_represents h chunk
    obtain ⟨ctx', hupdates, h'⟩ := ih h₁
    exact ⟨ctx', by simp [updates, hupdate, hupdates], by simpa using h'⟩

/-! ## Final -/

theorem zeroFillLoop_eq {limit n len : Nat} {buffer : List UInt8} (hlen : len ≤ limit)
    (hlimit : limit ≤ buffer.length) (hn : limit - len ≤ n) :
    zeroFillLoop limit n buffer len =
      some (Memory.splice buffer len (List.replicate (limit - len) 0), limit) := by
  induction n generalizing len buffer with
  | zero =>
    obtain rfl : len = limit := by omega
    rw [Nat.sub_self, List.replicate_zero, Memory.splice_nil]
    rfl
  | succ n ih =>
    rw [zeroFillLoop]
    split
    · next hlt =>
      have hstore := Memory.store_of_lt (m := buffer) (i := len) (by omega) (0x00 : UInt8)
      have hzeros : List.replicate (limit - len) (0 : UInt8) =
          [0] ++ List.replicate (limit - (len + 1)) 0 := by
        rw [show limit - len = limit - (len + 1) + 1 by omega, List.replicate_succ]
        rfl
      rw [hstore, Option.bind_eq_bind, Option.bind_some,
        ih (by omega) (by rw [List.length_set]; exact hlimit) (by omega),
        Memory.set_eq_splice (by omega), hzeros,
        ← Memory.splice_splice (show len ≤ buffer.length by omega), List.length_singleton]
    · next hge =>
      obtain rfl : len = limit := by omega
      rw [Nat.sub_self, List.replicate_zero, Memory.splice_nil]

theorem zeroFill_eq {limit len : Nat} {buffer : List UInt8} (hlen : len ≤ limit)
    (hlimit : limit ≤ buffer.length) :
    zeroFill limit buffer len =
      some (Memory.splice buffer len (List.replicate (limit - len) 0), limit) :=
  zeroFillLoop_eq hlen hlimit (by omega)

/-- Filling a buffer up to its end and compressing it. -/
theorem compressAt_splice {s : State} {b x : List UInt8} {n : Nat} (hbuf : b.length = blockLen)
    (hlen : n + x.length = blockLen) :
    compressAt s (Memory.splice b n x) = some (compress s (b.take n ++ x)) := by
  have hsplice := Memory.length_splice (m := b) (x := x) (i := n) (by omega)
  rw [compressAt_eq (by omega), ← Memory.take_splice_end (show n ≤ b.length by omega), hlen]

/-- A message with a padding that fills one or two blocks. -/
theorem digest_state {m tail : List UInt8} {s : State} {rest : List UInt8}
    (habs : absorb compress blockLen h0 m = (s, rest)) :
    ((blocks blockLen (m ++ tail)).foldl compress h0) =
      (absorb compress blockLen s (rest ++ tail)).1 := by
  rw [← absorb_eq_foldl blockLen_pos, absorb_append blockLen_pos, habs]

/-- The padding in the buffer after the message: `0x80` and zeros up to `limit`. -/
theorem zeroFill_marker {buffer : List UInt8} {len limit : Nat} (hlen : len + 1 ≤ limit)
    (hlimit : limit ≤ buffer.length) :
    zeroFill limit (Memory.splice buffer len [0x80]) (len + 1) =
      some (Memory.splice buffer len (0x80 :: List.replicate (limit - (len + 1)) 0), limit) := by
  have hstored := Memory.length_splice (m := buffer) (x := [(0x80 : UInt8)]) (i := len)
    (by simp only [List.length_singleton]; omega)
  have hjoin := Memory.splice_splice (m := buffer) (x := [(0x80 : UInt8)])
    (y := List.replicate (limit - (len + 1)) 0) (show len ≤ buffer.length by omega)
  rw [List.length_singleton] at hjoin
  rw [zeroFill_eq hlen (by omega), hjoin]
  rfl

/-- Writing the length behind `x`, which ends 8 bytes before the end of the block. -/
theorem blit_length {b x bits : List UInt8} {n : Nat} (hbuf : b.length = blockLen)
    (hx : n + x.length = blockLen - 8) (hbits : bits.length = 8) :
    Memory.blit (Memory.splice b n x) 56 bits = some (Memory.splice b n (x ++ bits)) := by
  have hblock : blockLen = 64 := rfl
  have hspliced := Memory.length_splice (m := b) (x := x) (i := n) (by omega)
  have hpos : 56 = n + x.length := by omega
  rw [Memory.blit_of_le (by omega), hpos, Memory.splice_splice (by omega)]

/-- The padding of a message whose last block has room for it. -/
theorem final_one {ctx : Ctx} (hbuf : ctx.buffer.length = blockLen)
    (hroom : ctx.bufferLen + 1 ≤ blockLen - 8) :
    final ctx = some (emit (compress ctx.state (ctx.buffer.take ctx.bufferLen ++
      (0x80 :: List.replicate (blockLen - 8 - (ctx.bufferLen + 1)) 0 ++ bitBytes ctx.totalBits))),
      .wiped) := by
  have hblock : blockLen = 64 := rfl
  have hbitsLen : (bitBytes ctx.totalBits).length = 8 := rfl
  have hone : ¬ blockLen - 8 < ctx.bufferLen + 1 := by omega
  have hstore := Memory.store_of_lt (m := ctx.buffer) (i := ctx.bufferLen) (by omega) (0x80 : UInt8)
  rw [Memory.set_eq_splice (by omega)] at hstore
  have hfill := @zeroFill_marker ctx.buffer ctx.bufferLen (blockLen - 8) hroom (by omega)
  have hblit := blit_length (n := ctx.bufferLen)
    (x := 0x80 :: List.replicate (blockLen - 8 - (ctx.bufferLen + 1)) 0) hbuf
    (by simp only [List.length_cons, List.length_replicate]; omega) hbitsLen
  have hlast := compressAt_splice (s := ctx.state) (n := ctx.bufferLen)
    (x := 0x80 :: List.replicate (blockLen - 8 - (ctx.bufferLen + 1)) 0 ++
      bitBytes ctx.totalBits) hbuf
    (by simp only [List.length_append, List.length_cons, List.length_replicate, hbitsLen]; omega)
  simp only [final, hstore, hone, if_false, hfill, Option.bind_eq_bind, Option.bind_some,
    Option.pure_def]
  rw [hblit, Option.bind_some, hlast, Option.bind_some]

/-- The padding of a message whose last block has no room for the length: that block is filled with
zeros, and another one starts. -/
theorem final_two {ctx : Ctx} (hbuf : ctx.buffer.length = blockLen) (hlt : ctx.bufferLen < blockLen)
    (hfull : blockLen - 8 < ctx.bufferLen + 1) :
    final ctx = some (emit (compress (compress ctx.state (ctx.buffer.take ctx.bufferLen ++
      0x80 :: List.replicate (blockLen - (ctx.bufferLen + 1)) 0))
      (List.replicate (blockLen - 8) 0 ++ bitBytes ctx.totalBits)), .wiped) := by
  have hblock : blockLen = 64 := rfl
  have hbitsLen : (bitBytes ctx.totalBits).length = 8 := rfl
  have hstore := Memory.store_of_lt (m := ctx.buffer) (i := ctx.bufferLen) (by omega) (0x80 : UInt8)
  rw [Memory.set_eq_splice (by omega)] at hstore
  have hfill := @zeroFill_marker ctx.buffer ctx.bufferLen blockLen (by omega) (by omega)
  have hpadLen : ctx.bufferLen + (0x80 :: List.replicate (blockLen - (ctx.bufferLen + 1))
      (0 : UInt8)).length = blockLen := by
    simp only [List.length_cons, List.length_replicate]
    omega
  have hfirst := compressAt_splice (s := ctx.state) hbuf hpadLen
  have hfilled := Memory.length_splice (m := ctx.buffer) (i := ctx.bufferLen)
    (x := 0x80 :: List.replicate (blockLen - (ctx.bufferLen + 1)) 0) (by omega)
  have hzeros := @zeroFill_eq (blockLen - 8) 0 _ (Nat.zero_le _)
    (show blockLen - 8 ≤ (Memory.splice ctx.buffer ctx.bufferLen
      (0x80 :: List.replicate (blockLen - (ctx.bufferLen + 1)) 0)).length by omega)
  have hblit := blit_length (x := List.replicate (blockLen - 8) 0) (n := 0)
    (hfilled.trans hbuf) (by simp) hbitsLen
  have hsecond := compressAt_splice (n := 0) (hfilled.trans hbuf)
    (s := compress ctx.state (ctx.buffer.take ctx.bufferLen ++
      0x80 :: List.replicate (blockLen - (ctx.bufferLen + 1)) 0))
    (x := List.replicate (blockLen - 8) 0 ++ bitBytes ctx.totalBits)
    (by simp only [List.length_append, List.length_replicate, hbitsLen]; omega)
  rw [Nat.sub_zero] at hzeros
  simp only [final, hstore, hfull, if_true, hfill, hfirst, hzeros, Option.bind_eq_bind,
    Option.bind_some, Option.pure_def]
  rw [hblit, Option.bind_some, hsecond, Option.bind_some, List.take_zero, List.nil_append]

/-- What `cb_sha256_final` answers after the message `m`. The bit count wraps. -/
def finalDigest (m : List UInt8) : List UInt8 :=
  emit ((blocks blockLen (m ++ (0x80 :: List.replicate (zeroCount m.length) 0 ++
    bitBytes (UInt64.ofNat (8 * m.length))))).foldl compress h0)

/-- While the bit count does not wrap, that is the digest. -/
theorem finalDigest_eq {m : List UInt8} (hlen : 8 * m.length < 2 ^ 64) : finalDigest m = digest m := by
  have hbits : bitBytes (UInt64.ofNat (8 * m.length)) =
      (LittleEndian.toBytes 8 (8 * m.length)).reverse := by
    rw [bitBytes_eq, UInt64.toNat_ofNat', Nat.mod_eq_of_lt hlen]
  rw [finalDigest, digest, pad, hbits, List.append_assoc, emit_eq]

/-- `cb_sha256_final`, by one block of padding or by two. -/
theorem final_represents {ctx : Ctx} {m : List UInt8} (h : Represents ctx m) :
    final ctx = some (finalDigest m, .wiped) := by
  have hblock : blockLen = 64 := rfl
  have hbuf := h.buffer
  have hlt := h.lt
  have htake := h.length_take
  have hmod : m.length % 64 = ctx.bufferLen := by
    have hrest := length_absorb (f := compress) blockLen_pos h0 m
    rw [h.absorbed] at hrest
    exact hrest.symm.trans htake
  have hbitsLen : (bitBytes ctx.totalBits).length = 8 := rfl
  rw [finalDigest, digest_state h.absorbed, ← h.bits, zeroCount, hmod]
  rcases Nat.lt_or_ge (blockLen - 8) (ctx.bufferLen + 1) with hfull | hroom
  · rw [final_two hbuf hlt hfull]
    have htail : ctx.buffer.take ctx.bufferLen ++ (0x80 ::
        List.replicate ((119 - ctx.bufferLen) % 64) 0 ++ bitBytes ctx.totalBits) =
        (ctx.buffer.take ctx.bufferLen ++
          0x80 :: List.replicate (blockLen - (ctx.bufferLen + 1)) 0) ++
        ((List.replicate (blockLen - 8) 0 ++ bitBytes ctx.totalBits) ++ []) := by
      have hcount : (119 - ctx.bufferLen) % 64 =
          (blockLen - (ctx.bufferLen + 1)) + (blockLen - 8) := by omega
      rw [hcount, ← List.replicate_append_replicate]
      simp only [List.append_assoc, List.cons_append, List.append_nil]
    rw [htail, absorb_block blockLen_pos (by
        simp only [List.length_append, List.length_cons, List.length_replicate]; omega),
      absorb_block blockLen_pos (by
        simp only [List.length_append, List.length_replicate, hbitsLen]; omega),
      absorb_of_lt blockLen_pos]
  · rw [final_one hbuf hroom]
    have hcount : (119 - ctx.bufferLen) % 64 = blockLen - 8 - (ctx.bufferLen + 1) := by omega
    have habs := absorb_block (f := compress) (s := ctx.state) (x := []) blockLen_pos
      (b := ctx.buffer.take ctx.bufferLen ++ (0x80 ::
        List.replicate (blockLen - 8 - (ctx.bufferLen + 1)) 0 ++ bitBytes ctx.totalBits)) (by
        simp only [List.length_append, List.length_cons, List.length_replicate, hbitsLen]; omega)
    rw [List.append_nil] at habs
    rw [hcount, habs, absorb_of_lt blockLen_pos]

theorem final_digest {ctx : Ctx} {m : List UInt8} (h : Represents ctx m)
    (hlen : 8 * m.length < 2 ^ 64) : final ctx = some (digest m, .wiped) := by
  rw [final_represents h, finalDigest_eq hlen]

/-- `cb_sha256` on any message and any contents of its local context. -/
theorem sha256_eq {ctx : Ctx} (hctx : ctx.buffer.length = blockLen) (m : List UInt8) :
    sha256 ctx m = some (finalDigest m) := by
  obtain ⟨c, hrun, hrep⟩ := update_represents (init_represents hctx) m
  simp only [sha256, hrun, final_represents hrep, Option.bind_eq_bind, Option.bind_some,
    Option.pure_def, List.nil_append]

/-! ## Every list of chunks -/

/-- **Streaming equals the construction.** Feeding any chunks to a new context and finishing it
answers the digest of their concatenation, and so does the one-shot function. No call stores outside
the buffer, and after every chunk less than a block is buffered. -/
theorem streaming_digest (ctx ctx' : Ctx) (hctx : ctx.buffer.length = blockLen)
    (hctx' : ctx'.buffer.length = blockLen) (chunks : List (List UInt8))
    (hlen : chunks.flatten.length < 2 ^ 61) :
    (∃ c, updates (init ctx) chunks = some c ∧
      final c = some (digest chunks.flatten, .wiped)) ∧
    sha256 ctx' chunks.flatten = some (digest chunks.flatten) ∧
    (∀ before after, chunks = before ++ after →
      ∃ c, updates (init ctx) before = some c ∧ c.bufferLen < blockLen) ∧
    (blockLen ∣ (pad chunks.flatten).length ∧
      ∀ z, blockLen ∣ chunks.flatten.length + 1 + z + 8 → zeroCount chunks.flatten.length ≤ z) := by
  have hbits : 8 * chunks.flatten.length < 2 ^ 64 := by omega
  refine ⟨?_, ?_, fun before after _ => ?_, ?_, (zeroCount_least _).2⟩
  · obtain ⟨c, hrun, hrep⟩ := updates_represents (init_represents hctx) chunks
    exact ⟨c, hrun, final_digest hrep hbits⟩
  · rw [sha256_eq hctx', finalDigest_eq hbits]
  · obtain ⟨c, hrun, hrep⟩ := updates_represents (init_represents hctx) before
    exact ⟨c, hrun, hrep.lt⟩
  · rw [length_pad]
    exact (zeroCount_least _).1

/-- Two chunks whose total of 56 bytes leaves no room for the length in their block. -/
theorem streaming_digest_two_blocks : ∃ c,
    updates (init .wiped) [List.replicate 40 97, List.replicate 16 97] = some c ∧
    final c = some (digest (List.replicate 56 97), .wiped) :=
  (streaming_digest .wiped .wiped rfl rfl [List.replicate 40 97, List.replicate 16 97]
    (by decide)).1

end CBase.Sha256
