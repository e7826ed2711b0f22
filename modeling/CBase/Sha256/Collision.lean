import CBase.Lib.MerkleDamgard
import CBase.Sha256.Hmac

/-!
# Collisions

The padding ends with the length of the message, so no padded message is the end of another one, and
a collision of the digest always comes from a collision of the block function.

1. `pad_last`: the last block of a padded message ends with the length.
2. `digest_collides`: two messages with one digest.
3. `sha256_collision`, `hmac_collision`: the same for the calls of the streaming functions.
-/

namespace CBase.Sha256

open Blocks MerkleDamgard

/-- Hashing the two messages runs the block function on two different arguments with one value. -/
def HashCollision (m m' : List UInt8) : Prop :=
  Collides compress h0 (blocks blockLen (pad m)) (blocks blockLen (pad m'))

/-! ## The padding -/

theorem blockLen_dvd_pad (m : List UInt8) : blockLen ∣ (pad m).length := by
  rw [length_pad]
  exact (zeroCount_least m.length).1

/-- The last block of the padded message ends with the length in bits. -/
theorem pad_last (m : List UInt8) : ∃ front last,
    blocks blockLen (pad m) = front ++ [last] ∧
    last.drop (blockLen - 8) = (LittleEndian.toBytes 8 (8 * m.length)).reverse := by
  have hlen := length_pad m
  have hblock : blockLen = 64 := rfl
  obtain ⟨front, last, hpad, hlast, hblocks⟩ :=
    exists_last blockLen_pos (blockLen_dvd_pad m) (by omega)
  refine ⟨_, last, hblocks, ?_⟩
  have hbytes : (LittleEndian.toBytes 8 (8 * m.length)).reverse.length = 8 := by simp
  have hsplit : (front ++ last.take (blockLen - 8)) ++ last.drop (blockLen - 8) =
      (m ++ 0x80 :: List.replicate (zeroCount m.length) 0) ++
        (LittleEndian.toBytes 8 (8 * m.length)).reverse := by
    rw [List.append_assoc, List.take_append_drop, ← hpad, pad]
  exact (List.append_inj' hsplit (by rw [List.length_drop, hlast, hbytes, hblock])).2

theorem lengthBytes_ne {n n' : Nat} (hn : n < 2 ^ 61) (hn' : n' < 2 ^ 61) (hne : n ≠ n') :
    (LittleEndian.toBytes 8 (8 * n)).reverse ≠ (LittleEndian.toBytes 8 (8 * n')).reverse := by
  intro h
  have hvalue := congrArg LittleEndian.ofBytes (List.reverse_inj.mp h)
  rw [LittleEndian.ofBytes_toBytes, LittleEndian.ofBytes_toBytes] at hvalue
  omega

/-- The padded blocks give back the message. -/
theorem eq_of_blocks_eq {m m' : List UInt8} (hlen : m.length = m'.length)
    (h : blocks blockLen (pad m) = blocks blockLen (pad m')) : m = m' := by
  have hpad := congrArg List.flatten h
  rw [flatten_blocks blockLen_pos (blockLen_dvd_pad m),
    flatten_blocks blockLen_pos (blockLen_dvd_pad m'), pad, pad, hlen] at hpad
  exact (List.append_inj (List.append_cancel_right hpad) hlen).1

/-! ## The digest -/

theorem wordBytes_injective : Function.Injective wordBytes := by
  intro x y h
  simp only [wordBytes, List.cons.injEq, ← UInt8.toNat_inj, UInt32.toNat_toUInt8,
    UInt32.toNat_shiftRight, Nat.shiftRight_eq_div_pow, UInt32.reduceToNat, Nat.reduceMod,
    Nat.reducePow, and_true] at h
  have hx := x.toNat_lt
  have hy := y.toNat_lt
  exact UInt32.toNat_inj.mp (by omega)

theorem emit_injective : Function.Injective emit := by
  rintro ⟨a, b, c, d, e, f, g, h⟩ ⟨a', b', c', d', e', f', g', h'⟩ heq
  have hword (x y : UInt32) (xs ys : List UInt8) (h : wordBytes x ++ xs = wordBytes y ++ ys) :
      x = y ∧ xs = ys := by
    obtain ⟨hxy, hrest⟩ := List.append_inj h rfl
    exact ⟨wordBytes_injective hxy, hrest⟩
  simp only [emit, List.flatMap_cons, List.flatMap_nil] at heq
  obtain ⟨ha, heq⟩ := hword _ _ _ _ heq
  obtain ⟨hb, heq⟩ := hword _ _ _ _ heq
  obtain ⟨hc, heq⟩ := hword _ _ _ _ heq
  obtain ⟨hd, heq⟩ := hword _ _ _ _ heq
  obtain ⟨he, heq⟩ := hword _ _ _ _ heq
  obtain ⟨hf, heq⟩ := hword _ _ _ _ heq
  obtain ⟨hg, heq⟩ := hword _ _ _ _ heq
  obtain ⟨hh, -⟩ := hword _ _ _ _ heq
  rw [ha, hb, hc, hd, he, hf, hg, hh]

/-- Two messages with one digest. -/
theorem digest_collides {m m' : List UInt8} (hlen : m.length < 2 ^ 61) (hlen' : m'.length < 2 ^ 61)
    (hne : m ≠ m') (h : digest m = digest m') : HashCollision m m' := by
  obtain ⟨front, last, hblocks, hlast⟩ := pad_last m
  obtain ⟨front', last', hblocks', hlast'⟩ := pad_last m'
  rw [digest, digest, ← emit_eq, ← emit_eq] at h
  refine collides ?_ (emit_injective h) fun hcount => ?_
  · intro hsame
    have hlasts : last = last' := by
      rw [hblocks, hblocks'] at hsame
      exact List.singleton_inj.mp (List.append_inj' hsame rfl).2
    by_cases hm : m.length = m'.length
    · exact hne (eq_of_blocks_eq hm hsame)
    · exact lengthBytes_ne hlen hlen' hm (by rw [← hlast, ← hlast', hlasts])
  · refine ⟨front, last, front', last', hblocks, hblocks', fun hlasts => ?_⟩
    refine lengthBytes_ne hlen hlen' (fun hm => hcount ?_) (by rw [← hlast, ← hlast', hlasts])
    rw [length_blocks, length_blocks, length_pad, length_pad, hm]

theorem finalDigest_collides {m m' : List UInt8} (hlen : m.length < 2 ^ 61)
    (hlen' : m'.length < 2 ^ 61) (hne : m ≠ m') (h : finalDigest m = finalDigest m') :
    HashCollision m m' := by
  rw [finalDigest_eq (by omega), finalDigest_eq (by omega)] at h
  exact digest_collides hlen hlen' hne h

/-! ## The streaming functions -/

/-- The chunks, fed to a new context, end in the digest `hash`. -/
def StreamsTo (chunks : List (List UInt8)) (hash : List UInt8) : Prop :=
  ∃ ctx c e : Ctx, ctx.buffer.length = blockLen ∧ updates (init ctx) chunks = some c ∧
    final c = some (hash, e)

/-- The chunks, fed to a context with this key, end in the tag `tag`. -/
def MacsTo (key : List UInt8) (chunks : List (List UInt8)) (tag : List UInt8) : Prop :=
  ∃ (locals : Locals) (ctx keyed fed e : HmacCtx), ctx.inner.buffer.length = blockLen ∧
    ctx.outerKeyPad.length = blockLen ∧ hmacInit locals ctx key = some keyed ∧
    hmacUpdates keyed chunks = some fed ∧ hmacFinal locals fed = some (tag, e)

theorem StreamsTo.eq {chunks : List (List UInt8)} {hash : List UInt8} (h : StreamsTo chunks hash) :
    hash = finalDigest chunks.flatten := by
  obtain ⟨ctx, c, e, hctx, hrun, hfinal⟩ := h
  obtain ⟨c', hrun', hrep⟩ := updates_represents (init_represents hctx) chunks
  obtain rfl : c = c' := Option.some.inj (hrun.symm.trans hrun')
  rw [final_represents hrep, List.nil_append] at hfinal
  exact (congrArg Prod.fst (Option.some.inj hfinal)).symm

theorem MacsTo.eq {key : List UInt8} {chunks : List (List UInt8)} {tag : List UInt8}
    (h : MacsTo key chunks tag) : tag = finalDigest (xorPad hmacOpad (blockKeyOf key) ++
      finalDigest (xorPad hmacIpad (blockKeyOf key) ++ chunks.flatten)) := by
  obtain ⟨locals, ctx, keyed, fed, e, hinner, houter, hinit, hrun, hfinal⟩ := h
  obtain ⟨keyed', hinit', hkeyed⟩ := hmacInit_keyed locals hinner houter key
  obtain rfl : keyed = keyed' := Option.some.inj (hinit.symm.trans hinit')
  obtain ⟨fed', hrun', hfed⟩ := hmacUpdates_keyed hkeyed chunks
  obtain rfl : fed = fed' := Option.some.inj (hrun.symm.trans hrun')
  rw [hmacFinal_keyed locals hfed, List.nil_append] at hfinal
  exact (congrArg Prod.fst (Option.some.inj hfinal)).symm

/-- Two streams of different contents have different digests, or the block function collides on the
way through the two messages. -/
theorem sha256_collision {chunks chunks' : List (List UInt8)} {hash hash' : List UInt8}
    (h : StreamsTo chunks hash) (h' : StreamsTo chunks' hash')
    (hlen : chunks.flatten.length < 2 ^ 61) (hlen' : chunks'.flatten.length < 2 ^ 61)
    (hne : chunks.flatten ≠ chunks'.flatten) :
    hash ≠ hash' ∨ HashCollision chunks.flatten chunks'.flatten := by
  by_cases hhash : hash = hash'
  · rw [h.eq, h'.eq] at hhash
    exact .inr (finalDigest_collides hlen hlen' hne hhash)
  · exact .inl hhash

theorem streamsTo_digest (chunks : List (List UInt8)) : ∃ hash, StreamsTo chunks hash := by
  obtain ⟨c, hrun, hrep⟩ := updates_represents (@init_represents .wiped rfl) chunks
  exact ⟨_, .wiped, c, _, rfl, hrun, final_represents hrep⟩

/-- A message and the same with one zero byte more. -/
theorem sha256_collision_zeros : ∃ hash hash', StreamsTo [[0]] hash ∧ StreamsTo [[0], [0]] hash' ∧
    (hash ≠ hash' ∨ HashCollision [0] [0, 0]) := by
  obtain ⟨hash, h⟩ := streamsTo_digest [[0]]
  obtain ⟨hash', h'⟩ := streamsTo_digest [[0], [0]]
  exact ⟨hash, hash', h, h', sha256_collision h h' (by decide) (by decide) (by decide)⟩

/-- Two messages under one key have different tags, or the block function collides on the way through
the inner or through the outer hashes. -/
theorem hmac_collision {key : List UInt8} {chunks chunks' : List (List UInt8)}
    {tag tag' : List UInt8} (h : MacsTo key chunks tag) (h' : MacsTo key chunks' tag')
    (hlen : chunks.flatten.length < 2 ^ 61 - 64) (hlen' : chunks'.flatten.length < 2 ^ 61 - 64)
    (hne : chunks.flatten ≠ chunks'.flatten) :
    tag ≠ tag' ∨
    HashCollision (xorPad hmacIpad (blockKeyOf key) ++ chunks.flatten)
      (xorPad hmacIpad (blockKeyOf key) ++ chunks'.flatten) ∨
    ∃ hash hash', Hashes (xorPad hmacIpad (blockKeyOf key) ++ chunks.flatten) hash ∧
      Hashes (xorPad hmacIpad (blockKeyOf key) ++ chunks'.flatten) hash' ∧
      HashCollision (xorPad hmacOpad (blockKeyOf key) ++ hash)
        (xorPad hmacOpad (blockKeyOf key) ++ hash') := by
  have hpad (pad : UInt8) (m : List UInt8) :
      (xorPad pad (blockKeyOf key) ++ m).length = 64 + m.length := by
    rw [List.length_append, xorPad, List.length_map, length_blockKeyOf]
    rfl
  have hinner (m : List UInt8) : (finalDigest m).length = 32 := length_finalDigest m
  by_cases htag : tag = tag'
  · right
    rw [h.eq, h'.eq] at htag
    by_cases hsame : finalDigest (xorPad hmacIpad (blockKeyOf key) ++ chunks.flatten) =
        finalDigest (xorPad hmacIpad (blockKeyOf key) ++ chunks'.flatten)
    · exact .inl (finalDigest_collides (by rw [hpad]; omega) (by rw [hpad]; omega)
        (fun heq => hne (List.append_cancel_left heq)) hsame)
    · exact .inr ⟨_, _, hashes_finalDigest _, hashes_finalDigest _,
        finalDigest_collides (by rw [hpad, hinner]; omega) (by rw [hpad, hinner]; omega)
          (fun heq => hsame (List.append_cancel_left heq)) htag⟩
  · exact .inl htag

theorem macsTo_tag (key : List UInt8) (chunks : List (List UInt8)) : ∃ tag, MacsTo key chunks tag := by
  obtain ⟨keyed, hinit, hkeyed⟩ := @hmacInit_keyed zeroLocals .wiped rfl rfl key
  obtain ⟨fed, hrun, hfed⟩ := hmacUpdates_keyed hkeyed chunks
  exact ⟨_, zeroLocals, .wiped, keyed, fed, _, rfl, rfl, hinit, hrun, hmacFinal_keyed zeroLocals hfed⟩

/-- The same two messages under a key of one byte. -/
theorem hmac_collision_zeros : ∃ tag tag', MacsTo [7] [[0]] tag ∧ MacsTo [7] [[0], [0]] tag' ∧
    (tag ≠ tag' ∨ HashCollision (xorPad hmacIpad (blockKeyOf [7]) ++ [0])
      (xorPad hmacIpad (blockKeyOf [7]) ++ [0, 0]) ∨
      ∃ hash hash', HashCollision (xorPad hmacOpad (blockKeyOf [7]) ++ hash)
        (xorPad hmacOpad (blockKeyOf [7]) ++ hash')) := by
  obtain ⟨tag, h⟩ := macsTo_tag [7] [[0]]
  obtain ⟨tag', h'⟩ := macsTo_tag [7] [[0], [0]]
  refine ⟨tag, tag', h, h', ?_⟩
  rcases hmac_collision h h' (by decide) (by decide) (by decide) with htag | hinner | houter
  · exact .inl htag
  · exact .inr (.inl hinner)
  · obtain ⟨hash, hash', -, -, hcollision⟩ := houter
    exact .inr (.inr ⟨hash, hash', hcollision⟩)

end CBase.Sha256
