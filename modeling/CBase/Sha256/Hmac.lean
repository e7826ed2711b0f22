import CBase.Sha256.Stream

/-!
# HMAC

`cb_hmac_sha256_ctx_t` holds the context of the inner hash, fed with the inner key pad, and the outer
key pad. Local arrays and contexts start with any contents.

* `hmac_rfc2104`: for every key and every list of chunks the tag is the outer hash over the inner one.
-/

namespace CBase.Sha256

def hmacIpad : UInt8 := 0x36

def hmacOpad : UInt8 := 0x5C

/-- `cb_hmac_sha256_ctx_t`. -/
structure HmacCtx where
  inner : Ctx
  outerKeyPad : List UInt8

/-- What the local variables hold before they are written. -/
structure Locals where
  blockKey : List UInt8
  ipad : List UInt8
  keyHash : Ctx
  outer : Ctx
  length_blockKey : blockKey.length = blockLen
  length_ipad : ipad.length = blockLen
  length_keyHash : keyHash.buffer.length = blockLen
  length_outer : outer.buffer.length = blockLen

/-- `cb__hmac_derive_block_key`. `ctx` is the local context of `cb_sha256`. -/
def deriveBlockKey (ctx : Ctx) (key outBlock : List UInt8) : Option (List UInt8) := do
  let outBlock ← Memory.blit outBlock 0 (List.replicate blockLen 0)
  if blockLen < key.length then
    let hashed ← sha256 ctx key
    Memory.blit outBlock 0 hashed
  else if 0 < key.length then Memory.blit outBlock 0 key
  else return outBlock

/-- `for (size_t i = 0; i < CB_SHA256_BLOCK_LEN; ++i) { ... }` of `cb_hmac_sha256_init`. -/
def padLoop (blockKey : List UInt8) :
    Nat → Nat → List UInt8 → List UInt8 → Option (List UInt8 × List UInt8)
  | 0, _, ipad, outerKeyPad => some (ipad, outerKeyPad)
  | n + 1, i, ipad, outerKeyPad => do
    let b ← Memory.load blockKey i
    let ipad ← Memory.store ipad i (b ^^^ hmacIpad)
    let outerKeyPad ← Memory.store outerKeyPad i (b ^^^ hmacOpad)
    padLoop blockKey n (i + 1) ipad outerKeyPad

/-- `cb_hmac_sha256_init`. -/
def hmacInit (locals : Locals) (ctx : HmacCtx) (key : List UInt8) : Option HmacCtx := do
  let blockKey ← deriveBlockKey locals.keyHash key locals.blockKey
  let (ipad, outerKeyPad) ← padLoop blockKey blockLen 0 locals.ipad ctx.outerKeyPad
  let inner ← update (init ctx.inner) ipad
  return { inner, outerKeyPad }

/-- `cb_hmac_sha256_update`. -/
def hmacUpdate (ctx : HmacCtx) (data : List UInt8) : Option HmacCtx := do
  let inner ← update ctx.inner data
  return { ctx with inner }

def HmacCtx.wiped : HmacCtx := ⟨.wiped, List.replicate blockLen 0⟩

/-- `cb_hmac_sha256_final`. -/
def hmacFinal (locals : Locals) (ctx : HmacCtx) : Option (List UInt8 × HmacCtx) := do
  let (innerDigest, inner) ← final ctx.inner
  let ctx := { ctx with inner }
  let outer ← update (init locals.outer) ctx.outerKeyPad
  let outer ← update outer innerDigest
  let (out, _) ← final outer
  return (out, .wiped)

/-- `cb_hmac_sha256`. `ctx` is the local context. -/
def hmacSha256 (locals : Locals) (ctx : HmacCtx) (key msg : List UInt8) : Option (List UInt8) := do
  let ctx ← hmacInit locals ctx key
  let ctx ← hmacUpdate ctx msg
  let (out, _) ← hmacFinal locals ctx
  return out

def hmacUpdates : HmacCtx → List (List UInt8) → Option HmacCtx
  | ctx, [] => some ctx
  | ctx, chunk :: chunks => do
    let ctx ← hmacUpdate ctx chunk
    hmacUpdates ctx chunks

/-! ## The construction -/

def zeroPad (x : List UInt8) : List UInt8 := x ++ List.replicate (blockLen - x.length) 0

def xorPad (pad : UInt8) (x : List UInt8) : List UInt8 := x.map (· ^^^ pad)

/-- The one-shot `cb_sha256` answers `hash` for `m`, whatever its local context holds. -/
def Hashes (m hash : List UInt8) : Prop :=
  ∀ ctx : Ctx, ctx.buffer.length = blockLen → sha256 ctx m = some hash

theorem hashes_finalDigest (m : List UInt8) : Hashes m (finalDigest m) := fun _ hctx => sha256_eq hctx m

theorem length_finalDigest (m : List UInt8) : (finalDigest m).length = 32 := rfl

/-- `K'` of the construction. -/
def blockKeyOf (key : List UInt8) : List UInt8 :=
  zeroPad (if key.length ≤ blockLen then key else finalDigest key)

theorem length_zeroPad {x : List UInt8} (h : x.length ≤ blockLen) : (zeroPad x).length = blockLen := by
  rw [zeroPad, List.length_append, List.length_replicate]
  omega

theorem length_blockKeyOf (key : List UInt8) : (blockKeyOf key).length = blockLen := by
  unfold blockKeyOf
  split_ifs with hshort
  · exact length_zeroPad hshort
  · exact length_zeroPad (by rw [length_finalDigest]; decide)

/-! ## The key -/

theorem blit_zeros {block : List UInt8} (hlen : block.length = blockLen) :
    Memory.blit block 0 (List.replicate blockLen 0) = some (List.replicate blockLen 0) := by
  have hfit : 0 + (List.replicate blockLen (0 : UInt8)).length ≤ block.length := by
    rw [List.length_replicate]
    omega
  rw [Memory.blit_of_le hfit, Memory.splice, List.take_zero, List.nil_append,
    List.drop_eq_nil_of_le (by rw [List.length_replicate]; omega), List.append_nil]

/-- A write over a block of zeros. -/
theorem blit_over_zeros {x : List UInt8} (h : x.length ≤ blockLen) :
    Memory.blit (List.replicate blockLen 0) 0 x = some (zeroPad x) := by
  rw [Memory.blit_of_le (by rw [List.length_replicate]; omega), Memory.splice, List.take_zero,
    List.nil_append, List.drop_replicate, Nat.zero_add, zeroPad]

theorem deriveBlockKey_eq {ctx : Ctx} (hctx : ctx.buffer.length = blockLen) {block : List UInt8}
    (hblock : block.length = blockLen) (key : List UInt8) :
    deriveBlockKey ctx key block = some (blockKeyOf key) := by
  unfold deriveBlockKey blockKeyOf
  simp only [blit_zeros hblock, sha256_eq hctx, Option.bind_eq_bind, Option.bind_some, Option.pure_def]
  by_cases hlong : blockLen < key.length
  · have hnot : ¬ key.length ≤ blockLen := by omega
    rw [if_pos hlong, if_neg hnot, blit_over_zeros (by rw [length_finalDigest]; decide)]
  · have hshort : key.length ≤ blockLen := by omega
    rw [if_neg hlong, if_pos hshort]
    by_cases hsome : 0 < key.length
    · rw [if_pos hsome, blit_over_zeros (by omega)]
    · obtain rfl : key = [] := List.eq_nil_of_length_eq_zero (by omega)
      rw [if_neg hsome]
      rfl

/-- The loop xors every byte of the block key from `i` on into both pads. -/
theorem padLoop_eq {blockKey : List UInt8} (n i : Nat) {ipad opad : List UInt8}
    (hkey : i + n = blockKey.length) (hipad : ipad.length = blockKey.length)
    (hopad : opad.length = blockKey.length) :
    padLoop blockKey n i ipad opad =
      some (ipad.take i ++ xorPad hmacIpad (blockKey.drop i),
        opad.take i ++ xorPad hmacOpad (blockKey.drop i)) := by
  induction n generalizing i ipad opad with
  | zero =>
    rw [padLoop, List.take_of_length_le (by omega), List.take_of_length_le (by omega),
      List.drop_eq_nil_of_le (by omega)]
    simp [xorPad]
  | succ n ih =>
    have hlt : i < blockKey.length := by omega
    have hload : Memory.load blockKey i = some blockKey[i] := List.getElem?_eq_getElem hlt
    have hgrow : ∀ (p : List UInt8) (x : UInt8), p.length = blockKey.length →
        (p.set i x).take (i + 1) = p.take i ++ [x] := by
      intro p x hp
      rw [Memory.set_eq_splice (by omega)]
      exact Memory.take_splice_end (x := [x]) (by omega)
    have hipadStore := Memory.store_of_lt (m := ipad) (i := i) (by omega) (blockKey[i] ^^^ hmacIpad)
    have hopadStore := Memory.store_of_lt (m := opad) (i := i) (by omega) (blockKey[i] ^^^ hmacOpad)
    have hrest := @ih (i + 1) (ipad.set i (blockKey[i] ^^^ hmacIpad))
      (opad.set i (blockKey[i] ^^^ hmacOpad)) (by omega) (by rw [List.length_set, hipad])
      (by rw [List.length_set, hopad])
    rw [hgrow _ _ hipad, hgrow _ _ hopad] at hrest
    simp only [padLoop, hload, hipadStore, hopadStore, Option.bind_eq_bind, Option.bind_some]
    rw [hrest, List.drop_eq_getElem_cons hlt]
    simp only [xorPad, List.map_cons, List.append_assoc, List.singleton_append]

/-! ## The runs -/

/-- The context has taken the key and the message `m`. -/
structure Keyed (ctx : HmacCtx) (key m : List UInt8) : Prop where
  inner : Represents ctx.inner (xorPad hmacIpad (blockKeyOf key) ++ m)
  outer : ctx.outerKeyPad = xorPad hmacOpad (blockKeyOf key)

theorem hmacInit_keyed (locals : Locals) {ctx : HmacCtx} (hinner : ctx.inner.buffer.length = blockLen)
    (houter : ctx.outerKeyPad.length = blockLen) (key : List UInt8) :
    ∃ ctx', hmacInit locals ctx key = some ctx' ∧ Keyed ctx' key [] := by
  have hlen := length_blockKeyOf key
  have hpads := @padLoop_eq (blockKeyOf key) blockLen 0 locals.ipad ctx.outerKeyPad (by omega)
    (by rw [locals.length_ipad, hlen]) (by rw [houter, hlen])
  rw [List.take_zero, List.take_zero, List.nil_append, List.nil_append, List.drop_zero] at hpads
  obtain ⟨inner, hupdate, hrep⟩ :=
    update_represents (init_represents hinner) (xorPad hmacIpad (blockKeyOf key))
  refine ⟨⟨inner, xorPad hmacOpad (blockKeyOf key)⟩, ?_, by rwa [List.append_nil], rfl⟩
  simp only [hmacInit, deriveBlockKey_eq locals.length_keyHash locals.length_blockKey, hpads, hupdate,
    Option.bind_eq_bind, Option.bind_some, Option.pure_def]

theorem hmacUpdate_keyed {ctx : HmacCtx} {key m : List UInt8} (h : Keyed ctx key m) (data : List UInt8) :
    ∃ ctx', hmacUpdate ctx data = some ctx' ∧ Keyed ctx' key (m ++ data) := by
  obtain ⟨inner, hupdate, hrep⟩ := update_represents h.inner data
  refine ⟨{ ctx with inner }, ?_, by rwa [← List.append_assoc], h.outer⟩
  simp only [hmacUpdate, hupdate, Option.bind_eq_bind, Option.bind_some, Option.pure_def]

theorem hmacUpdates_keyed {ctx : HmacCtx} {key m : List UInt8} (h : Keyed ctx key m)
    (chunks : List (List UInt8)) :
    ∃ ctx', hmacUpdates ctx chunks = some ctx' ∧ Keyed ctx' key (m ++ chunks.flatten) := by
  induction chunks generalizing ctx m with
  | nil => exact ⟨ctx, rfl, by simpa using h⟩
  | cons chunk chunks ih =>
    obtain ⟨ctx₁, hupdate, h₁⟩ := hmacUpdate_keyed h chunk
    obtain ⟨ctx', hupdates, h'⟩ := ih h₁
    exact ⟨ctx', by simp [hmacUpdates, hupdate, hupdates], by simpa using h'⟩

/-- The outer hash over the outer pad and the inner digest. The inner context is wiped before, but the
outer pad is not part of it. -/
theorem hmacFinal_keyed (locals : Locals) {ctx : HmacCtx} {key m : List UInt8} (h : Keyed ctx key m) :
    hmacFinal locals ctx = some (finalDigest (xorPad hmacOpad (blockKeyOf key) ++
      finalDigest (xorPad hmacIpad (blockKeyOf key) ++ m)), .wiped) := by
  obtain ⟨outer₁, hupdate₁, h₁⟩ :=
    update_represents (init_represents locals.length_outer) (xorPad hmacOpad (blockKeyOf key))
  obtain ⟨outer₂, hupdate₂, h₂⟩ :=
    update_represents h₁ (finalDigest (xorPad hmacIpad (blockKeyOf key) ++ m))
  rw [List.nil_append] at h₂
  simp only [hmacFinal, final_represents h.inner, h.outer, hupdate₁, hupdate₂, final_represents h₂,
    Option.bind_eq_bind, Option.bind_some, Option.pure_def]

/-! ## Main result -/

/-- The construction in terms of the one-shot `cb_sha256`, for the streaming functions on any chunks and
for the one-shot function. -/
theorem hmac_rfc2104 (locals : Locals) (ctx : HmacCtx) (hinner : ctx.inner.buffer.length = blockLen)
    (houter : ctx.outerKeyPad.length = blockLen) (key : List UInt8) (chunks : List (List UInt8)) :
    ∃ hashedKey innerDigest tag,
      Hashes key hashedKey ∧
      Hashes (xorPad 0x36 (zeroPad (if key.length ≤ 64 then key else hashedKey)) ++ chunks.flatten)
        innerDigest ∧
      Hashes (xorPad 0x5C (zeroPad (if key.length ≤ 64 then key else hashedKey)) ++ innerDigest) tag ∧
      (∃ keyed fed, hmacInit locals ctx key = some keyed ∧ hmacUpdates keyed chunks = some fed ∧
        hmacFinal locals fed = some (tag, .wiped)) ∧
      hmacSha256 locals ctx key chunks.flatten = some tag := by
  refine ⟨finalDigest key, finalDigest (xorPad hmacIpad (blockKeyOf key) ++ chunks.flatten),
    finalDigest (xorPad hmacOpad (blockKeyOf key) ++
      finalDigest (xorPad hmacIpad (blockKeyOf key) ++ chunks.flatten)),
    hashes_finalDigest _, hashes_finalDigest _, hashes_finalDigest _, ?_, ?_⟩
  · obtain ⟨keyed, hinit, hkeyed⟩ := hmacInit_keyed locals hinner houter key
    obtain ⟨fed, hupdates, hfed⟩ := hmacUpdates_keyed hkeyed chunks
    exact ⟨keyed, fed, hinit, hupdates, hmacFinal_keyed locals hfed⟩
  · obtain ⟨keyed, hinit, hkeyed⟩ := hmacInit_keyed locals hinner houter key
    obtain ⟨fed, hupdate, hfed⟩ := hmacUpdate_keyed hkeyed chunks.flatten
    simp only [hmacSha256, hinit, hupdate, hmacFinal_keyed locals hfed, Option.bind_eq_bind,
      Option.bind_some, Option.pure_def, List.nil_append]

def zeroLocals : Locals where
  blockKey := List.replicate blockLen 0
  ipad := List.replicate blockLen 0
  keyHash := .wiped
  outer := .wiped
  length_blockKey := rfl
  length_ipad := rfl
  length_keyHash := rfl
  length_outer := rfl

/-- A key of 65 bytes, which is hashed first, and a message in two chunks. -/
theorem hmac_rfc2104_long_key : ∃ tag keyed fed,
    hmacInit zeroLocals .wiped (List.replicate 65 1) = some keyed ∧
    hmacUpdates keyed [[97], [98, 99]] = some fed ∧ hmacFinal zeroLocals fed = some (tag, .wiped) := by
  obtain ⟨_, _, tag, -, -, -, ⟨keyed, fed, hinit, hupdates, hfinal⟩, -⟩ :=
    hmac_rfc2104 zeroLocals .wiped rfl rfl (List.replicate 65 1) [[97], [98, 99]]
  exact ⟨tag, keyed, fed, hinit, hupdates, hfinal⟩

end CBase.Sha256
