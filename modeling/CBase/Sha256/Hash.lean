import CBase.Lib.Blocks
import CBase.Lib.Memory

/-!
# SHA-256

The block function and the streaming functions. The buffer is memory of 64 bytes, and a store
outside of it, or a block that is not there, leaves a call without a result.
-/

namespace CBase.Sha256

def blockLen : Nat := 64

/-- `cb__sha256_k`. -/
def k : List UInt32 := [
  0x428A2F98, 0x71374491, 0xB5C0FBCF, 0xE9B5DBA5,
  0x3956C25B, 0x59F111F1, 0x923F82A4, 0xAB1C5ED5,
  0xD807AA98, 0x12835B01, 0x243185BE, 0x550C7DC3,
  0x72BE5D74, 0x80DEB1FE, 0x9BDC06A7, 0xC19BF174,
  0xE49B69C1, 0xEFBE4786, 0x0FC19DC6, 0x240CA1CC,
  0x2DE92C6F, 0x4A7484AA, 0x5CB0A9DC, 0x76F988DA,
  0x983E5152, 0xA831C66D, 0xB00327C8, 0xBF597FC7,
  0xC6E00BF3, 0xD5A79147, 0x06CA6351, 0x14292967,
  0x27B70A85, 0x2E1B2138, 0x4D2C6DFC, 0x53380D13,
  0x650A7354, 0x766A0ABB, 0x81C2C92E, 0x92722C85,
  0xA2BFE8A1, 0xA81A664B, 0xC24B8B70, 0xC76C51A3,
  0xD192E819, 0xD6990624, 0xF40E3585, 0x106AA070,
  0x19A4C116, 0x1E376C08, 0x2748774C, 0x34B0BCB5,
  0x391C0CB3, 0x4ED8AA4A, 0x5B9CCA4F, 0x682E6FF3,
  0x748F82EE, 0x78A5636F, 0x84C87814, 0x8CC70208,
  0x90BEFFFA, 0xA4506CEB, 0xBEF9A3F7, 0xC67178F2]

/-- The eight words of the hash state. -/
structure State where
  a : UInt32
  b : UInt32
  c : UInt32
  d : UInt32
  e : UInt32
  f : UInt32
  g : UInt32
  h : UInt32
  deriving DecidableEq, Repr

/-- `cb__sha256_h0`. -/
def h0 : State where
  a := 0x6A09E667
  b := 0xBB67AE85
  c := 0x3C6EF372
  d := 0xA54FF53A
  e := 0x510E527F
  f := 0x9B05688C
  g := 0x1F83D9AB
  h := 0x5BE0CD19

/-- `cb__rotr32`, for `n` from 1 to 31. -/
def rotr32 (x n : UInt32) : UInt32 :=
  (x >>> n) ||| ((x.toUInt64 <<< (32 - n).toUInt64) &&& 0xFFFFFFFF).toUInt32

/-- `CB__CH`. -/
def ch (x y z : UInt32) : UInt32 := (x &&& y) ^^^ (~~~x &&& z)

/-- `CB__MAJ`. -/
def maj (x y z : UInt32) : UInt32 := (x &&& y) ^^^ (x &&& z) ^^^ (y &&& z)

def bsig0 (x : UInt32) : UInt32 := rotr32 x 2 ^^^ rotr32 x 13 ^^^ rotr32 x 22

def bsig1 (x : UInt32) : UInt32 := rotr32 x 6 ^^^ rotr32 x 11 ^^^ rotr32 x 25

def ssig0 (x : UInt32) : UInt32 := rotr32 x 7 ^^^ rotr32 x 18 ^^^ (x >>> 3)

def ssig1 (x : UInt32) : UInt32 := rotr32 x 17 ^^^ rotr32 x 19 ^^^ (x >>> 10)

/-- The big-endian word at `p`. -/
def beWord : List UInt8 → UInt32
  | p0 :: p1 :: p2 :: p3 :: _ =>
    (p0.toUInt32 <<< 24) ||| (p1.toUInt32 <<< 16) ||| (p2.toUInt32 <<< 8) ||| p3.toUInt32
  | _ => 0

/-- `w[0..15]`: the words of the block. -/
def blockWords (block : List UInt8) : List UInt32 :=
  (List.range 16).map fun i => beWord (block.drop (i * 4))

/-- `w[i]` for `i` from 16 on. -/
def nextWord (w : List UInt32) (i : Nat) : UInt32 :=
  ssig1 (w.getD (i - 2) 0) + w.getD (i - 7) 0 + ssig0 (w.getD (i - 15) 0) + w.getD (i - 16) 0

/-- `w[0..63]`. -/
def schedule (block : List UInt8) : List UInt32 :=
  (List.range' 16 48).foldl (fun w i => w ++ [nextWord w i]) (blockWords block)

/-- One round, with the constant `ki` and the word `wi`. -/
def round (s : State) (ki wi : UInt32) : State :=
  let t1 := s.h + bsig1 s.e + ch s.e s.f s.g + ki + wi
  let t2 := bsig0 s.a + maj s.a s.b s.c
  { a := t1 + t2, b := s.a, c := s.b, d := s.c, e := s.d + t1, f := s.e, g := s.f, h := s.g }

/-- `cb__sha256_compress`, on the 64 bytes of a block. -/
def compress (s : State) (block : List UInt8) : State :=
  let r := (k.zip (schedule block)).foldl (fun r x => round r x.1 x.2) s
  { a := s.a + r.a, b := s.b + r.b, c := s.c + r.c, d := s.d + r.d
    e := s.e + r.e, f := s.f + r.f, g := s.g + r.g, h := s.h + r.h }

/-- `cb_sha256_ctx_t`. -/
structure Ctx where
  state : State
  totalBits : UInt64
  buffer : List UInt8
  bufferLen : Nat

/-- `cb_sha256_init`. The buffer keeps what it holds. -/
def init (ctx : Ctx) : Ctx := { ctx with state := h0, totalBits := 0, bufferLen := 0 }

def compressAt (s : State) (p : List UInt8) : Option State := do
  let block ← Memory.slice p 0 blockLen
  return compress s block

def bulkLoop : Nat → State → List UInt8 → Option (State × List UInt8)
  | 0, s, p => some (s, p)
  | n + 1, s, p =>
    if blockLen ≤ p.length then do
      let s ← compressAt s p
      bulkLoop n s (p.drop blockLen)
    else some (s, p)

/-- The loop over the full blocks of the input. -/
def bulk (s : State) (p : List UInt8) : Option (State × List UInt8) := bulkLoop p.length s p

/-- The end of `cb_sha256_update`: the full blocks and the tail. -/
def updateBlocks (ctx : Ctx) (p : List UInt8) : Option Ctx := do
  let (state, p) ← bulk ctx.state p
  if 0 < p.length then
    let buffer ← Memory.blit ctx.buffer 0 p
    return { ctx with state, buffer, bufferLen := p.length }
  else return { ctx with state }

def update (ctx : Ctx) (data : List UInt8) : Option Ctx := do
  if data.length = 0 then return ctx
  let ctx := { ctx with totalBits := ctx.totalBits + UInt64.ofNat data.length * 8 }
  if 0 < ctx.bufferLen then
    -- the block in the buffer is completed first
    let need := blockLen - ctx.bufferLen
    if data.length < need then
      let buffer ← Memory.blit ctx.buffer ctx.bufferLen data
      return { ctx with buffer, bufferLen := ctx.bufferLen + data.length }
    else
      let buffer ← Memory.blit ctx.buffer ctx.bufferLen (data.take need)
      let state ← compressAt ctx.state buffer
      updateBlocks { ctx with state, buffer, bufferLen := 0 } (data.drop need)
  else updateBlocks ctx data

def zeroFillLoop (limit : Nat) : Nat → List UInt8 → Nat → Option (List UInt8 × Nat)
  | 0, buffer, len => some (buffer, len)
  | n + 1, buffer, len =>
    if len < limit then do
      let buffer ← Memory.store buffer len 0x00
      zeroFillLoop limit n buffer (len + 1)
    else some (buffer, len)

/-- `while (buffer_len < limit) buffer[buffer_len++] = 0x00;` -/
def zeroFill (limit : Nat) (buffer : List UInt8) (len : Nat) : Option (List UInt8 × Nat) :=
  zeroFillLoop limit limit buffer len

def bitBytes (bits : UInt64) : List UInt8 :=
  [(bits >>> 56).toUInt8, (bits >>> 48).toUInt8, (bits >>> 40).toUInt8, (bits >>> 32).toUInt8,
    (bits >>> 24).toUInt8, (bits >>> 16).toUInt8, (bits >>> 8).toUInt8, bits.toUInt8]

def wordBytes (x : UInt32) : List UInt8 :=
  [(x >>> 24).toUInt8, (x >>> 16).toUInt8, (x >>> 8).toUInt8, x.toUInt8]

/-- The bytes of the digest: big-endian words. -/
def emit (s : State) : List UInt8 :=
  [s.a, s.b, s.c, s.d, s.e, s.f, s.g, s.h].flatMap wordBytes

def Ctx.wiped : Ctx := ⟨⟨0, 0, 0, 0, 0, 0, 0, 0⟩, 0, List.replicate blockLen 0, 0⟩

def final (ctx : Ctx) : Option (List UInt8 × Ctx) := do
  let bits := ctx.totalBits
  let buffer ← Memory.store ctx.buffer ctx.bufferLen 0x80
  let len := ctx.bufferLen + 1
  let (state, buffer, len) ←
    -- no room for the length: the padding takes one more block
    if blockLen - 8 < len then do
      let (buffer, _) ← zeroFill blockLen buffer len
      let state ← compressAt ctx.state buffer
      pure (state, buffer, 0)
    else pure (ctx.state, buffer, len)
  let (buffer, _) ← zeroFill (blockLen - 8) buffer len
  let buffer ← Memory.blit buffer 56 (bitBytes bits)
  let state ← compressAt state buffer
  return (emit state, .wiped)

/-- `cb_sha256`. `ctx` is the local context, whose bytes are not initialised. -/
def sha256 (ctx : Ctx) (input : List UInt8) : Option (List UInt8) := do
  let ctx ← update (init ctx) input
  let (out, _) ← final ctx
  return out

def updates : Ctx → List (List UInt8) → Option Ctx
  | ctx, [] => some ctx
  | ctx, chunk :: chunks => do
    let ctx ← update ctx chunk
    updates ctx chunks

end CBase.Sha256
