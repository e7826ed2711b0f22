import CBase.Info
import CBase.Lib.LittleEndian
import CBase.Lib.Memory

/-!
# Bounded writers and readers

A writer fills a caller's buffer from the front, a reader walks over one. Both remember the first
error in `info` and do nothing after it. `data` is the memory from the data pointer on, and `cap`,
`len` and `pos` are values of `size_t`.

An operation that would access memory outside of `data` has no result.
-/

namespace CBase.Bytes

open LittleEndian

structure Writer where
  info : Info
  data : List UInt8
  cap : Nat
  pos : Nat

structure Reader where
  info : Info
  data : List UInt8
  len : Nat
  pos : Nat

/-- The difference of two values of `size_t`. -/
def sizeSub (a b : Nat) : Nat := (a + 2 ^ 64 - b) % 2 ^ 64

/-! ## Writer -/

def writerInit (buf : List UInt8) (cap : Nat) : Writer := ⟨.ok, buf, cap, 0⟩

def wCheck (w : Writer) (n : Nat) : Info × Writer :=
  if w.info ≠ .ok then (w.info, w)
  else if w.cap < n ∨ w.cap - n < w.pos then
    (.bytesOutOfBounds, { w with info := .bytesOutOfBounds })
  else (.ok, w)

/-- `cb_bytes_write_bytes`. The empty string copies nothing. -/
def writeBytes (w : Writer) (src : List UInt8) : Option (Info × Writer) := do
  let (info, w) := wCheck w src.length
  if info ≠ .ok then return (info, w)
  let data ← if 0 < src.length then Memory.blit w.data w.pos src else some w.data
  return (.ok, { w with data, pos := w.pos + src.length })

/-- The integer writers: check, then store the `n` low bytes of the value. -/
def writeLe (n : Nat) (w : Writer) (v : UInt64) : Option (Info × Writer) := do
  let (info, w) := wCheck w n
  if info ≠ .ok then return (info, w)
  let data ← Memory.blit w.data w.pos (shiftBytes n v 0)
  return (.ok, { w with data, pos := w.pos + n })

def writeU8 (w : Writer) (v : UInt8) : Option (Info × Writer) := writeLe 1 w v.toUInt64

def writeU16Le (w : Writer) (v : UInt16) : Option (Info × Writer) := writeLe 2 w v.toUInt64

def writeU32Le (w : Writer) (v : UInt32) : Option (Info × Writer) := writeLe 4 w v.toUInt64

def writeU64Le (w : Writer) (v : UInt64) : Option (Info × Writer) := writeLe 8 w v

def writeI8 (w : Writer) (v : Int8) : Option (Info × Writer) := writeU8 w v.toUInt8

def writeI16Le (w : Writer) (v : Int16) : Option (Info × Writer) := writeU16Le w v.toUInt16

def writeI32Le (w : Writer) (v : Int32) : Option (Info × Writer) := writeU32Le w v.toUInt32

def writeI64Le (w : Writer) (v : Int64) : Option (Info × Writer) := writeU64Le w v.toUInt64

def writerLen (w : Writer) : Nat := w.pos

/-! ## Reader -/

def readerInit (buf : List UInt8) (len : Nat) : Reader := ⟨.ok, buf, len, 0⟩

def rCheck (r : Reader) (n : Nat) : Info × Reader :=
  if r.info ≠ .ok then (r.info, r)
  else if r.len < n ∨ r.len - n < r.pos then
    (.bytesOutOfBounds, { r with info := .bytesOutOfBounds })
  else (.ok, r)

/-- What a read stores in its out parameter, if it stores anything, with the returned info. -/
structure Answer (α : Type) where
  info : Info
  out : Option α

/-- A conversion of what is stored. -/
def Answer.map {α β : Type} (f : α → β) (a : Answer α) : Answer β := ⟨a.info, a.out.map f⟩

def readBytes (r : Reader) (n : Nat) : Option (Answer (List UInt8) × Reader) := do
  let (info, r) := rCheck r n
  if info ≠ .ok then return (⟨info, none⟩, r)
  let out ← if 0 < n then Memory.slice r.data r.pos n else some []
  return (⟨.ok, some out⟩, { r with pos := r.pos + n })

/-- The integer readers: check, then put `n` bytes together. -/
def readLe (n : Nat) (r : Reader) : Option (Answer UInt64 × Reader) := do
  let (info, r) := rCheck r n
  if info ≠ .ok then return (⟨info, none⟩, r)
  let bytes ← Memory.slice r.data r.pos n
  return (⟨.ok, some (orBytes bytes 0)⟩, { r with pos := r.pos + n })

/-- A read whose out parameter is converted. -/
def readAs {α β : Type} (f : α → β) (o : Option (Answer α × Reader)) :
    Option (Answer β × Reader) :=
  o.map fun x => (x.1.map f, x.2)

def readU8 (r : Reader) : Option (Answer UInt8 × Reader) := readAs UInt64.toUInt8 (readLe 1 r)

def readU16Le (r : Reader) : Option (Answer UInt16 × Reader) :=
  readAs UInt64.toUInt16 (readLe 2 r)

def readU32Le (r : Reader) : Option (Answer UInt32 × Reader) :=
  readAs UInt64.toUInt32 (readLe 4 r)

def readU64Le (r : Reader) : Option (Answer UInt64 × Reader) := readLe 8 r

def readI8 (r : Reader) : Option (Answer Int8 × Reader) := readAs UInt8.toInt8 (readU8 r)

def readI16Le (r : Reader) : Option (Answer Int16 × Reader) :=
  readAs UInt16.toInt16 (readU16Le r)

def readI32Le (r : Reader) : Option (Answer Int32 × Reader) :=
  readAs UInt32.toInt32 (readU32Le r)

def readI64Le (r : Reader) : Option (Answer Int64 × Reader) :=
  readAs UInt64.toInt64 (readU64Le r)

def readerRemaining (r : Reader) : Nat := if r.info ≠ .ok then 0 else r.len - r.pos

/-! ## Frames -/

/-- `cb_bytes_begin_frame_u16`. The middle component is `*out_mark`. -/
def beginFrameU16 (w : Writer) : Option (Info × Nat × Writer) := do
  if w.info ≠ .ok then return (w.info, 0, w)
  let mark := w.pos
  let (info, w) ← writeU16Le w 0
  if info ≠ .ok then return (info, 0, w)
  return (.ok, mark, w)

def endFrameU16 (w : Writer) (mark : Nat) : Option (Info × Writer) := do
  if w.info ≠ .ok then return (w.info, w)
  let body := sizeSub (sizeSub w.pos mark) 2
  -- the placeholder of the length stays as it is
  if 0xFFFF < body then return (.bytesFrameTooLarge, { w with info := .bytesFrameTooLarge })
  let len := UInt16.ofNat body
  let data ← Memory.blit w.data mark (shiftBytes 2 len.toUInt64 0)
  return (.ok, { w with data })

/-- `cb_bytes_read_frame_u16`. The out parameter is the sub-reader. -/
def readFrameU16 (r : Reader) : Option (Answer Reader × Reader) := do
  if r.info ≠ .ok then return (⟨r.info, none⟩, r)
  let savedPos := r.pos
  let (a, r) ← readU16Le r
  match a.out with
  | none => return (⟨a.info, none⟩, r)
  | some bodyLen =>
    let (info, r) := rCheck r bodyLen.toNat
    if info ≠ .ok then return (⟨info, none⟩, { r with pos := savedPos })
    let sub := readerInit (r.data.drop r.pos) bodyLen.toNat
    return (⟨.ok, some sub⟩, { r with pos := r.pos + bodyLen.toNat })

/-! ## What the operations do -/

/-- A writer without an error, over a buffer that is there. -/
structure Writer.Ready (w : Writer) : Prop where
  info : w.info = .ok
  pos : w.pos ≤ w.cap
  cap : w.cap ≤ w.data.length
  size : w.cap < 2 ^ 64

def Writer.put (w : Writer) (xs : List UInt8) : Writer :=
  { w with data := Memory.splice w.data w.pos xs, pos := w.pos + xs.length }

/-- A reader without an error, over memory that is there. -/
structure Reader.Ready (r : Reader) : Prop where
  info : r.info = .ok
  pos : r.pos ≤ r.len
  len : r.len ≤ r.data.length

def Reader.skip (r : Reader) (n : Nat) : Reader := { r with pos := r.pos + n }

/-- The bytes that the reader has not read. -/
def Reader.rest (r : Reader) : List UInt8 := (r.data.take r.len).drop r.pos

section Writer

variable {w : Writer} {xs ys : List UInt8} {n : Nat}

@[simp] theorem Writer.put_info : (w.put xs).info = w.info := rfl

@[simp] theorem Writer.put_cap : (w.put xs).cap = w.cap := rfl

@[simp] theorem Writer.put_pos : (w.put xs).pos = w.pos + xs.length := rfl

theorem Writer.put_nil : w.put [] = w := by
  simp [Writer.put]

theorem Writer.Ready.put (hw : w.Ready) (hroom : w.pos + xs.length ≤ w.cap) : (w.put xs).Ready := by
  refine ⟨hw.info, hroom, ?_, hw.size⟩
  have hcap := hw.cap
  rw [Writer.put_cap, show (w.put xs).data = Memory.splice w.data w.pos xs from rfl,
    Memory.length_splice (by omega)]
  exact hcap

theorem Writer.Ready.put_put (hw : w.Ready) : (w.put xs).put ys = w.put (xs ++ ys) := by
  have hpos : w.pos ≤ w.data.length := Nat.le_trans hw.pos hw.cap
  simp only [Writer.put, Memory.splice_splice hpos, List.length_append, Nat.add_assoc]

theorem wCheck_poisoned (hw : w.info ≠ .ok) : wCheck w n = (w.info, w) := if_pos hw

theorem wCheck_room (hw : w.Ready) (hroom : w.pos + n ≤ w.cap) : wCheck w n = (.ok, w) := by
  rw [wCheck, if_neg (by simp [hw.info]), if_neg (by omega)]

theorem wCheck_full (hw : w.Ready) (hfull : ¬ w.pos + n ≤ w.cap) :
    wCheck w n = (.bytesOutOfBounds, { w with info := .bytesOutOfBounds }) := by
  rw [wCheck, if_neg (by simp [hw.info]), if_pos (by omega)]

/-- What a writing operation of the bytes `xs` does: they are put when there is room, and otherwise
the writer is poisoned. A poisoned writer stays as it is. -/
structure Puts (f : Writer → Option (Info × Writer)) (xs : List UInt8) : Prop where
  room : ∀ w : Writer, w.Ready → w.pos + xs.length ≤ w.cap → f w = some (.ok, w.put xs)
  full : ∀ w : Writer, w.Ready → ¬ w.pos + xs.length ≤ w.cap →
    f w = some (.bytesOutOfBounds, { w with info := .bytesOutOfBounds })
  poisoned : ∀ w : Writer, w.info ≠ .ok → f w = some (w.info, w)

theorem writeLe_puts {n : Nat} (v : UInt64) :
    Puts (fun w => writeLe n w v) (shiftBytes n v 0) := by
  have hlen := length_shiftBytes n v 0
  refine ⟨fun w hw hroom => ?_, fun w hw hfull => ?_, fun w hw => ?_⟩
  · have hcap := hw.cap
    have hblit := Memory.blit_of_le (m := w.data) (x := shiftBytes n v 0) (i := w.pos) (by omega)
    simp [writeLe, wCheck_room hw (hlen ▸ hroom), hblit, Writer.put, hlen]
  · simp [writeLe, wCheck_full hw (hlen ▸ hfull)]
  · simp [writeLe, wCheck_poisoned hw, hw]

theorem writeBytes_puts (src : List UInt8) : Puts (fun w => writeBytes w src) src := by
  refine ⟨fun w hw hroom => ?_, fun w hw hfull => ?_, fun w hw => ?_⟩
  · have hcap := hw.cap
    rcases List.eq_nil_or_concat src with rfl | ⟨_, _, hsrc⟩
    · have hcheck : wCheck w 0 = (.ok, w) := wCheck_room hw hroom
      simp [writeBytes, hcheck, Writer.put]
    · have hpos : 0 < src.length := by simp [hsrc]
      have hblit := Memory.blit_of_le (m := w.data) (x := src) (i := w.pos) (by omega)
      simp [writeBytes, wCheck_room hw hroom, hpos, hblit, Writer.put]
  · simp [writeBytes, wCheck_full hw hfull]
  · simp [writeBytes, wCheck_poisoned hw, hw]

end Writer

section Reader

variable {r : Reader} {n : Nat}

@[simp] theorem Reader.skip_info : (r.skip n).info = r.info := rfl

@[simp] theorem Reader.skip_len : (r.skip n).len = r.len := rfl

@[simp] theorem Reader.skip_pos : (r.skip n).pos = r.pos + n := rfl

theorem Reader.skip_skip (r : Reader) (m n : Nat) : (r.skip m).skip n = r.skip (m + n) := by
  simp [Reader.skip, Nat.add_assoc]

theorem Reader.length_rest (hr : r.Ready) : r.rest.length = r.len - r.pos := by
  have hlen := hr.len
  rw [Reader.rest, List.length_drop, List.length_take, Nat.min_eq_left hlen]

theorem Reader.rest_skip : (r.skip n).rest = r.rest.drop n := by
  rw [Reader.rest, Reader.rest, List.drop_drop]
  rfl

theorem Reader.Ready.skip (hr : r.Ready) (hn : n ≤ r.rest.length) : (r.skip n).Ready := by
  rw [Reader.length_rest hr] at hn
  have hpos := hr.pos
  exact ⟨hr.info, by simp only [Reader.skip_pos, Reader.skip_len]; omega, hr.len⟩

theorem rCheck_room (hr : r.Ready) (hn : n ≤ r.rest.length) : rCheck r n = (.ok, r) := by
  rw [Reader.length_rest hr] at hn
  have hpos := hr.pos
  rw [rCheck, if_neg (by simp [hr.info]), if_neg (by omega)]

theorem rCheck_short (hr : r.Ready) (hn : ¬ n ≤ r.rest.length) :
    rCheck r n = (.bytesOutOfBounds, { r with info := .bytesOutOfBounds }) := by
  rw [Reader.length_rest hr] at hn
  have hpos := hr.pos
  rw [rCheck, if_neg (by simp [hr.info]), if_pos (by omega)]

theorem slice_rest (hr : r.Ready) (hn : n ≤ r.rest.length) :
    Memory.slice r.data r.pos n = some (r.rest.take n) := by
  rw [Reader.length_rest hr] at hn
  have hpos := hr.pos
  have hlen := hr.len
  rw [Memory.slice_of_le (by omega), Reader.rest, List.drop_take, List.take_take,
    Nat.min_eq_left hn]

/-- What a reading operation of `n` bytes does: it stores the value of the next `n` bytes, when
there are as many. -/
structure Gets {α : Type} (f : Reader → Option (Answer α × Reader)) (n : Nat)
    (value : List UInt8 → α) : Prop where
  room : ∀ r : Reader, r.Ready → n ≤ r.rest.length →
    f r = some (⟨.ok, some (value (r.rest.take n))⟩, r.skip n)
  short : ∀ r : Reader, r.Ready → ¬ n ≤ r.rest.length →
    f r = some (⟨.bytesOutOfBounds, none⟩, { r with info := .bytesOutOfBounds })

theorem readLe_gets (n : Nat) : Gets (readLe n) n fun bs => orBytes bs 0 := by
  refine ⟨fun r hr hn => ?_, fun r hr hn => ?_⟩
  · simp [readLe, rCheck_room hr hn, slice_rest hr hn, Reader.skip]
  · simp [readLe, rCheck_short hr hn]

theorem readBytes_gets (n : Nat) : Gets (fun r => readBytes r n) n id := by
  refine ⟨fun r hr hn => ?_, fun r hr hn => ?_⟩
  · rcases Nat.eq_zero_or_pos n with rfl | hpos
    · simp [readBytes, rCheck_room hr hn, Reader.skip]
    · simp [readBytes, rCheck_room hr hn, hpos, slice_rest hr hn, Reader.skip]
  · simp [readBytes, rCheck_short hr hn]

theorem Gets.readAs {α β : Type} {f : Reader → Option (Answer α × Reader)}
    {value : List UInt8 → α} (hf : Gets f n value) (g : α → β) :
    Gets (fun r => readAs g (f r)) n fun bs => g (value bs) :=
  ⟨fun r hr hn => by simp [Bytes.readAs, hf.room r hr hn, Answer.map],
    fun r hr hn => by simp [Bytes.readAs, hf.short r hr hn, Answer.map]⟩

end Reader

end CBase.Bytes
