import CBase.Bytes.Buffers

/-!
# Items with nested frames

Trees of items (integers, byte strings, and frames that hold items), written with a writer and read
back by the same shape. A frame is written with a placeholder that is patched when its body is
there, so what a writer does to the buffer is stated for whole trees: it puts `encode` there.

* `writeItems_room`, `writeItems_full`: what writing a tree does.
* `readItems_encode`: reading an encoding returns the tree.
* `readItems_sound`: whatever a shape reads is the encoding of what it returns.
* `codec_round_trip`: the two directions, for every tree, every buffer and every byte string.
-/

namespace CBase.Bytes

open LittleEndian

inductive IntType where
  | u8 | u16 | u32 | u64 | i8 | i16 | i32 | i64
  deriving DecidableEq, Repr

inductive Scalar where
  | u8 (v : UInt8)
  | u16 (v : UInt16)
  | u32 (v : UInt32)
  | u64 (v : UInt64)
  | i8 (v : Int8)
  | i16 (v : Int16)
  | i32 (v : Int32)
  | i64 (v : Int64)
  deriving DecidableEq

/-- What is written: an integer, a byte string, or a frame of items. -/
inductive Item where
  | scalar (s : Scalar)
  | bytes (xs : List UInt8)
  | frame (items : List Item)

/-- What is read: an integer, a byte string of a length, or a frame of shapes. -/
inductive Shape where
  | scalar (t : IntType)
  | bytes (n : Nat)
  | frame (shapes : List Shape)

def Scalar.type : Scalar → IntType
  | .u8 _ => .u8
  | .u16 _ => .u16
  | .u32 _ => .u32
  | .u64 _ => .u64
  | .i8 _ => .i8
  | .i16 _ => .i16
  | .i32 _ => .i32
  | .i64 _ => .i64

mutual

def Item.shape : Item → Shape
  | .scalar s => .scalar s.type
  | .bytes xs => .bytes xs.length
  | .frame items => .frame (shapes items)

def shapes : List Item → List Shape
  | [] => []
  | item :: items => item.shape :: shapes items

end

/-! ## Writing -/

def writeScalar (w : Writer) : Scalar → Option (Info × Writer)
  | .u8 v => writeU8 w v
  | .u16 v => writeU16Le w v
  | .u32 v => writeU32Le w v
  | .u64 v => writeU64Le w v
  | .i8 v => writeI8 w v
  | .i16 v => writeI16Le w v
  | .i32 v => writeI32Le w v
  | .i64 v => writeI64Le w v

mutual

/-- Write an item, without looking at the infos that the operations return: the writer keeps the
first error. -/
def writeItem (w : Writer) : Item → Option Writer
  | .scalar s => (writeScalar w s).map Prod.snd
  | .bytes xs => (writeBytes w xs).map Prod.snd
  | .frame items => do
    let (_, mark, w) ← beginFrameU16 w
    let w ← writeItems w items
    let (_, w) ← endFrameU16 w mark
    return w

def writeItems (w : Writer) : List Item → Option Writer
  | [] => some w
  | item :: items => do
    let w ← writeItem w item
    writeItems w items

end

/-! ## Reading -/

def readScalar (r : Reader) : IntType → Option (Answer Scalar × Reader)
  | .u8 => readAs .u8 (readU8 r)
  | .u16 => readAs .u16 (readU16Le r)
  | .u32 => readAs .u32 (readU32Le r)
  | .u64 => readAs .u64 (readU64Le r)
  | .i8 => readAs .i8 (readI8 r)
  | .i16 => readAs .i16 (readI16Le r)
  | .i32 => readAs .i32 (readI32Le r)
  | .i64 => readAs .i64 (readI64Le r)

/-- The result of a read that reported success. -/
def accept {α : Type} (x : Answer α × Reader) : Option (α × Reader) :=
  if x.1.info = .ok then x.1.out.map fun v => (v, x.2) else none

mutual

/-- Read an item of a shape. There is no result when a read reports an error, or when the sub-reader
of a frame is not consumed to its end. -/
def readItem (r : Reader) : Shape → Option (Item × Reader)
  | .scalar t => do
    let (s, r) ← accept (← readScalar r t)
    return (.scalar s, r)
  | .bytes n => do
    let (xs, r) ← accept (← readBytes r n)
    return (.bytes xs, r)
  | .frame shapes => do
    let (sub, r) ← accept (← readFrameU16 r)
    let (items, sub) ← readItems sub shapes
    if sub.info = .ok ∧ readerRemaining sub = 0 then return (.frame items, r) else none

def readItems (r : Reader) : List Shape → Option (List Item × Reader)
  | [] => some ([], r)
  | shape :: shapes => do
    let (item, r) ← readItem r shape
    let (items, r) ← readItems r shapes
    return (item :: items, r)

end

/-! ## The format -/

def Scalar.encode : Scalar → List UInt8
  | .u8 v => shiftBytes 1 v.toUInt64 0
  | .u16 v => shiftBytes 2 v.toUInt64 0
  | .u32 v => shiftBytes 4 v.toUInt64 0
  | .u64 v => shiftBytes 8 v 0
  | .i8 v => shiftBytes 1 v.toUInt8.toUInt64 0
  | .i16 v => shiftBytes 2 v.toUInt16.toUInt64 0
  | .i32 v => shiftBytes 4 v.toUInt32.toUInt64 0
  | .i64 v => shiftBytes 8 v.toUInt64 0

def IntType.width : IntType → Nat
  | .u8 | .i8 => 1
  | .u16 | .i16 => 2
  | .u32 | .i32 => 4
  | .u64 | .i64 => 8

/-- The integer with these bytes. -/
def IntType.decode (t : IntType) (bs : List UInt8) : Scalar :=
  let v := orBytes bs 0
  match t with
  | .u8 => .u8 v.toUInt8
  | .u16 => .u16 v.toUInt16
  | .u32 => .u32 v.toUInt32
  | .u64 => .u64 v
  | .i8 => .i8 v.toUInt8.toInt8
  | .i16 => .i16 v.toUInt16.toInt16
  | .i32 => .i32 v.toUInt32.toInt32
  | .i64 => .i64 v.toInt64

/-- The length prefix of a frame with a body of `n` bytes. -/
def framePrefix (n : Nat) : List UInt8 := shiftBytes 2 (UInt16.ofNat n).toUInt64 0

mutual

def Item.encode : Item → List UInt8
  | .scalar s => s.encode
  | .bytes xs => xs
  | .frame items => framePrefix (encode items).length ++ encode items

/-- The bytes of a list of items. -/
def encode : List Item → List UInt8
  | [] => []
  | item :: items => item.encode ++ encode items

end

mutual

/-- Every frame of the item has a length that its prefix can hold. -/
def Item.Framed : Item → Prop
  | .scalar _ => True
  | .bytes _ => True
  | .frame items => Framed items ∧ (encode items).length ≤ 0xFFFF

/-- The same for a list of items. -/
def Framed : List Item → Prop
  | [] => True
  | item :: items => item.Framed ∧ Framed items

end

theorem length_framePrefix (n : Nat) : (framePrefix n).length = 2 := length_shiftBytes ..

theorem Scalar.length_encode (s : Scalar) : s.encode.length = s.type.width := by
  cases s <;> exact length_shiftBytes ..

theorem IntType.decode_encode (s : Scalar) : s.type.decode s.encode = s := by
  cases s with
  | u8 v =>
    have hv : v.toUInt64.toNat < 256 ^ 1 := v.toNat_lt
    simp [Scalar.encode, Scalar.type, IntType.decode, orBytes_shiftBytes (n := 1) (by decide) hv]
  | u16 v =>
    have hv : v.toUInt64.toNat < 256 ^ 2 := v.toNat_lt
    simp [Scalar.encode, Scalar.type, IntType.decode, orBytes_shiftBytes (by decide) hv]
  | u32 v =>
    have hv : v.toUInt64.toNat < 256 ^ 4 := v.toNat_lt
    simp [Scalar.encode, Scalar.type, IntType.decode, orBytes_shiftBytes (by decide) hv]
  | u64 v =>
    have hv : v.toNat < 256 ^ 8 := v.toNat_lt
    simp [Scalar.encode, Scalar.type, IntType.decode, orBytes_shiftBytes (by decide) hv]
  | i8 v =>
    have hv : v.toUInt8.toUInt64.toNat < 256 ^ 1 := v.toUInt8.toNat_lt
    simp [Scalar.encode, Scalar.type, IntType.decode, orBytes_shiftBytes (by decide) hv]
  | i16 v =>
    have hv : v.toUInt16.toUInt64.toNat < 256 ^ 2 := v.toUInt16.toNat_lt
    simp [Scalar.encode, Scalar.type, IntType.decode, orBytes_shiftBytes (by decide) hv]
  | i32 v =>
    have hv : v.toUInt32.toUInt64.toNat < 256 ^ 4 := v.toUInt32.toNat_lt
    simp [Scalar.encode, Scalar.type, IntType.decode, orBytes_shiftBytes (by decide) hv]
  | i64 v =>
    have hv : v.toUInt64.toNat < 256 ^ 8 := v.toUInt64.toNat_lt
    simp [Scalar.encode, Scalar.type, IntType.decode, orBytes_shiftBytes (by decide) hv]

theorem toUInt8_toUInt64 {v : UInt64} (hv : v.toNat < 256 ^ 1) : v.toUInt8.toUInt64 = v := by
  refine UInt64.toNat_inj.mp ?_
  rw [UInt8.toNat_toUInt64, UInt64.toNat_toUInt8]
  omega

theorem toUInt16_toUInt64 {v : UInt64} (hv : v.toNat < 256 ^ 2) : v.toUInt16.toUInt64 = v := by
  refine UInt64.toNat_inj.mp ?_
  rw [UInt16.toNat_toUInt64, UInt64.toNat_toUInt16]
  omega

theorem toUInt32_toUInt64 {v : UInt64} (hv : v.toNat < 256 ^ 4) : v.toUInt32.toUInt64 = v := by
  refine UInt64.toNat_inj.mp ?_
  rw [UInt32.toNat_toUInt64, UInt64.toNat_toUInt32]
  omega

/-- Every string of the right length is the bytes of the integer it decodes to. -/
theorem IntType.encode_decode {t : IntType} {bs : List UInt8} (h : bs.length = t.width) :
    (t.decode bs).encode = bs ∧ (t.decode bs).type = t := by
  have hwidth : bs.length ≤ 8 := by
    rw [h]
    cases t <;> decide
  have hlt := orBytes_lt hwidth
  have hbytes := shiftBytes_orBytes hwidth
  rw [h] at hlt hbytes
  cases t <;>
    simp only [IntType.decode, Scalar.encode, Scalar.type, IntType.width, UInt8.toUInt8_toInt8,
      UInt16.toUInt16_toInt16, UInt32.toUInt32_toInt32, UInt64.toUInt64_toInt64, and_true]
      at hlt hbytes ⊢
  case u8 | i8 => rw [toUInt8_toUInt64 hlt, hbytes]
  case u16 | i16 => rw [toUInt16_toUInt64 hlt, hbytes]
  case u32 | i32 => rw [toUInt32_toUInt64 hlt, hbytes]
  case u64 | i64 => rw [hbytes]

/-! ## What writing does -/

theorem writeScalar_puts (s : Scalar) : Puts (fun w => writeScalar w s) s.encode := by
  cases s <;> exact writeLe_puts _

section Writing

variable {w : Writer} {xs : List UInt8}

theorem beginFrame_room (hw : w.Ready) (hroom : w.pos + 2 ≤ w.cap) :
    beginFrameU16 w = some (.ok, w.pos, w.put (framePrefix 0)) := by
  have hput := (writeLe_puts (n := 2) 0).room w hw (by rwa [length_shiftBytes])
  have hwrite : writeU16Le w 0 = some (.ok, w.put (framePrefix 0)) := hput
  simp [beginFrameU16, hw.info, hwrite]

theorem beginFrame_full (hw : w.Ready) (hfull : ¬ w.pos + 2 ≤ w.cap) :
    beginFrameU16 w = some (.bytesOutOfBounds, 0, { w with info := .bytesOutOfBounds }) := by
  have hput := (writeLe_puts (n := 2) 0).full w hw (by rwa [length_shiftBytes])
  have hwrite : writeU16Le w 0 =
      some (.bytesOutOfBounds, { w with info := .bytesOutOfBounds }) := hput
  simp [beginFrameU16, hw.info, hwrite]

/-- The length of the body is what lies behind the two bytes of the prefix. -/
theorem frame_body (hw : w.Ready) (hroom : w.pos + (2 + xs.length) ≤ w.cap) :
    sizeSub (sizeSub (w.pos + (2 + xs.length)) w.pos) 2 = xs.length := by
  have hsize := hw.size
  simp only [sizeSub]
  omega

/-- Ending a frame replaces the placeholder by the length of the body. -/
theorem endFrame_put (hw : w.Ready) (hroom : w.pos + (2 + xs.length) ≤ w.cap)
    (hlen : xs.length ≤ 0xFFFF) :
    endFrameU16 (w.put (framePrefix 0 ++ xs)) w.pos =
      some (.ok, w.put (framePrefix xs.length ++ xs)) := by
  have hcap := hw.cap
  have hpos : w.pos ≤ w.data.length := by omega
  have hsame : (framePrefix xs.length).length = (framePrefix 0).length := by
    rw [length_framePrefix, length_framePrefix]
  have hall : (framePrefix 0 ++ xs).length = 2 + xs.length := by
    rw [List.length_append, length_framePrefix]
  have hblit : Memory.blit (w.put (framePrefix 0 ++ xs)).data w.pos (framePrefix xs.length) =
      some (Memory.splice w.data w.pos (framePrefix xs.length ++ xs)) := by
    rw [Memory.blit_of_le, Writer.put, Memory.splice_overwrite hpos hsame]
    rw [Writer.put, Memory.length_splice (by omega), length_framePrefix]
    omega
  have hlarge : ¬ 0xFFFF < xs.length := by omega
  have hprefix : shiftBytes 2 (UInt16.ofNat xs.length).toUInt64 0 = framePrefix xs.length := rfl
  simp only [endFrameU16, Writer.put_info, hw.info, Writer.put_pos, hall, frame_body hw hroom,
    if_neg hlarge, hprefix, hblit, ne_eq, not_true_eq_false, if_false, Option.bind_eq_bind,
    Option.bind_some, Option.pure_def]
  simp only [Writer.put, hw.info, List.length_append, length_framePrefix]

theorem endFrame_large (hw : w.Ready) (hroom : w.pos + (2 + xs.length) ≤ w.cap)
    (hlen : ¬ xs.length ≤ 0xFFFF) :
    endFrameU16 (w.put (framePrefix 0 ++ xs)) w.pos =
      some (.bytesFrameTooLarge,
        { w.put (framePrefix 0 ++ xs) with info := .bytesFrameTooLarge }) := by
  have hall : (framePrefix 0 ++ xs).length = 2 + xs.length := by
    rw [List.length_append, length_framePrefix]
  have hlarge : 0xFFFF < xs.length := by omega
  simp [endFrameU16, hw.info, hall, frame_body hw hroom, hlarge]

end Writing

mutual

/-- A poisoned writer stays as it is. -/
theorem writeItem_poisoned {w : Writer} (hw : w.info ≠ .ok) (item : Item) :
    writeItem w item = some w := by
  cases item with
  | scalar s => rw [writeItem, (writeScalar_puts s).poisoned w hw]; rfl
  | bytes xs => rw [writeItem, (writeBytes_puts xs).poisoned w hw]; rfl
  | frame items =>
    simp [writeItem, beginFrameU16, hw, writeItems_poisoned hw items, endFrameU16]

theorem writeItems_poisoned {w : Writer} (hw : w.info ≠ .ok) (items : List Item) :
    writeItems w items = some w := by
  cases items with
  | nil => rw [writeItems]
  | cons item items =>
    simp [writeItems, writeItem_poisoned hw item, writeItems_poisoned hw items]

end

mutual

/-- Writing an item that fits puts its bytes. -/
theorem writeItem_room {w : Writer} (hw : w.Ready) (item : Item) (hf : item.Framed)
    (hroom : w.pos + item.encode.length ≤ w.cap) :
    writeItem w item = some (w.put item.encode) := by
  cases item with
  | scalar s => rw [writeItem, (writeScalar_puts s).room w hw hroom]; rfl
  | bytes xs => rw [writeItem, (writeBytes_puts xs).room w hw hroom]; rfl
  | frame items =>
    rw [Item.Framed] at hf
    rw [Item.encode, List.length_append, length_framePrefix] at hroom
    have hbegin := beginFrame_room hw (by omega)
    have hpre : w.pos + (framePrefix 0).length ≤ w.cap := by rw [length_framePrefix]; omega
    have hbody := writeItems_room (hw.put hpre) items hf.1
      (by rw [Writer.put_pos, Writer.put_cap, length_framePrefix]; omega)
    rw [hw.put_put] at hbody
    simp [writeItem, hbegin, hbody, endFrame_put hw hroom hf.2, Item.encode]

/-- Writing items that fit puts their bytes. -/
theorem writeItems_room {w : Writer} (hw : w.Ready) (items : List Item) (hf : Framed items)
    (hroom : w.pos + (encode items).length ≤ w.cap) :
    writeItems w items = some (w.put (encode items)) := by
  cases items with
  | nil => rw [writeItems, encode, Writer.put_nil]
  | cons item items =>
    rw [Framed] at hf
    rw [encode, List.length_append] at hroom
    have hitem := writeItem_room hw item hf.1 (by omega)
    have hrest := writeItems_room (hw.put (show w.pos + item.encode.length ≤ w.cap by omega)) items hf.2
      (by rw [Writer.put_pos, Writer.put_cap]; omega)
    simp [writeItems, hitem, hrest, hw.put_put, encode]

end

mutual

/-- Writing an item that does not fit, or has a frame that is too large, poisons the writer. -/
theorem writeItem_full {w : Writer} (hw : w.Ready) (item : Item)
    (hfull : ¬ (item.Framed ∧ w.pos + item.encode.length ≤ w.cap)) :
    ∃ w', writeItem w item = some w' ∧ w'.info ≠ .ok := by
  cases item with
  | scalar s =>
    rw [Item.Framed, true_and, Item.encode] at hfull
    refine ⟨{ w with info := .bytesOutOfBounds }, ?_, by simp⟩
    rw [writeItem, (writeScalar_puts s).full w hw hfull]; rfl
  | bytes xs =>
    rw [Item.Framed, true_and, Item.encode] at hfull
    refine ⟨{ w with info := .bytesOutOfBounds }, ?_, by simp⟩
    rw [writeItem, (writeBytes_puts xs).full w hw hfull]; rfl
  | frame items =>
    rw [Item.Framed, Item.encode, List.length_append, length_framePrefix] at hfull
    by_cases hbegin : w.pos + 2 ≤ w.cap
    · have hpre : w.pos + (framePrefix 0).length ≤ w.cap := by rw [length_framePrefix]; omega
      have hpos : (w.put (framePrefix 0)).pos = w.pos + 2 := by
        rw [Writer.put_pos, length_framePrefix]
      by_cases hbody : Framed items ∧ w.pos + 2 + (encode items).length ≤ w.cap
      · have hlarge : ¬ (encode items).length ≤ 0xFFFF := fun hle =>
          hfull ⟨⟨hbody.1, hle⟩, by omega⟩
        have hitems := writeItems_room (hw.put hpre) items hbody.1
          (by rw [hpos, Writer.put_cap]; exact hbody.2)
        rw [hw.put_put] at hitems
        have hend := endFrame_large hw (by omega) hlarge
        exact ⟨_, by simp [writeItem, beginFrame_room hw hbegin, hitems, hend]; rfl, by simp⟩
      · obtain ⟨w', hitems, hinfo⟩ := writeItems_full (hw.put hpre) items
          (by rw [hpos, Writer.put_cap]; exact hbody)
        refine ⟨w', ?_, hinfo⟩
        simp [writeItem, beginFrame_room hw hbegin, hitems, endFrameU16, hinfo]
    · have hinfo : ({ w with info := .bytesOutOfBounds } : Writer).info ≠ .ok := by simp
      refine ⟨{ w with info := .bytesOutOfBounds }, ?_, hinfo⟩
      simp [writeItem, beginFrame_full hw hbegin, writeItems_poisoned hinfo items, endFrameU16]

theorem writeItems_full {w : Writer} (hw : w.Ready) (items : List Item)
    (hfull : ¬ (Framed items ∧ w.pos + (encode items).length ≤ w.cap)) :
    ∃ w', writeItems w items = some w' ∧ w'.info ≠ .ok := by
  cases items with
  | nil =>
    have hpos := hw.pos
    exact absurd ⟨by rw [Framed]; trivial, by rw [encode]; simpa using hpos⟩ hfull
  | cons item items =>
    rw [Framed, encode, List.length_append] at hfull
    by_cases hitem : item.Framed ∧ w.pos + item.encode.length ≤ w.cap
    · obtain ⟨w', hrest, hinfo⟩ := writeItems_full (hw.put hitem.2) items (by
        rw [Writer.put_pos, Writer.put_cap]
        exact fun h => hfull ⟨⟨hitem.1, h.1⟩, by omega⟩)
      exact ⟨w', by simp [writeItems, writeItem_room hw item hitem.1 hitem.2, hrest], hinfo⟩
    · obtain ⟨w', hwrite, hinfo⟩ := writeItem_full hw item hitem
      exact ⟨w', by simp [writeItems, hwrite, writeItems_poisoned hinfo items], hinfo⟩

end

/-! ## What reading does -/

theorem readScalar_gets (t : IntType) : Gets (fun r => readScalar r t) t.width t.decode := by
  cases t
  case u8 => exact ((readLe_gets 1).readAs _).readAs _
  case u16 => exact ((readLe_gets 2).readAs _).readAs _
  case u32 => exact ((readLe_gets 4).readAs _).readAs _
  case u64 => exact (readLe_gets 8).readAs _
  case i8 => exact (((readLe_gets 1).readAs _).readAs _).readAs _
  case i16 => exact (((readLe_gets 2).readAs _).readAs _).readAs _
  case i32 => exact (((readLe_gets 4).readAs _).readAs _).readAs _
  case i64 => exact ((readLe_gets 8).readAs _).readAs _

section Reading

variable {r r' : Reader}

/-- An accepted read got its bytes. -/
theorem Gets.accept {α : Type} {f : Reader → Option (Answer α × Reader)} {n : Nat}
    {value : List UInt8 → α} (hf : Gets f n value) (hr : r.Ready) {v : α} :
    (f r).bind Bytes.accept = some (v, r') ↔
      n ≤ r.rest.length ∧ v = value (r.rest.take n) ∧ r' = r.skip n := by
  by_cases hn : n ≤ r.rest.length
  · rw [hf.room r hr hn]
    simp only [Option.bind_some, Bytes.accept, if_true, Option.map_some, Option.some.injEq,
      Prod.mk.injEq, hn, true_and]
    exact and_congr eq_comm eq_comm
  · rw [hf.short r hr hn]
    simp [Bytes.accept, hn]

/-- The length that the next two bytes hold. -/
def Reader.frameLength (r : Reader) : Nat := (orBytes (r.rest.take 2) 0).toUInt16.toNat

def Reader.sub (r : Reader) (n : Nat) : Reader :=
  readerInit ((r.skip 2).data.drop (r.skip 2).pos) n

theorem readU16_gets : Gets readU16Le 2 fun bs => (orBytes bs 0).toUInt16 :=
  (readLe_gets 2).readAs _

/-- A frame of which everything is there. -/
theorem readFrame_room (hr : r.Ready) (h : 2 + r.frameLength ≤ r.rest.length) :
    readFrameU16 r =
      some (⟨.ok, some (r.sub r.frameLength)⟩, (r.skip 2).skip r.frameLength) := by
  have hprefix : 2 ≤ r.rest.length := by omega
  have hrest : (r.skip 2).rest.length = r.rest.length - 2 := by
    rw [Reader.rest_skip, List.length_drop]
  have hu16 := readU16_gets.room r hr hprefix
  have hcheck := rCheck_room (hr.skip hprefix) (n := r.frameLength) (by omega)
  rw [Reader.frameLength] at hcheck
  simp only [readFrameU16, hr.info, hu16, hcheck, ne_eq, not_true_eq_false, if_false,
    Option.bind_eq_bind, Option.bind_some, Option.pure_def]
  rfl

/-- A frame whose prefix or body is cut off. -/
theorem readFrame_short (hr : r.Ready) (h : ¬ 2 + r.frameLength ≤ r.rest.length) :
    readFrameU16 r = some (⟨.bytesOutOfBounds, none⟩, { r with info := .bytesOutOfBounds }) := by
  by_cases hprefix : 2 ≤ r.rest.length
  · have hrest : (r.skip 2).rest.length = r.rest.length - 2 := by
      rw [Reader.rest_skip, List.length_drop]
    have hu16 := readU16_gets.room r hr hprefix
    have hcheck := rCheck_short (hr.skip hprefix) (n := r.frameLength) (by omega)
    rw [Reader.frameLength] at hcheck
    simp only [readFrameU16, hr.info, hu16, hcheck, ne_eq, not_true_eq_false, if_false,
      Option.bind_eq_bind, Option.bind_some, Option.pure_def]
    rfl
  · simp [readFrameU16, hr.info, readU16_gets.short r hr hprefix]

/-- An accepted frame has a prefix and a body of that length. -/
theorem readFrame_accept (hr : r.Ready) {sub : Reader} :
    (readFrameU16 r).bind accept = some (sub, r') ↔
      2 + r.frameLength ≤ r.rest.length ∧ sub = r.sub r.frameLength ∧
        r' = (r.skip 2).skip r.frameLength := by
  by_cases h : 2 + r.frameLength ≤ r.rest.length
  · rw [readFrame_room hr h]
    simp only [Option.bind_some, accept, if_true, Option.map_some, Option.some.injEq,
      Prod.mk.injEq, h, true_and]
    exact and_congr eq_comm eq_comm
  · simp [readFrame_short hr h, accept, h]

/-- The prefix that was read is the prefix of that length. -/
theorem framePrefix_frameLength (h : 2 ≤ r.rest.length) :
    framePrefix r.frameLength = r.rest.take 2 := by
  have hlen : (r.rest.take 2).length = 2 := by rw [List.length_take, Nat.min_eq_left h]
  have hlt := orBytes_lt (show (r.rest.take 2).length ≤ 8 by omega)
  have hbytes := shiftBytes_orBytes (show (r.rest.take 2).length ≤ 8 by omega)
  rw [hlen] at hlt hbytes
  rw [framePrefix, Reader.frameLength, UInt16.ofNat_toNat, toUInt16_toUInt64 hlt, hbytes]

/-- The sub-reader is over the body. -/
theorem Reader.Ready.sub {n : Nat} (hr : r.Ready) (hn : 2 + n ≤ r.rest.length) :
    (r.sub n).Ready ∧ (r.sub n).rest = (r.rest.drop 2).take n := by
  rw [Reader.length_rest hr] at hn
  have hlen := hr.len
  refine ⟨⟨rfl, Nat.zero_le _, ?_⟩, ?_⟩
  · change n ≤ (r.data.drop (r.pos + 2)).length
    rw [List.length_drop]
    omega
  · change ((r.data.drop (r.pos + 2)).take n).drop 0 = _
    rw [List.drop_zero, Reader.rest, List.drop_drop, List.drop_take, List.take_take,
      Nat.min_eq_left (by omega)]

end Reading

theorem readItem_scalar (r : Reader) (t : IntType) :
    readItem r (.scalar t) = ((readScalar r t).bind accept).map fun x => (.scalar x.1, x.2) := by
  cases h : readScalar r t <;> simp [readItem, h, Option.map_eq_bind]

theorem readItem_bytes (r : Reader) (n : Nat) :
    readItem r (.bytes n) = ((readBytes r n).bind accept).map fun x => (.bytes x.1, x.2) := by
  cases h : readBytes r n <;> simp [readItem, h, Option.map_eq_bind]

theorem readItem_frame (r : Reader) (shapes : List Shape) :
    readItem r (.frame shapes) = ((readFrameU16 r).bind accept).bind fun x =>
      (readItems x.1 shapes).bind fun y =>
        if y.2.info = .ok ∧ readerRemaining y.2 = 0 then some (.frame y.1, x.2) else none := by
  cases h : readFrameU16 r <;> simp [readItem, h]

mutual

/-- Reading the encoding of an item returns the item. -/
theorem readItem_encode {r : Reader} {tail : List UInt8} (hr : r.Ready) (item : Item)
    (hf : item.Framed) (hrest : r.rest = item.encode ++ tail) :
    readItem r item.shape = some (item, r.skip item.encode.length) := by
  cases item with
  | scalar s =>
    rw [Item.encode] at hrest
    have hread := (@Gets.accept r (r.skip s.type.width) _ _ _ _ (readScalar_gets s.type) hr s).mpr
      ⟨by rw [hrest, List.length_append, s.length_encode]; omega,
        by rw [hrest, ← s.length_encode, List.take_left, IntType.decode_encode], rfl⟩
    rw [Item.shape, readItem_scalar, hread, Item.encode, s.length_encode]
    rfl
  | bytes xs =>
    rw [Item.encode] at hrest
    have hread := (@Gets.accept r (r.skip xs.length) _ _ _ _ (readBytes_gets xs.length) hr xs).mpr
      ⟨by rw [hrest, List.length_append]; omega, by rw [hrest, List.take_left]; rfl, rfl⟩
    rw [Item.shape, readItem_bytes, hread, Item.encode]
    rfl
  | frame items =>
    rw [Item.Framed] at hf
    rw [Item.encode, List.append_assoc] at hrest
    have hpre : r.rest.take 2 = framePrefix (encode items).length := by
      rw [hrest, ← length_framePrefix (encode items).length, List.take_left]
    have hlen : r.frameLength = (encode items).length := by
      rw [Reader.frameLength, hpre, framePrefix, orBytes_shiftBytes (by decide)
        (UInt16.ofNat (encode items).length).toNat_lt, UInt16.toUInt16_toUInt64,
        UInt16.toNat_ofNat']
      omega
    have hall : 2 + (encode items).length ≤ r.rest.length := by
      rw [hrest, List.length_append, List.length_append, length_framePrefix]
      omega
    have hread := (@readFrame_accept r ((r.skip 2).skip (encode items).length) hr
      (r.sub (encode items).length)).mpr ⟨by rwa [hlen], by rw [hlen], by rw [hlen]⟩
    obtain ⟨hsub, hsubrest⟩ := hr.sub hall
    have hdrop : r.rest.drop 2 = encode items ++ tail := by
      rw [hrest, ← length_framePrefix (encode items).length, List.drop_left]
    rw [hdrop, List.take_left] at hsubrest
    have hitems := @readItems_encode _ [] hsub items hf.1 (by rw [hsubrest, List.append_nil])
    have hdone : readerRemaining ((r.sub (encode items).length).skip (encode items).length) = 0 := by
      simp [readerRemaining, Reader.sub, readerInit]
    rw [Item.shape, readItem_frame, hread, Option.bind_some, hitems, Option.bind_some,
      if_pos ⟨hsub.info, hdone⟩, Item.encode, List.length_append, length_framePrefix,
      Reader.skip_skip]

theorem readItems_encode {r : Reader} {tail : List UInt8} (hr : r.Ready) (items : List Item)
    (hf : Framed items) (hrest : r.rest = encode items ++ tail) :
    readItems r (shapes items) = some (items, r.skip (encode items).length) := by
  cases items with
  | nil => rw [shapes, readItems, encode]; rfl
  | cons item items =>
    rw [Framed] at hf
    rw [encode, List.append_assoc] at hrest
    have hitem := readItem_encode hr item hf.1 hrest
    have hlen : item.encode.length ≤ r.rest.length := by
      rw [hrest, List.length_append]
      omega
    have hitems := readItems_encode (hr.skip hlen) items hf.2
      (by rw [Reader.rest_skip, hrest, List.drop_left])
    simp [shapes, readItems, hitem, hitems, encode, Reader.skip_skip]

end

mutual

/-- What reading a shape returns has that shape, and the bytes it consumed are its encoding. -/
theorem readItem_sound {r r' : Reader} (hr : r.Ready) (shape : Shape) {item : Item}
    (h : readItem r shape = some (item, r')) :
    item.shape = shape ∧ item.Framed ∧ r' = r.skip item.encode.length ∧
      ∃ tail, r.rest = item.encode ++ tail := by
  cases shape with
  | scalar t =>
    rw [readItem_scalar, Option.map_eq_some_iff] at h
    obtain ⟨⟨s, r''⟩, hread, heq⟩ := h
    obtain ⟨rfl, rfl⟩ := Prod.mk.inj heq
    obtain ⟨hn, rfl, rfl⟩ := ((readScalar_gets t).accept hr).mp hread
    obtain ⟨hencode, htype⟩ := IntType.encode_decode (t := t)
      (by rw [List.length_take, Nat.min_eq_left hn])
    refine ⟨by rw [Item.shape, htype], by rw [Item.Framed]; trivial, ?_, r.rest.drop t.width, ?_⟩
    · rw [Item.encode, hencode, List.length_take, Nat.min_eq_left hn]
    · rw [Item.encode, hencode, List.take_append_drop]
  | bytes n =>
    rw [readItem_bytes, Option.map_eq_some_iff] at h
    obtain ⟨⟨xs, r''⟩, hread, heq⟩ := h
    obtain ⟨rfl, rfl⟩ := Prod.mk.inj heq
    obtain ⟨hn, rfl, rfl⟩ := ((readBytes_gets n).accept hr).mp hread
    have hlen : (r.rest.take n).length = n := by rw [List.length_take, Nat.min_eq_left hn]
    refine ⟨?_, by rw [Item.Framed]; trivial, ?_, r.rest.drop n, ?_⟩
    · rw [Item.shape, id_eq, hlen]
    · rw [Item.encode, id_eq, hlen]
    · rw [Item.encode, id_eq, List.take_append_drop]
  | frame sh =>
    rw [readItem_frame, Option.bind_eq_some_iff] at h
    obtain ⟨⟨sub, r₁⟩, hread, h⟩ := h
    obtain ⟨⟨items, sub'⟩, hitems, h⟩ := Option.bind_eq_some_iff.mp h
    obtain ⟨hn, rfl, rfl⟩ := (readFrame_accept hr).mp hread
    obtain ⟨hsub, hsubrest⟩ := hr.sub hn
    obtain ⟨hshapes, hframed, rfl, tail, hrest⟩ := readItems_sound hsub sh hitems
    split at h
    · next hdone =>
      cases h
      have hsublen : (r.sub r.frameLength).rest.length = r.frameLength := by
        rw [hsubrest, List.length_take, List.length_drop]
        omega
      have hleft : r.frameLength - (encode items).length = 0 := by
        have hdone := hdone.2
        rw [readerRemaining, if_neg (by simp [hsub.info])] at hdone
        simpa [Reader.sub, readerInit] using hdone
      have htail : tail = [] := by
        have hsum := congrArg List.length hrest
        rw [List.length_append, hsublen] at hsum
        exact List.eq_nil_of_length_eq_zero (by omega)
      rw [htail, List.append_nil, hsubrest] at hrest
      have hlen : (encode items).length = r.frameLength := by
        rw [← hrest, List.length_take, List.length_drop]
        omega
      have hlarge : r.frameLength ≤ 0xFFFF := Nat.le_of_lt_succ (UInt16.toNat_lt _)
      refine ⟨by rw [Item.shape, hshapes], by rw [Item.Framed]; exact ⟨hframed, hlen ▸ hlarge⟩, ?_,
        (r.rest.drop 2).drop r.frameLength, ?_⟩
      · rw [Item.encode, List.length_append, length_framePrefix, hlen, Reader.skip_skip]
      · rw [Item.encode, hlen, framePrefix_frameLength (by omega), ← hrest, List.append_assoc,
          List.take_append_drop, List.take_append_drop]
    · cases h

theorem readItems_sound {r r' : Reader} (hr : r.Ready) (sh : List Shape) {items : List Item}
    (h : readItems r sh = some (items, r')) :
    shapes items = sh ∧ Framed items ∧ r' = r.skip (encode items).length ∧
      ∃ tail, r.rest = encode items ++ tail := by
  cases sh with
  | nil =>
    rw [readItems] at h
    cases h
    exact ⟨by rw [shapes], by rw [Framed]; trivial, by rw [encode]; rfl, r.rest, by rw [encode]; rfl⟩
  | cons shape sh =>
    simp only [readItems, Option.bind_eq_bind, Option.bind_eq_some_iff, Option.pure_def,
      Option.some.injEq, Prod.mk.injEq, Prod.exists] at h
    obtain ⟨item, r₁, hitem, items', r₂, hitems, rfl, rfl⟩ := h
    obtain ⟨hshape, hframed, rfl, tail, hrest⟩ := readItem_sound hr shape hitem
    have hr₁ := hr.skip (n := item.encode.length) (by rw [hrest, List.length_append]; omega)
    obtain ⟨hshapes, hframeds, rfl, tail', hrest'⟩ := readItems_sound hr₁ sh hitems
    rw [Reader.rest_skip, hrest, List.drop_left] at hrest'
    refine ⟨by rw [shapes, hshape, hshapes], by rw [Framed]; exact ⟨hframed, hframeds⟩, ?_, tail', ?_⟩
    · rw [encode, List.length_append, Reader.skip_skip]
    · rw [encode, hrest, hrest', List.append_assoc]

end

/-! ## Round trips -/

theorem writerInit_ready {buf : List UInt8} {cap : Nat} (hcap : cap ≤ buf.length)
    (hsize : cap < 2 ^ 64) : (writerInit buf cap).Ready :=
  ⟨rfl, Nat.zero_le _, hcap, hsize⟩

theorem readerInit_ready {buf : List UInt8} {len : Nat} (hlen : len ≤ buf.length) :
    (readerInit buf len).Ready ∧ (readerInit buf len).rest = buf.take len :=
  ⟨⟨rfl, Nat.zero_le _, hlen⟩, rfl⟩

/-- **Round trip.** Writing any items into any buffer has a result. When the writer ends without an
error, the same shape reads the same items back from the written prefix, consumes every frame and
leaves nothing. And whatever a shape of reads returns from any bytes can be written into any large
enough buffer, and gives the bytes that were consumed. -/
theorem codec_round_trip :
    (∀ (items : List Item) (buf : List UInt8) (cap : Nat), cap ≤ buf.length → cap < 2 ^ 64 →
      ∃ w, writeItems (writerInit buf cap) items = some w ∧ (w.info = .ok →
        ∃ r, readItems (readerInit w.data (writerLen w)) (shapes items) = some (items, r) ∧
          r.info = .ok ∧ readerRemaining r = 0)) ∧
    (∀ (bytes : List UInt8) (sh : List Shape) (items : List Item) (r : Reader),
      readItems (readerInit bytes bytes.length) sh = some (items, r) →
      shapes items = sh ∧ ∀ (buf : List UInt8) (cap : Nat), r.pos ≤ cap → cap ≤ buf.length →
        cap < 2 ^ 64 → ∃ w, writeItems (writerInit buf cap) items = some w ∧ w.info = .ok ∧
          writerLen w = r.pos ∧ w.data.take (writerLen w) = bytes.take r.pos) := by
  constructor
  · intro items buf cap hcap hsize
    have hw := writerInit_ready hcap hsize
    by_cases hfits : Framed items ∧ 0 + (encode items).length ≤ cap
    · have hwrite := writeItems_room hw items hfits.1 hfits.2
      refine ⟨_, hwrite, fun _ => ?_⟩
      have hready := hw.put hfits.2
      have hpos : writerLen ((writerInit buf cap).put (encode items)) = (encode items).length :=
        Nat.zero_add _
      have hdata : ((writerInit buf cap).put (encode items)).data.take (encode items).length =
          encode items := by
        have := Memory.take_splice_end (m := buf) (x := encode items) (Nat.zero_le _)
        rwa [Nat.zero_add, List.take_zero, List.nil_append] at this
      obtain ⟨hr, hrest⟩ := readerInit_ready (Nat.le_trans hready.pos hready.cap)
      rw [← writerLen, hpos] at hr hrest
      rw [hdata] at hrest
      have hread := @readItems_encode _ [] hr items hfits.1 (by rw [hrest, List.append_nil])
      rw [hpos]
      exact ⟨_, hread, rfl, by simp [readerRemaining, readerInit]⟩
    · obtain ⟨w, hwrite, hinfo⟩ := writeItems_full hw items hfits
      exact ⟨w, hwrite, fun hok => absurd hok hinfo⟩
  · intro bytes sh items r hread
    obtain ⟨hr, hrest⟩ := readerInit_ready (Nat.le_refl bytes.length)
    rw [List.take_length] at hrest
    obtain ⟨hshapes, hframed, rfl, tail, htail⟩ := readItems_sound hr sh hread
    have hpos : ((readerInit bytes bytes.length).skip (encode items).length).pos =
        (encode items).length := Nat.zero_add _
    rw [hpos]
    refine ⟨hshapes, fun buf cap hroom hcap hsize => ?_⟩
    have hw := writerInit_ready hcap hsize
    have hwrite := writeItems_room hw items hframed (by simpa [writerInit] using hroom)
    have hlen : writerLen ((writerInit buf cap).put (encode items)) = (encode items).length :=
      Nat.zero_add _
    refine ⟨_, hwrite, rfl, hlen, ?_⟩
    have hdata := Memory.take_splice_end (m := buf) (x := encode items) (Nat.zero_le _)
    rw [Nat.zero_add, List.take_zero, List.nil_append] at hdata
    rw [hlen, ← hrest, htail, List.take_left]
    exact hdata

/-- A frame in a frame, with an integer on either side of the inner one. -/
def nestedFrames : List Item :=
  [.frame [.scalar (.u8 0xAA), .frame [.scalar (.u16 0x1234)], .scalar (.u8 0xBB)]]

theorem codec_round_trip_nested : ∃ w r,
    writeItems (writerInit (List.replicate 64 0) 64) nestedFrames = some w ∧
    w.data.take (writerLen w) = [6, 0, 0xAA, 2, 0, 0x34, 0x12, 0xBB] ∧
    readItems (readerInit w.data (writerLen w)) (shapes nestedFrames) = some (nestedFrames, r) ∧
    readerRemaining r = 0 := by
  obtain ⟨w, hwrite, hread⟩ :=
    codec_round_trip.1 nestedFrames (List.replicate 64 0) 64 (by decide) (by decide)
  have hinfo : (writeItems (writerInit (List.replicate 64 0) 64) nestedFrames).map (·.info) =
      some .ok := rfl
  have hdata : (writeItems (writerInit (List.replicate 64 0) 64) nestedFrames).map
      (fun w => w.data.take (writerLen w)) = some [6, 0, 0xAA, 2, 0, 0x34, 0x12, 0xBB] := rfl
  rw [hwrite] at hinfo hdata
  obtain ⟨r, hr, _, hrest⟩ := hread (Option.some.inj hinfo)
  exact ⟨w, r, hwrite, Option.some.inj hdata, hr, hrest⟩

end CBase.Bytes
