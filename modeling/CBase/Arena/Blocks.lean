import CBase.Info
import CBase.Lib.Align
import CBase.Lib.Extent
import CBase.Lib.LinkedLoops
import CBase.Lib.Run

/-!
# The arena allocator

The blocks are cells of a heap, linked from `head`; `size_t` and addresses are 64-bit words, so
every sum of the code wraps where it wraps there. `malloc` is an input of each call that may use it,
a function of the requested size: NULL (`none`) or the base address of a new memory block.

A call that follows a NULL or dangling pointer has no result, and neither has one that writes the
header or the guards of a new block outside the memory that `malloc` returned.
-/

namespace CBase.Arena

open LinkedHeap

/-- `sizeof(cb__arena_block_t)` on a 64-bit target. -/
def headerSize : UInt64 := 32

def guardSize : UInt64 := 16

def guardByte : UInt8 := 0xCB

/-- `cb__arena_block_t` without its link. `data` is the address of the user data. -/
structure Block where
  size : UInt64
  used : UInt64
  data : UInt64
  deriving DecidableEq, Repr

/-- `cb_arena_strategy_t`. The `default` case of the switch over it is for other values. -/
inductive Strategy where
  | fixed | linear | exponential
  deriving DecidableEq, Repr

end CBase.Arena

namespace CBase

open LinkedHeap Arena

/-- `cb_arena_t` with the memory its blocks live in. -/
structure Arena where
  info : Info
  strategy : Strategy
  initialSize : UInt64
  head : Option Ptr
  current : Option Ptr
  blocks : Heap Block

end CBase

namespace CBase.Arena

open LinkedHeap

structure AllocResult where
  info : Info
  ptr : Option UInt64
  deriving DecidableEq, Repr

/-- The answer of `malloc` to a request of that many bytes. -/
abbrev Malloc := UInt64 → Option UInt64

/-- The total that `cb__arena_block_create` asks `malloc` for. -/
def blockTotal (size : UInt64) : UInt64 := headerSize + guardSize + size + guardSize

/-- The memory of a new block. The inner `none` is the NULL of a failed `malloc`. The header and the
two guards are written at the offsets `0`, `headerSize` and `headerSize + guardSize + size` of the
`total` bytes. -/
def newBlock (malloc : Malloc) (size : UInt64) : Option (Option Block) :=
  let total := blockTotal size
  match malloc total with
  | none => some none
  | some raw =>
    if headerSize.toNat + guardSize.toNat + size.toNat + guardSize.toNat ≤ total.toNat then
      some (some ⟨size, 0, raw + headerSize + guardSize⟩)
    else none

def blockCreate (h : Heap Block) (malloc : Malloc) (size : UInt64) :
    Option (Option (Ptr × Heap Block)) := do
  match ← newBlock malloc size with
  | none => return none
  | some block => return some (h.alloc ⟨none, block⟩)

def arenaCreate (malloc : Malloc) (size : UInt64) (strategy : Strategy) : Option Arena := do
  match ← blockCreate .empty malloc size with
  | none => return ⟨.allocFailed, strategy, size, none, none, .empty⟩
  | some (p, h) => return ⟨.ok, strategy, size, some p, some p, h⟩

def arenaDestroy (a : Arena) : Option Arena := do
  let blocks ← freeAll a.blocks a.head
  return { a with head := none, current := none, blocks }

def alignForward (offset align : UInt64) : UInt64 := Align.up offset align

/-- The alignment that a request asks for: zero stands for `sizeof(void *)`. -/
def effectiveAlign (align : UInt64) : UInt64 := if align = 0 then 8 else align

/-- `aligned_offset + size <= block->size`. -/
def Block.fits (b : Block) (offset size : UInt64) : Bool := offset + size ≤ b.size

/-- Which of the three paths of `cb_arena_alloc` a request takes: the current block, the block after
it (there may be one from before a reset), or a new block. A new block follows the current block
`cur`, and `tried` is the block that the request did not fit last. -/
inductive Place where
  | current (p : Ptr) (block : Block)
  | next (p : Ptr) (block : Block)
  | grow (cur : Ptr) (tried : Block)
  deriving DecidableEq

/-- The tests of `cb_arena_alloc`, for an `align` that is not zero. -/
def place (a : Arena) (size align : UInt64) : Option Place := do
  let cur ← a.current
  let block ← a.blocks.cell cur
  if block.val.fits (alignForward block.val.used align) size then
    return .current cur block.val
  else match block.next with
    | none => return .grow cur block.val
    | some p =>
      let next ← a.blocks.cell p
      -- what it has in use is not looked at
      if next.val.fits (alignForward 0 align) size then return .next p next.val
      else return .grow cur next.val

/-- `block->used = offset + size`. -/
def Block.bumped (b : Block) (offset size : UInt64) : Block := { b with used := offset + size }

/-- The switch over the strategy: the size a new block should have, after the block of size `last`
was too small. A fixed arena has no new block. -/
def wantedSize (strategy : Strategy) (initialSize last : UInt64) : Option UInt64 :=
  match strategy with
  | .fixed => none
  | .linear => some initialSize
  | .exponential => some (last * 2)

/-- The size of the new block: what the strategy says, or enough for the request. -/
def newBlockSize (wanted size align : UInt64) : UInt64 :=
  if wanted < size + align then size + align else wanted

/-- The end of `cb_arena_alloc`: put a new block after the current one and allocate in it. -/
def extend (a : Arena) (malloc : Malloc) (size align : UInt64) (cur : Ptr) (wanted : UInt64) :
    Option (AllocResult × Arena) := do
  match ← blockCreate a.blocks malloc (newBlockSize wanted size align) with
  | none => return (⟨.allocFailed, none⟩, a)
  | some (p, blocks) =>
    -- what `cur` linked to is reachable no more
    let blocks ← blocks.setNext cur (some p)
    let offset := alignForward 0 align
    let block ← blocks.cell p
    let blocks ← blocks.modify p (·.bumped offset size)
    return (⟨.ok, some (block.val.data + offset)⟩, { a with current := some p, blocks })

def arenaAlloc (a : Arena) (malloc : Malloc) (size align : UInt64) :
    Option (AllocResult × Arena) := do
  let align := effectiveAlign align
  match ← place a size align with
  | .current p block =>
    let offset := alignForward block.used align
    let blocks ← a.blocks.modify p (·.bumped offset size)
    return (⟨.ok, some (block.data + offset)⟩, { a with blocks })
  | .next p block =>
    let offset := alignForward 0 align
    let blocks ← a.blocks.modify p (·.bumped offset size)
    return (⟨.ok, some (block.data + offset)⟩, { a with current := some p, blocks })
  | .grow cur tried =>
    -- `tried` is the next block, if there is one
    match wantedSize a.strategy a.initialSize tried.size with
    | none => return (⟨.arenaOutOfMemory, none⟩, a)
    | some wanted => extend a malloc size align cur wanted

/-- `block->used = 0`. -/
def Block.cleared (b : Block) : Block := { b with used := 0 }

def arenaReset (a : Arena) : Option Arena := do
  let blocks ← mapAll Block.cleared a.blocks a.head
  return { a with blocks, current := a.head }

/-- `cb__arena_block_check_guards`, on the bytes of the memory. -/
def blockCheckGuards (mem : UInt64 → UInt8) (b : Block) : Bool :=
  (List.range guardSize.toNat).all fun i =>
    mem (b.data - guardSize + UInt64.ofNat i) == guardByte &&
    mem (b.data + b.size + UInt64.ofNat i) == guardByte

/-- `cb_arena_check_health`: whether the walk over the blocks finds no damaged guard. -/
def arenaCheckHealth (mem : UInt64 → UInt8) (a : Arena) : Option Bool := do
  let bad ← find (fun b => !blockCheckGuards mem b) a.blocks a.head
  return bad.isNone

/-- The blocks that are reachable from `head`. -/
def chain (a : Arena) : List (Ptr × Block) := toList a.blocks a.head

/-! ## Calls -/

/-- The memory that `malloc` returned for a block. -/
def Block.memory (b : Block) : Extent :=
  ⟨b.data.toNat - (headerSize + guardSize).toNat, b.data.toNat + b.size.toNat + guardSize.toNat⟩

def Block.userData (b : Block) : Extent := ⟨b.data.toNat, b.data.toNat + b.size.toNat⟩

def Block.guardHead (b : Block) : Extent := ⟨b.data.toNat - guardSize.toNat, b.data.toNat⟩

def Block.guardTail (b : Block) : Extent :=
  ⟨b.data.toNat + b.size.toNat, b.data.toNat + b.size.toNat + guardSize.toNat⟩

/-- The contract of `malloc`: NULL, or memory inside the address space that shares no address with
the memory of a block that is still allocated. -/
def MallocOk (h : Heap Block) (malloc : Malloc) : Prop :=
  ∀ total raw, malloc total = some raw → raw.toNat + total.toNat < 2 ^ 64 ∧
    ∀ p c, h.cell p = some c →
      Extent.Apart ⟨raw.toNat, raw.toNat + total.toNat⟩ c.val.memory

theorem MallocOk.null (h : Heap Block) : MallocOk h fun _ => none := fun _ _ hraw => nomatch hraw

/-- A call on an arena, with its inputs and its answer. -/
inductive Call where
  | alloc (size align : UInt64) (malloc : Malloc) (r : AllocResult)
  | reset

/-- What a call does. `malloc` keeps its contract. -/
inductive Step (a : Arena) : Call → Arena → Prop
  | alloc {malloc : Malloc} {size align : UInt64} {r : AllocResult} {a' : Arena} :
      MallocOk a.blocks malloc → arenaAlloc a malloc size align = some (r, a') →
      Step a (.alloc size align malloc r) a'
  | reset {a' : Arena} : arenaReset a = some a' → Step a .reset a'

/-- No sum that the request computes exceeds `SIZE_MAX`, on the path that it takes: the aligned
offset and the end of the region in the current block, and for a new block its minimal size and the
total with header and guards. -/
structure SumsFit (a : Arena) (size align : UInt64) : Prop where
  offset : ∀ cur c, a.current = some cur → a.blocks.cell cur = some c →
    c.val.used.toNat + (align - 1).toNat < 2 ^ 64 ∧
    (alignForward c.val.used align).toNat + size.toNat < 2 ^ 64
  grow : ∀ cur tried wanted, place a size align = some (.grow cur tried) →
    wantedSize a.strategy a.initialSize tried.size = some wanted →
    size.toNat + align.toNat < 2 ^ 64 ∧
    headerSize.toNat + guardSize.toNat + (newBlockSize wanted size align).toNat +
      guardSize.toNat < 2 ^ 64

/-- A call whose request is within the domain of the allocator: `align` is zero or a power of two,
and no sum exceeds `SIZE_MAX`. -/
def Call.Fits (a : Arena) : Call → Prop
  | .alloc size align _ _ => (align = 0 ∨ Align.PowerOfTwo align) ∧
      SumsFit a size (effectiveAlign align)
  | .reset => True

end CBase.Arena
