import CBase.Config.Entries

/-!
# The config parser and its memory

The same parser with the buffers at their addresses: an entry points to its key and its value, a line has
a buffer for its decoded value, and a file is read into one. A buffer is a cell without a link.

The memory is that of `malloc`: an arena takes nothing back. A call that follows a dangling pointer, or
frees or closes twice, has no result.
-/

namespace CBase.Config

open LinkedHeap

/-- `cb__config_entry_t` without its link. -/
structure RawEntry where
  key : Ptr
  value : Ptr

/-- `cb_config_t` with the memory of entries and buffers, and the number of requests for memory. -/
structure RawConfig where
  info : Info
  errorLine : UInt32
  count : UInt32
  head : Option Ptr
  tail : Option Ptr
  entries : Heap RawEntry
  buffers : Heap (List UInt8)
  requests : Nat

namespace RawConfig

/-! ## Memory -/

def empty : RawConfig := ⟨.ok, 0, 0, none, none, .empty, .empty, 0⟩

def request (raw : RawConfig) (ok : Nat → Bool) : Bool × RawConfig :=
  (ok raw.requests, { raw with requests := raw.requests + 1 })

/-- `cb__alloc` of a buffer, and what is written to it. The inner `none` is NULL. -/
def alloc (raw : RawConfig) (ok : Nat → Bool) (bytes : List UInt8) : Option Ptr × RawConfig :=
  let (got, raw) := raw.request ok
  if got then
    let (p, buffers) := raw.buffers.alloc ⟨none, bytes⟩
    (some p, { raw with buffers })
  else (none, raw)

/-- `cb__free` of a buffer. -/
def free (raw : RawConfig) (p : Ptr) : Option RawConfig := do
  let buffers ← raw.buffers.free p
  return { raw with buffers }

/-- The bytes in a buffer. -/
def bytes (raw : RawConfig) (p : Ptr) : Option (List UInt8) := do
  let c ← raw.buffers.cell p
  return c.val

/-! ## Entries -/

/-- The loops over the entries that compare keys. -/
def findLoop (raw : RawConfig) (key : List UInt8) : Nat → Option Ptr → Option (Option Ptr)
  | _, none => some none
  | 0, some _ => none
  | n + 1, some p => do
    let e ← raw.entries.cell p
    let buffer ← raw.bytes e.val.key
    if cstr buffer = key then return some p
    findLoop raw key n e.next

def findEntry (raw : RawConfig) (key : List UInt8) : Option (Option Ptr) :=
  raw.findLoop key raw.entries.brk raw.head

/-- The end of `cb__config_set`. -/
def append (raw : RawConfig) (entry : RawEntry) : Option RawConfig := do
  let (p, entries) := raw.entries.alloc ⟨none, entry⟩
  let (head, entries) ← match raw.head with
    | none => pure (some p, entries)
    | some head => do
      let tail ← raw.tail
      let entries ← entries.setNext tail (some p)
      pure (some head, entries)
  return { raw with head, entries, tail := some p, count := raw.count + 1 }

/-- `cb__config_set`. The value is in the buffer at `val`. -/
def set (ok : Nat → Bool) (raw : RawConfig) (key : List UInt8) (val : Ptr) : Option (Info × RawConfig) := do
  let existing ← raw.findEntry key
  let value ← raw.bytes val
  let (newValue, raw) := raw.alloc ok (strndup value)
  match newValue, existing with
  | none, _ => return (.configAllocFailed, raw)
  | some newValue, some p =>
    let e ← raw.entries.cell p
    -- a config keeps the old value until it has the new one
    let raw ← raw.free e.val.value
    let entries ← raw.entries.modify p ({ · with value := newValue })
    return (.ok, { raw with entries })
  | some newValue, none =>
    let (newKey, raw) := raw.alloc ok (strndup key)
    match newKey with
    | none =>
      let raw ← raw.free newValue
      return (.configAllocFailed, raw)
    | some newKey =>
      let (got, raw) := raw.request ok
      if !got then
        let raw ← raw.free newKey
        let raw ← raw.free newValue
        return (.configAllocFailed, raw)
      let raw ← raw.append ⟨newKey, newValue⟩
      return (.ok, raw)

/-- `cb_config_get`. The inner `none` is NULL. -/
def get (raw : RawConfig) (key : List UInt8) : Option (Option (List UInt8)) := do
  match ← raw.findEntry key with
  | none => return none
  | some p =>
    let e ← raw.entries.cell p
    let buffer ← raw.bytes e.val.value
    return some (cstr buffer)

/-! ## Lines -/

/-- The end of `cb__config_parse_line`. What is behind the decoded value in its buffer is not read. -/
def assignLine (ok : Nat → Bool) (raw : RawConfig) (key rhs : List UInt8) : Option (Info × RawConfig) := do
  let (decoded, raw) := raw.alloc ok (List.replicate (rhs.length + 1) 0)
  match decoded with
  | none => return (.configAllocFailed, raw)
  | some decoded =>
    match decodeValue rhs rhs.length with
    | .error info =>
      let raw ← raw.free decoded
      return (info, raw)
    | .ok value =>
      let buffers ← raw.buffers.modify decoded fun _ => value
      let (info, raw) ← set ok { raw with buffers } key decoded
      let raw ← raw.free decoded
      return (info, raw)

def parseLine (ok : Nat → Bool) (raw : RawConfig) (line : List UInt8) : Option (Info × RawConfig) :=
  match line.dropWhile isSpace with
  | [] => some (.ok, raw)
  | c :: rest =>
    if c = hash ∨ c = semicolon then some (.ok, raw)
    else
      match (c :: rest).dropWhile (· ≠ equals) with
      | [] => some (.configParseError, raw)
      | _ :: rhs =>
        let key := ((c :: rest).takeWhile (· ≠ equals)).rdropWhile isSpace
        if !keyValid key then some (.configBadKey, raw) else assignLine ok raw key rhs

/-! ## Parse and destroy -/

/-- The loop of `cb__config_free_entries`. -/
def freeLoop : Nat → RawConfig → Option Ptr → Option RawConfig
  | _, raw, none => some raw
  | 0, _, some _ => none
  | n + 1, raw, some p => do
    let e ← raw.entries.cell p
    let raw ← raw.free e.val.key
    let raw ← raw.free e.val.value
    let entries ← raw.entries.free p
    freeLoop n { raw with entries } e.next

def freeEntries (raw : RawConfig) : Option RawConfig := do
  let raw ← freeLoop raw.entries.brk raw raw.head
  return { raw with head := none, tail := none, count := 0 }

/-- A failed parse. -/
def fail (raw : RawConfig) (info : Info) (line : UInt32) : Option RawConfig :=
  freeEntries { raw with info, errorLine := line }

def parseLoop (ok : Nat → Bool) : Nat → RawConfig → UInt32 → List UInt8 → Option RawConfig
  | 0, _, _, _ => none
  | n + 1, raw, lineNo, text => do
    let piece := text.takeWhile (· ≠ newline)
    let line := stripCr piece
    let lineNo := lineNo + 1
    if text = [] then return raw
    if lineMax < line.length then return ← fail raw .configLineTooLong lineNo
    let (info, raw) ← parseLine ok raw line
    if info ≠ .ok then return ← fail raw info lineNo
    match text.drop piece.length with
    | [] => return raw
    | _ :: rest => parseLoop ok n raw lineNo rest

/-- A config without entries, in the memory of `raw`. -/
def fresh (raw : RawConfig) : RawConfig :=
  { raw with info := .ok, errorLine := 0, count := 0, head := none, tail := none }

/-- `cb_config_parse`, in the memory of `raw`. A `text` of `none` is NULL. -/
def parse (ok : Nat → Bool) (raw : RawConfig) (text : Option (List UInt8)) (len : Nat) :
    Option RawConfig :=
  match text with
  | none =>
    if 0 < len then some { raw.fresh with info := .configParseError }
    else parseLoop ok 1 raw.fresh 0 []
  | some bytes => parseLoop ok (len + 1) raw.fresh 0 (bytes.take len)

def destroy (raw : RawConfig) : Option RawConfig := do
  let raw ← freeEntries raw
  return { raw with info := .ok, errorLine := 0 }

/-! ## Files -/

def fileMax : Nat := 16 * 1024 * 1024

/-- What the C library answers for a path: `tell` is `none` where `ftell` is negative, and `content` is
what `fread` can deliver. -/
structure File where
  opens : Bool
  seeksEnd : Bool
  tell : Option Nat
  seeksSet : Bool
  content : List UInt8

def close (isOpen : Bool) : Option Bool := if isOpen then some false else none

/-- A `cb_config_parse_file` that returns before it has a buffer. -/
def giveUp (raw : RawConfig) (isOpen : Bool) (info : Info) : Option (RawConfig × Bool) := do
  let isOpen ← close isOpen
  return ({ raw.fresh with info }, isOpen)

/-- `cb_config_parse_file`, in the memory of `raw`. The result says whether the file is still open. -/
def parseFile (ok : Nat → Bool) (raw : RawConfig) (file : File) : Option (RawConfig × Bool) := do
  if !file.opens then return ({ raw.fresh with info := .configFileOpenFailed }, false)
  if !file.seeksEnd then return ← giveUp raw true .configFileOpenFailed
  match file.tell with
  | none => giveUp raw true .configFileOpenFailed
  | some size =>
    if fileMax < size then return ← giveUp raw true .configFileTooLarge
    if !file.seeksSet then return ← giveUp raw true .configFileOpenFailed
    let (buffer, raw) := raw.alloc ok (List.replicate (max size 1) 0)
    match buffer with
    | none => giveUp raw true .configAllocFailed
    | some buffer =>
      let got := file.content.take size
      let buffers ← raw.buffers.modify buffer fun _ => got
      let raw := { raw with buffers }
      let isOpen ← close true
      -- the file became shorter
      if got.length ≠ size then
        let raw ← raw.free buffer
        return ({ raw.fresh with info := .configFileOpenFailed }, isOpen)
      let text ← raw.bytes buffer
      let raw ← parse ok raw (some text) size
      let raw ← raw.free buffer
      return (raw, isOpen)

end RawConfig

end CBase.Config
