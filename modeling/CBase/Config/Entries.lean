import CBase.Info
import CBase.Lib.LinkedLoops
import Mathlib.Data.List.DropRight

/-!
# The config parser

Text is a list of bytes, and a line the bytes between two terminators. An entry is a cell that owns
a key buffer and a value buffer, each with its terminating NUL. `ok n` says whether the `n`-th
request for memory succeeds, from an arena or from `malloc`.

A call that follows a dangling pointer has no result.
-/

namespace CBase.Config

open LinkedHeap

/-! ## Bytes -/

def newline : UInt8 := 0x0A
def carriageReturn : UInt8 := 0x0D
def quote : UInt8 := 0x22
def hash : UInt8 := 0x23
def semicolon : UInt8 := 0x3B
def equals : UInt8 := 0x3D
def backslash : UInt8 := 0x5C

def lineMax : Nat := 4096

/-- `cb__config_is_space`: space, `\t`, `\v` and `\f`. -/
def isSpace (c : UInt8) : Bool := c == 0x20 || c == 0x09 || c == 0x0B || c == 0x0C

/-- `cb__config_key_head_ok`: a letter or `_`. -/
def keyHeadOk (c : UInt8) : Bool :=
  (0x41 ≤ c && c ≤ 0x5A) || (0x61 ≤ c && c ≤ 0x7A) || c == 0x5F

/-- `cb__config_key_tail_ok`: the same, a digit, `.` or `-`. -/
def keyTailOk (c : UInt8) : Bool :=
  keyHeadOk c || (0x30 ≤ c && c ≤ 0x39) || c == 0x2E || c == 0x2D

def keyValid : List UInt8 → Bool
  | [] => false
  | c :: rest => keyHeadOk c && rest.all keyTailOk

/-- The C string in a buffer. -/
def cstr (buffer : List UInt8) : List UInt8 := buffer.takeWhile (· ≠ 0)

/-! ## Entries -/

/-- `cb__config_entry_t` without its link. -/
structure Entry where
  key : List UInt8
  value : List UInt8

end CBase.Config

namespace CBase

open LinkedHeap

/-- `cb_config_t` with the memory its entries live in, and the number of requests for memory. -/
structure Config where
  info : Info
  errorLine : UInt32
  count : UInt32
  head : Option Ptr
  tail : Option Ptr
  entries : Heap Config.Entry
  requests : Nat

end CBase

namespace CBase.Config

open LinkedHeap

/-- Whether the next request for memory succeeds. -/
def request (cfg : Config) (ok : Nat → Bool) : Bool × Config :=
  (ok cfg.requests, { cfg with requests := cfg.requests + 1 })

/-- The buffer that `cb__config_strndup` returns. -/
def strndup (s : List UInt8) : List UInt8 := s ++ [0]

/-- The end of `cb__config_set`: append an entry. -/
def append (cfg : Config) (entry : Entry) : Option Config := do
  let (p, entries) := cfg.entries.alloc ⟨none, entry⟩
  let (head, entries) ← match cfg.head with
    | none => pure (some p, entries)
    | some head => do
      let tail ← cfg.tail
      let entries ← entries.setNext tail (some p)
      pure (some head, entries)
  return { cfg with head, entries, tail := some p, count := cfg.count + 1 }

/-- `cb__config_set`. -/
def set (ok : Nat → Bool) (cfg : Config) (key value : List UInt8) : Option (Info × Config) := do
  let existing ← find (fun e => cstr e.key == key) cfg.entries cfg.head
  let (got, cfg) := cfg.request ok
  if !got then return (.configAllocFailed, cfg)
  match existing with
  | some p =>
    let entries ← cfg.entries.modify p ({ · with value := strndup value })
    return (.ok, { cfg with entries })
  | none =>
    -- the buffer of the key, and the entry
    let (got, cfg) := cfg.request ok
    if !got then return (.configAllocFailed, cfg)
    let (got, cfg) := cfg.request ok
    if !got then return (.configAllocFailed, cfg)
    let cfg ← append cfg ⟨strndup key, strndup value⟩
    return (.ok, cfg)

/-- `cb_config_get`. The inner `none` is NULL. -/
def get (cfg : Config) (key : List UInt8) : Option (Option (List UInt8)) := do
  match ← find (fun e => cstr e.key == key) cfg.entries cfg.head with
  | none => return none
  | some p =>
    let entry ← cfg.entries.cell p
    return some (cstr entry.val.value)

/-! ## Lines -/

/-- The character that follows a backslash in quotes. -/
def unescape (c : UInt8) : Option UInt8 :=
  if c = quote then some quote
  else if c = backslash then some backslash
  else if c = 0x6E then some newline
  else if c = 0x74 then some 0x09
  else if c = 0x72 then some carriageReturn
  else none

/-- `if (w < cap) out[w++] = c;` -/
def push (cap : Nat) (out : List UInt8) (c : UInt8) : List UInt8 :=
  if out.length < cap then out ++ [c] else out

/-- The walk of `cb__config_decode_value` behind the opening quote. -/
def decodeQuoted (cap : Nat) : List UInt8 → List UInt8 → Except Info (List UInt8)
  | [], _ => .error .configUnterminatedString
  | c :: rest, out =>
    if c = quote then
      -- only blanks and a comment may follow
      match rest.dropWhile isSpace with
      | [] => .ok out
      | d :: _ => if d ≠ hash ∧ d ≠ semicolon then .error .configParseError else .ok out
    else if c = backslash then
      match rest with
      | [] => .error .configUnterminatedString
      | e :: rest =>
        match unescape e with
        | none => .error .configBadEscape
        | some d => decodeQuoted cap rest (push cap out d)
    else decodeQuoted cap rest (push cap out c)

def decodeValue (s : List UInt8) (cap : Nat) : Except Info (List UInt8) :=
  match s.dropWhile isSpace with
  | [] => .ok []
  | c :: rest =>
    if c = quote then decodeQuoted cap rest []
    else
      let text := ((c :: rest).takeWhile fun c => c ≠ hash ∧ c ≠ semicolon).rdropWhile isSpace
      .ok (text.take cap)

def parseLine (ok : Nat → Bool) (cfg : Config) (line : List UInt8) : Option (Info × Config) :=
  match line.dropWhile isSpace with
  | [] => some (.ok, cfg)
  | c :: rest =>
    if c = hash ∨ c = semicolon then some (.ok, cfg)
    else
      match (c :: rest).dropWhile (· ≠ equals) with
      | [] => some (.configParseError, cfg)
      | _ :: rhs =>
        let key := ((c :: rest).takeWhile (· ≠ equals)).rdropWhile isSpace
        if !keyValid key then some (.configBadKey, cfg)
        else
          -- the buffer that the value is decoded into
          let (got, cfg) := cfg.request ok
          if !got then some (.configAllocFailed, cfg)
          else
            match decodeValue rhs rhs.length with
            | .error info => some (info, cfg)
            | .ok value => set ok cfg key value

/-! ## Parse -/

def freeEntries (cfg : Config) : Option Config := do
  let entries ← freeAll cfg.entries cfg.head
  return { cfg with head := none, tail := none, count := 0, entries }

/-- A failed parse: the info, the line, and no entries. -/
def fail (cfg : Config) (info : Info) (line : UInt32) : Option Config :=
  freeEntries { cfg with info, errorLine := line }

/-- Without a single trailing carriage return. -/
def stripCr (raw : List UInt8) : List UInt8 :=
  if raw.getLast? = some carriageReturn then raw.dropLast else raw

def parseLoop (ok : Nat → Bool) : Nat → Config → UInt32 → List UInt8 → Option Config
  | 0, _, _, _ => none
  | n + 1, cfg, lineNo, text => do
    let raw := text.takeWhile (· ≠ newline)
    let line := stripCr raw
    let lineNo := lineNo + 1
    -- behind the last newline there is no line
    if text = [] then return cfg
    if lineMax < line.length then return ← fail cfg .configLineTooLong lineNo
    let (info, cfg) ← parseLine ok cfg line
    if info ≠ .ok then return ← fail cfg info lineNo
    match text.drop raw.length with
    | [] => return cfg
    | _ :: rest => parseLoop ok n cfg lineNo rest

/-- A config without entries. -/
def empty : Config := ⟨.ok, 0, 0, none, none, .empty, 0⟩

/-- `cb_config_parse`. A `text` of `none` is NULL. Every round of the loop consumes a byte or is the
last. -/
def parse (ok : Nat → Bool) (text : Option (List UInt8)) (len : Nat) : Option Config :=
  match text with
  | none =>
    if 0 < len then some { Config.empty with info := .configParseError }
    else parseLoop ok 1 .empty 0 []
  | some bytes => parseLoop ok (len + 1) .empty 0 (bytes.take len)

end CBase.Config
