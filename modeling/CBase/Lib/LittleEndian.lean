import Mathlib.Data.Nat.Bitwise
import Mathlib.Data.List.Basic

/-!
# Little-endian bytes

`toBytes n v` are the `n` low bytes of the number `v`, the lowest first, and `ofBytes` is the number
of a list of bytes. They are inverse to each other (`ofBytes_toBytes`, `toBytes_ofBytes`).

Programs compute them with shifts: `shiftBytes n v s` takes the bytes of a word out by right
shifts, `orBytes bs s` puts them together with left shifts and `|`. Both agree with the arithmetic
as long as the shifts stay inside the word (`shiftBytes_eq`, `toNat_orBytes`).
-/

namespace LittleEndian

/-- The `n` low bytes of `v`. -/
def toBytes : Nat → Nat → List UInt8
  | 0, _ => []
  | n + 1, v => UInt8.ofNat v :: toBytes n (v / 256)

/-- The number with these bytes. -/
def ofBytes : List UInt8 → Nat
  | [] => 0
  | b :: bs => b.toNat + 256 * ofBytes bs

@[simp] theorem length_toBytes (n v : Nat) : (toBytes n v).length = n := by
  induction n generalizing v with
  | zero => rfl
  | succ n ih => rw [toBytes, List.length_cons, ih]

theorem ofBytes_lt (bs : List UInt8) : ofBytes bs < 256 ^ bs.length := by
  induction bs with
  | nil => exact Nat.one_pos
  | cons b bs ih =>
    have hb := b.toNat_lt
    rw [ofBytes, List.length_cons, Nat.pow_succ]
    omega

theorem ofBytes_toBytes (n v : Nat) : ofBytes (toBytes n v) = v % 256 ^ n := by
  induction n generalizing v with
  | zero => rw [toBytes, ofBytes, Nat.pow_zero, Nat.mod_one]
  | succ n ih =>
    have hmod : v % 256 ^ (n + 1) = v % 256 + 256 * (v / 256 % 256 ^ n) := by
      rw [Nat.pow_succ, Nat.mul_comm, Nat.mod_mul]
    rw [toBytes, ofBytes, ih, UInt8.toNat_ofNat', hmod]

theorem toBytes_ofBytes (bs : List UInt8) : toBytes bs.length (ofBytes bs) = bs := by
  induction bs with
  | nil => rfl
  | cons b bs ih =>
    have hb := b.toNat_lt
    have hmod : (b.toNat + 256 * ofBytes bs) % 256 = b.toNat := by omega
    have hdiv : (b.toNat + 256 * ofBytes bs) / 256 = ofBytes bs := by omega
    rw [List.length_cons, ofBytes, toBytes, hdiv, ih]
    congr 1
    refine UInt8.toNat_inj.mp ?_
    rw [UInt8.toNat_ofNat', hmod]

/-! ## Shifts on 64-bit words -/

/-- The `n` bytes of `v` from bit `s` on: `(uint8_t)(v >> s)`, `(uint8_t)(v >> (s + 8))`, ... -/
def shiftBytes : Nat → UInt64 → Nat → List UInt8
  | 0, _, _ => []
  | n + 1, v, s => (v >>> UInt64.ofNat s).toUInt8 :: shiftBytes n v (s + 8)

/-- `(uint64_t)b0 << s | (uint64_t)b1 << (s + 8) | ...` -/
def orBytes : List UInt8 → Nat → UInt64
  | [], _ => 0
  | b :: bs, s => (b.toUInt64 <<< UInt64.ofNat s) ||| orBytes bs (s + 8)

@[simp] theorem length_shiftBytes (n : Nat) (v : UInt64) (s : Nat) :
    (shiftBytes n v s).length = n := by
  induction n generalizing s with
  | zero => rfl
  | succ n ih => rw [shiftBytes, List.length_cons, ih]

theorem toNat_ofNat_shift {s : Nat} (hs : s < 64) : (UInt64.ofNat s).toNat % 64 = s := by
  rw [UInt64.toNat_ofNat']
  omega

theorem shiftBytes_eq {n s : Nat} (v : UInt64) (h : s + 8 * n ≤ 64) :
    shiftBytes n v s = toBytes n (v.toNat / 2 ^ s) := by
  induction n generalizing s with
  | zero => rfl
  | succ n ih =>
    have hbyte : (v >>> UInt64.ofNat s).toUInt8 = UInt8.ofNat (v.toNat / 2 ^ s) := by
      refine UInt8.toNat_inj.mp ?_
      rw [UInt64.toNat_toUInt8, UInt64.toNat_shiftRight, toNat_ofNat_shift (by omega),
        UInt8.toNat_ofNat', Nat.shiftRight_eq_div_pow]
    rw [shiftBytes, toBytes, ih (by omega), hbyte, Nat.div_div_eq_div_mul, Nat.pow_add]

theorem toNat_orBytes {bs : List UInt8} {s : Nat} (h : s + 8 * bs.length ≤ 64) :
    (orBytes bs s).toNat = ofBytes bs * 2 ^ s := by
  induction bs generalizing s with
  | nil => rw [orBytes, ofBytes, Nat.zero_mul, UInt64.toNat_zero]
  | cons b bs ih =>
    rw [List.length_cons] at h
    have hb : b.toNat * 2 ^ s < 2 ^ (s + 8) := by
      rw [Nat.pow_add, Nat.mul_comm (2 ^ s)]
      exact Nat.mul_lt_mul_of_pos_right b.toNat_lt (Nat.two_pow_pos s)
    have hle : 2 ^ (s + 8) ≤ 2 ^ 64 := Nat.pow_le_pow_right (by omega) (by omega)
    have hshift : (b.toUInt64 <<< UInt64.ofNat s).toNat = b.toNat * 2 ^ s := by
      rw [UInt64.toNat_shiftLeft, toNat_ofNat_shift (by omega), UInt8.toNat_toUInt64,
        Nat.shiftLeft_eq, Nat.mod_eq_of_lt (by omega)]
    rw [orBytes, UInt64.toNat_or, hshift, ih (by omega), Nat.or_comm, Nat.mul_comm (ofBytes bs),
      ← Nat.two_pow_add_eq_or_of_lt hb, ofBytes, Nat.add_mul, Nat.pow_add, Nat.add_comm]
    congr 1
    rw [Nat.mul_comm (2 ^ s), Nat.mul_assoc, Nat.mul_comm (2 ^ s), Nat.mul_assoc]

/-- Taking a word apart and putting it together again. -/
theorem orBytes_shiftBytes {n : Nat} {v : UInt64} (hn : n ≤ 8) (hv : v.toNat < 256 ^ n) :
    orBytes (shiftBytes n v 0) 0 = v := by
  refine UInt64.toNat_inj.mp ?_
  rw [toNat_orBytes (by rw [length_shiftBytes]; omega), shiftBytes_eq v (by omega),
    ofBytes_toBytes, Nat.pow_zero, Nat.div_one, Nat.mul_one, Nat.mod_eq_of_lt hv]

/-- Putting bytes together and taking the word apart again. -/
theorem shiftBytes_orBytes {bs : List UInt8} (h : bs.length ≤ 8) :
    shiftBytes bs.length (orBytes bs 0) 0 = bs := by
  rw [shiftBytes_eq _ (by omega), toNat_orBytes (by omega), Nat.pow_zero, Nat.mul_one, Nat.div_one,
    toBytes_ofBytes]

theorem orBytes_lt {bs : List UInt8} (h : bs.length ≤ 8) :
    (orBytes bs 0).toNat < 256 ^ bs.length := by
  rw [toNat_orBytes (by omega), Nat.pow_zero, Nat.mul_one]
  exact ofBytes_lt bs

end LittleEndian
