import CBase.Config.Store
import CBase.Lib.Decimal
import CBase.Lib.MachineInt

/-!
# The integer getters

`cb__config_parse_i64` and `cb__config_parse_u64` read the C string of a value. What they accept is a
literal: every character of it is a digit, but for the sign.

* `Denotes`: a literal and the number it stands for.
* `integers_exact`: the getters accept exactly the literals whose number their type has, and yield it.
-/

namespace CBase.Config

def minus : UInt8 := 0x2D

def isDigit (c : UInt8) : Bool := 0x30 ≤ c && c ≤ 0x39

/-- `INT64_MAX`, as a `uint64_t`. -/
def int64Max : UInt64 := 0x7FFFFFFFFFFFFFFF

def uint64Max : UInt64 := 0xFFFFFFFFFFFFFFFF

/-- The loop over the digits, with its guard against overflow. The list ends where the NUL is. -/
def parseDigits (limit : UInt64) : List UInt8 → UInt64 → Option UInt64
  | [], acc => some acc
  | c :: s, acc =>
    if !isDigit c then none
    else
      let d := (c - 0x30).toUInt64
      if (limit - d) / 10 < acc then none else parseDigits limit s (acc * 10 + d)

def parseMagnitude (limit : UInt64) (s : List UInt8) : Option UInt64 :=
  if !s.head?.any isDigit then none else parseDigits limit s 0

def parseI64 (s : List UInt8) : Option Int64 :=
  if s.head? = some minus then
    (parseMagnitude (int64Max + 1) s.tail).map fun acc =>
      if acc = int64Max + 1 then Int64.minValue else -acc.toInt64
  else (parseMagnitude int64Max s).map UInt64.toInt64

def parseU64 : List UInt8 → Option UInt64 := parseMagnitude uint64Max

structure Typed (α : Type) where
  info : Info
  value : α
  deriving DecidableEq

def getTyped {α : Type} (parse : List UInt8 → Option α) (bad : Info) (cfg : Config)
    (key : List UInt8) (fallback : α) : Option (Typed α) := do
  match ← get cfg key with
  | none => return ⟨.configKeyNotFound, fallback⟩
  | some s =>
    match parse s with
    | none => return ⟨bad, fallback⟩
    | some v => return ⟨.ok, v⟩

def getI64 : Config → List UInt8 → Int64 → Option (Typed Int64) := getTyped parseI64 .configBadInt

def getU64 : Config → List UInt8 → UInt64 → Option (Typed UInt64) :=
  getTyped parseU64 .configBadInt

/-- A run of digits. -/
def IsDecimal (s : List UInt8) : Prop := s ≠ [] ∧ ∀ c ∈ s, Decimal.IsDigit c

/-- A run of digits, perhaps behind a minus sign. -/
def IsInteger (s : List UInt8) : Prop := IsDecimal s ∨ ∃ t, s = 0x2D :: t ∧ IsDecimal t

theorem isDigit_iff {c : UInt8} : isDigit c = true ↔ Decimal.IsDigit c := by
  have hzero : (0x30 : UInt8).toNat = 48 := rfl
  have hnine : (0x39 : UInt8).toNat = 57 := rfl
  simp only [isDigit, Decimal.IsDigit, Bool.and_eq_true, decide_eq_true_eq,
    UInt8.le_iff_toNat_le, hzero, hnine]
  omega

theorem parseDigits_digits {limit acc v : UInt64} {s : List UInt8}
    (h : parseDigits limit s acc = some v) : ∀ c ∈ s, Decimal.IsDigit c := by
  induction s generalizing acc with
  | nil => simp
  | cons c s ih =>
    rw [parseDigits] at h
    cases hc : isDigit c with
    | false => simp [hc] at h
    | true =>
      simp only [hc, Bool.not_true, Bool.false_eq_true, if_false] at h
      split at h
      · cases h
      · exact List.forall_mem_cons.mpr ⟨isDigit_iff.mp hc, ih h⟩

theorem parseMagnitude_decimal {limit v : UInt64} {s : List UInt8}
    (h : parseMagnitude limit s = some v) : IsDecimal s := by
  unfold parseMagnitude at h
  cases hhead : s.head?.any isDigit with
  | false => simp [hhead] at h
  | true =>
    simp only [hhead, Bool.not_true, Bool.false_eq_true, if_false] at h
    refine ⟨?_, parseDigits_digits h⟩
    rintro rfl
    cases hhead

/-- What `cb__config_parse_i64` accepts is a literal. -/
theorem parseI64_integer {s : List UInt8} {v : Int64} (h : parseI64 s = some v) : IsInteger s := by
  unfold parseI64 at h
  split at h
  · next hsign =>
    obtain ⟨acc, hacc, -⟩ := Option.map_eq_some_iff.mp h
    have hs : s = minus :: s.tail := List.eq_cons_of_mem_head? hsign
    exact .inr ⟨s.tail, hs, parseMagnitude_decimal hacc⟩
  · obtain ⟨acc, hacc, -⟩ := Option.map_eq_some_iff.mp h
    exact .inl (parseMagnitude_decimal hacc)

/-- A typed getter answers OK only if the string that `cb_config_get` returns can be parsed. -/
theorem getTyped_ok {α : Type} {parse : List UInt8 → Option α} {bad : Info} {cfg : Config}
    {key s : List UInt8} {fallback : α} {r : Typed α} (hget : get cfg key = some (some s))
    (h : getTyped parse bad cfg key fallback = some r) (hbad : bad ≠ .ok) (hr : r.info = .ok) :
    parse s = some r.value := by
  simp only [getTyped, hget, Option.bind_eq_bind, Option.bind_some] at h
  cases hs : parse s with
  | none =>
    simp only [hs, Option.pure_def, Option.some.injEq] at h
    subst h
    exact absurd hr hbad
  | some v =>
    simp only [hs, Option.pure_def, Option.some.injEq] at h
    subst h
    rfl

/-! ## What the parsers compute -/

open Decimal

theorem toNat_digit {c : UInt8} (hc : isDigit c = true) :
    (c - 0x30).toUInt64.toNat = digitValue c ∧ digitValue c < 10 := by
  obtain ⟨hlo, hhi⟩ := isDigit_iff.mp hc
  have hzero : (0x30 : UInt8).toNat = 48 := rfl
  rw [UInt8.toNat_toUInt64, UInt8.toNat_sub_of_le _ _ (by rwa [UInt8.le_iff_toNat_le]), digitValue]
  omega

/-- The guard of the loop passes exactly when the next value is within the limit. -/
theorem guard_iff {limit d : UInt64} (acc : UInt64) (hd : d.toNat ≤ limit.toNat) :
    ¬ (limit - d) / 10 < acc ↔ acc.toNat * 10 + d.toNat ≤ limit.toNat := by
  have hten : (10 : UInt64).toNat = 10 := rfl
  rw [UInt64.lt_iff_toNat_lt, UInt64.toNat_div, Nat.not_lt,
    UInt64.toNat_sub_of_le _ _ (by rwa [UInt64.le_iff_toNat_le]), hten,
    Nat.le_div_iff_mul_le (by decide)]
  omega

/-- The value after a digit that passes the guard. -/
theorem toNat_next {limit d acc : UInt64} (h : acc.toNat * 10 + d.toNat ≤ limit.toNat) :
    (acc * 10 + d).toNat = acc.toNat * 10 + d.toNat := by
  have hlimit := limit.toNat_lt
  have hten : (10 : UInt64).toNat = 10 := rfl
  rw [UInt64.toNat_add, UInt64.toNat_mul, hten, Nat.mod_add_mod, Nat.mod_eq_of_lt (by omega)]

/-- The loop accepts digits as long as the value stays within the limit. -/
theorem parseDigits_eq_some {limit acc v : UInt64} {s : List UInt8} (hlimit : 9 ≤ limit.toNat)
    (hacc : acc.toNat ≤ limit.toNat) : parseDigits limit s acc = some v ↔
      (∀ c ∈ s, Decimal.IsDigit c) ∧ v.toNat = acc.toNat * 10 ^ s.length + value s ∧
        v.toNat ≤ limit.toNat := by
  induction s generalizing acc with
  | nil =>
    rw [parseDigits, Option.some.injEq, ← UInt64.toNat_inj]
    simp only [List.not_mem_nil, false_imp_iff, implies_true, true_and, List.length_nil, pow_zero,
      Nat.mul_one, value_nil, Nat.add_zero]
    omega
  | cons c s ih =>
    rw [parseDigits, List.forall_mem_cons, ← isDigit_iff]
    cases hc : isDigit c with
    | false => simp
    | true =>
      obtain ⟨hd, hlt⟩ := toNat_digit hc
      rw [← hd] at hlt
      have hguard := guard_iff acc (Nat.le_trans (Nat.le_of_lt_succ hlt) hlimit)
      have hvalue : acc.toNat * 10 ^ (c :: s).length + value (c :: s) =
          (acc.toNat * 10 + (c - 0x30).toUInt64.toNat) * 10 ^ s.length + value s := by
        rw [value_cons, List.length_cons, pow_succ, hd]
        ring
      rw [hvalue]
      simp only [Bool.not_true, Bool.false_eq_true, if_false, true_and]
      by_cases hfits : acc.toNat * 10 + (c - 0x30).toUInt64.toNat ≤ limit.toNat
      · have hnext := toNat_next hfits
        rw [if_neg (hguard.mpr hfits), ih (hnext ▸ hfits), hnext]
      · rw [if_pos (not_not.mp (hguard.not.mpr hfits))]
        have hgrow := Nat.le_mul_of_pos_right
          (acc.toNat * 10 + (c - 0x30).toUInt64.toNat) (Nat.pow_pos (n := s.length) (by decide : 0 < 10))
        simp only [reduceCtorEq, false_iff, not_and]
        omega

theorem parseMagnitude_eq_some {limit v : UInt64} {s : List UInt8} (hlimit : 9 ≤ limit.toNat) :
    parseMagnitude limit s = some v ↔
      IsDecimal s ∧ v.toNat = value s ∧ v.toNat ≤ limit.toNat := by
  constructor
  · intro h
    have hs := parseMagnitude_decimal h
    refine ⟨hs, ?_⟩
    unfold parseMagnitude at h
    split at h
    · cases h
    · have hdigits := (parseDigits_eq_some hlimit (Nat.zero_le _)).mp h
      simpa using hdigits.2
  · rintro ⟨⟨hne, hall⟩, hv, hle⟩
    obtain ⟨c, t, rfl⟩ := List.exists_cons_of_ne_nil hne
    have hhead : isDigit c = true := isDigit_iff.mpr (hall c List.mem_cons_self)
    rw [parseMagnitude, List.head?_cons, Option.any_some, hhead]
    simp only [Bool.not_true, Bool.false_eq_true, if_false]
    exact (parseDigits_eq_some hlimit (Nat.zero_le _)).mpr ⟨hall, by simpa using hv, hle⟩

/-- No operation of the loop wraps: a digit is no larger than the limit, and a digit that passes the
guard leads to a value below `2 ^ 64`. -/
def DigitsFit (limit : UInt64) : List UInt8 → UInt64 → Prop
  | [], _ => True
  | c :: s, acc => isDigit c = true →
      let d := (c - 0x30).toUInt64
      d.toNat ≤ limit.toNat ∧ (¬ (limit - d) / 10 < acc →
        acc.toNat * 10 + d.toNat < 2 ^ 64 ∧ DigitsFit limit s (acc * 10 + d))

theorem digitsFit {limit : UInt64} (hlimit : 9 ≤ limit.toNat) (s : List UInt8) (acc : UInt64) :
    DigitsFit limit s acc := by
  induction s generalizing acc with
  | nil => trivial
  | cons c s ih =>
    intro hc
    obtain ⟨hd, hlt⟩ := toNat_digit hc
    rw [← hd] at hlt
    have hle := Nat.le_trans (Nat.le_of_lt_succ hlt) hlimit
    refine ⟨hle, fun hguard => ⟨?_, ih _⟩⟩
    exact Nat.lt_of_le_of_lt ((guard_iff acc hle).mp hguard) limit.toNat_lt

/-- No operation of the two parsers wraps or overflows. The last two parts are about
`(int64_t)acc` and `-(int64_t)acc`: what is converted is below `2 ^ 63`. -/
structure NoOverflow (s : List UInt8) : Prop where
  signed : DigitsFit int64Max s 0
  negative : DigitsFit (int64Max + 1) s.tail 0
  unsigned : DigitsFit uint64Max s 0
  converted : ∀ acc, parseMagnitude int64Max s = some acc → acc.toNat < 2 ^ 63
  negated : ∀ acc, parseMagnitude (int64Max + 1) s.tail = some acc → acc ≠ int64Max + 1 →
    acc.toNat < 2 ^ 63

/-- The value of a literal, with its sign. -/
def Denotes (s : List UInt8) (z : Int) : Prop :=
  (IsDecimal s ∧ z = value s) ∨ ∃ t, s = 0x2D :: t ∧ IsDecimal t ∧ z = -(value t : Int)

theorem toNat_int64Max : int64Max.toNat = 2 ^ 63 - 1 := rfl

theorem toNat_int64Max_succ : (int64Max + 1).toNat = 2 ^ 63 := rfl

theorem toInt_of_small {acc : UInt64} (h : acc.toNat < 2 ^ 63) : acc.toInt64.toInt = acc.toNat :=
  MachineInt.toInt_toInt64 h

/-- The sign of a negative literal, with the special case for `INT64_MIN`. -/
theorem toInt_negated {acc : UInt64} (h : acc.toNat ≤ 2 ^ 63) :
    (if acc = int64Max + 1 then Int64.minValue else -acc.toInt64).toInt = -(acc.toNat : Int) := by
  split_ifs with hmin
  · rw [hmin]
    rfl
  · have hne : acc.toNat ≠ 2 ^ 63 := fun h0 => hmin (UInt64.toNat_inj.mp h0)
    rw [Int64.toInt_neg, toInt_of_small (by omega)]
    exact MachineInt.bmod_of_range (by omega) (by omega)

theorem minus_not_digit : ¬ Decimal.IsDigit minus := isDigit_iff.not.mp nofun

/-- The magnitude with a sign put on it. -/
theorem map_parseMagnitude {limit : UInt64} {f : UInt64 → Int64} {k : Int} {s : List UInt8}
    {v : Int64} (hlimit : 9 ≤ limit.toNat)
    (hf : ∀ acc : UInt64, acc.toNat ≤ limit.toNat → (f acc).toInt = k * acc.toNat) :
    (parseMagnitude limit s).map f = some v ↔
      IsDecimal s ∧ value s ≤ limit.toNat ∧ v.toInt = k * value s := by
  rw [Option.map_eq_some_iff]
  constructor
  · rintro ⟨acc, hacc, rfl⟩
    obtain ⟨hs, hv, hle⟩ := (parseMagnitude_eq_some hlimit).mp hacc
    exact ⟨hs, hv ▸ hle, by rw [hf acc hle, hv]⟩
  · rintro ⟨hs, hle, hv⟩
    have hnat : (UInt64.ofNat (value s)).toNat = value s :=
      UInt64.toNat_ofNat_of_lt' (Nat.lt_of_le_of_lt hle limit.toNat_lt)
    have hbound : (UInt64.ofNat (value s)).toNat ≤ limit.toNat := by rwa [hnat]
    refine ⟨.ofNat (value s), (parseMagnitude_eq_some hlimit).mpr ⟨hs, hnat, hbound⟩, ?_⟩
    rw [← Int64.toInt_inj, hf _ hbound, hnat, hv]

/-- `cb__config_parse_i64` accepts a literal with its value. -/
theorem parseI64_eq_some {s : List UInt8} {v : Int64} :
    parseI64 s = some v ↔ Denotes s v.toInt := by
  have hlo := v.le_toInt
  have hhi := v.toInt_lt
  unfold parseI64 Denotes
  split
  · next hsign =>
    obtain ⟨t, rfl⟩ : ∃ t, s = minus :: t := ⟨s.tail, List.eq_cons_of_mem_head? hsign⟩
    have hno : ¬ IsDecimal (minus :: t) := fun h =>
      minus_not_digit (h.2 minus List.mem_cons_self)
    have hsplit : ((IsDecimal (minus :: t) ∧ v.toInt = value (minus :: t)) ∨
        ∃ u, minus :: t = 0x2D :: u ∧ IsDecimal u ∧ v.toInt = -(value u : Int)) ↔
        IsDecimal t ∧ v.toInt = -(value t : Int) := by
      constructor
      · rintro (⟨h, -⟩ | ⟨u, hu, h⟩)
        · exact absurd h hno
        · rwa [(List.cons.inj hu).2]
      · exact fun h => .inr ⟨t, rfl, h⟩
    rw [hsplit, List.tail_cons, map_parseMagnitude (k := -1) (by decide)
      fun acc hacc => by rw [toInt_negated hacc, Int.neg_one_mul]]
    refine and_congr_right fun _ => ⟨fun h => by rw [h.2, Int.neg_one_mul], fun h => ?_⟩
    exact ⟨by rw [toNat_int64Max_succ]; omega, by rw [h, Int.neg_one_mul]⟩
  · next hsign =>
    have hno : ¬ ∃ t, s = 0x2D :: t ∧ IsDecimal t ∧ v.toInt = -(value t : Int) := by
      rintro ⟨t, rfl, -⟩
      exact hsign rfl
    simp only [hno, or_false]
    rw [map_parseMagnitude (k := 1) (by decide) fun acc hacc => by
      rw [toNat_int64Max] at hacc
      rw [toInt_of_small (by omega), Int.one_mul]]
    refine and_congr_right fun _ => ⟨fun h => by rw [h.2, Int.one_mul], fun h => ?_⟩
    exact ⟨by rw [toNat_int64Max]; omega, by rw [h, Int.one_mul]⟩

/-- `cb__config_parse_u64` accepts a run of digits with its value. -/
theorem parseU64_eq_some {s : List UInt8} {v : UInt64} :
    parseU64 s = some v ↔ IsDecimal s ∧ v.toNat = value s := by
  rw [parseU64, parseMagnitude_eq_some (by decide)]
  have hmax : uint64Max.toNat = 2 ^ 64 - 1 := rfl
  have hlt := v.toNat_lt
  refine and_congr_right fun _ => ⟨fun h => h.1, fun h => ⟨h, ?_⟩⟩
  omega

theorem noOverflow (s : List UInt8) : NoOverflow s where
  signed := digitsFit (by decide) s 0
  negative := digitsFit (by decide) s.tail 0
  unsigned := digitsFit (by decide) s 0
  converted acc h := by
    have hle := ((parseMagnitude_eq_some (by decide)).mp h).2.2
    rw [toNat_int64Max] at hle
    omega
  negated acc h hne := by
    have hle := ((parseMagnitude_eq_some (by decide)).mp h).2.2
    rw [toNat_int64Max_succ] at hle
    exact Nat.lt_of_le_of_ne hle fun h0 => hne (UInt64.toNat_inj.mp h0)

/-- The integer getters parse exactly the decimals that their types represent. For every string, of
any length and with any number of leading zeros, the signed parser succeeds on the literals of the
range of `int64_t`, the unsigned one on those of `uint64_t`, both with the value of the literal, and
no operation in them overflows. -/
theorem integers_exact (s : List UInt8) :
    (∀ v, parseI64 s = some v ↔ Denotes s v.toInt) ∧
    ((parseI64 s).isSome ↔ ∃ z, Denotes s z ∧ -2 ^ 63 ≤ z ∧ z ≤ 2 ^ 63 - 1) ∧
    (∀ v, parseU64 s = some v ↔ IsDecimal s ∧ v.toNat = value s) ∧
    ((parseU64 s).isSome ↔ IsDecimal s ∧ value s < 2 ^ 64) ∧
    NoOverflow s := by
  refine ⟨fun _ => parseI64_eq_some, ?_, fun _ => parseU64_eq_some, ?_, noOverflow s⟩
  · rw [Option.isSome_iff_exists]
    constructor
    · rintro ⟨v, hv⟩
      exact ⟨v.toInt, parseI64_eq_some.mp hv, v.le_toInt, Int.le_sub_one_of_lt v.toInt_lt⟩
    · rintro ⟨z, hz, hlo, hhi⟩
      refine ⟨.ofInt z, parseI64_eq_some.mpr ?_⟩
      rwa [Int64.toInt_ofInt, MachineInt.bmod_of_range (by simp [Int64.size]; omega)
        (by simp [Int64.size]; omega)]
  · rw [Option.isSome_iff_exists]
    constructor
    · rintro ⟨v, hv⟩
      obtain ⟨hs, hvalue⟩ := parseU64_eq_some.mp hv
      exact ⟨hs, hvalue ▸ v.toNat_lt⟩
    · rintro ⟨hs, hlt⟩
      exact ⟨.ofNat (value s), parseU64_eq_some.mpr ⟨hs, UInt64.toNat_ofNat_of_lt' hlt⟩⟩

end CBase.Config
