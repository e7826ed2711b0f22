import CBase.Info
import CBase.Lib.Lcg
import CBase.Lib.MachineInt

/-!
# The PCG32 generator

A generator is a state and an odd increment. `u32Below` draws until a draw is accepted; it has a
result for every generator and every bound (`u32Below_spec`), because the generator reaches every
state and some state yields a draw that is accepted.
-/

namespace CBase

/-- `cb_rng_t`. Every generator that `cb_rng_seed` returns has an odd increment, and no function
changes it. -/
structure Rng where
  info : Info
  state : UInt64
  inc : UInt64
  odd : inc.toNat % 2 = 1

namespace Rng

def mult : UInt64 := 6364136223846793005

def step (rng : Rng) : Rng := { rng with state := rng.state * mult + rng.inc }

def output (state : UInt64) : UInt32 :=
  let xs := (((state >>> 18) ^^^ state) >>> 27).toUInt32
  let rot := (state >>> 59).toUInt32
  let shr := rot
  let shl := (32 - rot) &&& 31
  ((xs >>> shr).toUInt64 ||| (xs.toUInt64 <<< shl.toUInt64)).toUInt32

theorem odd_inc (stream : UInt64) : ((stream <<< 1) ||| 1).toNat % 2 = 1 := by
  rw [UInt64.toNat_or, Nat.or_mod_two_eq_one]
  exact .inr rfl

def seed (seed stream : UInt64) : Rng :=
  let rng := step ⟨.ok, 0, (stream <<< 1) ||| 1, odd_inc stream⟩
  step { rng with state := rng.state + seed }

/-- `cb_rng_u32`. -/
def u32 (rng : Rng) : UInt32 × Rng := (output rng.state, rng.step)

/-- `cb_rng_u64`. -/
def u64 (rng : Rng) : UInt64 × Rng :=
  let (high, rng) := rng.u32
  let (low, rng) := rng.u32
  (high.toUInt64 <<< 32 ||| low.toUInt64, rng)

/-- `while (l < t) { ... }` of `cb_rng_u32_below`, where `l` is the low word of `m`. -/
def rejectLoop (bound t : UInt32) : Nat → Rng → UInt64 → Option (UInt64 × Rng)
  | 0, _, _ => none
  | n + 1, rng, m =>
    -- the low word decides, the high word is the value
    if m.toUInt32 < t then
      let (x, rng) := rng.u32
      rejectLoop bound t n rng (x.toUInt64 * bound.toUInt64)
    else some (m, rng)

/-- `cb_rng_u32_below`. The loop ends before it has seen every state twice. -/
def u32Below (rng : Rng) (bound : UInt32) : Option (UInt32 × Rng) := do
  if bound = 0 then return (0, rng)
  let (x, rng) := rng.u32
  let m := x.toUInt64 * bound.toUInt64
  if m.toUInt32 < bound then
    let t := (((1 : UInt64) <<< 32) % bound.toUInt64).toUInt32
    let (m, rng) ← rejectLoop bound t (2 ^ 64 + 1) rng m
    return ((m >>> 32).toUInt32, rng)
  return ((m >>> 32).toUInt32, rng)

/-- The draw of `cb_rng_i32_range`, for a span from 1 to `2 ^ 32`. -/
def spanDraw (rng : Rng) (span64 : Int64) : Option (UInt32 × Rng) :=
  if (1 : Int64) <<< 32 ≤ span64 then some rng.u32 else rng.u32Below span64.toUInt64.toUInt32

def i32Range (rng : Rng) (lo hiInclusive : Int32) : Option (Int32 × Rng) := do
  if hiInclusive < lo then return (lo, rng)
  let span64 := hiInclusive.toInt64 - lo.toInt64 + 1
  let (r, rng) ← rng.spanDraw span64
  return ((lo.toInt64 + r.toUInt64.toInt64).toInt32, rng)

def fx16One : Int32 := 65536

def fx16Unit (rng : Rng) : Int32 × Rng :=
  let (u, rng) := rng.u32
  ((u >>> 16).toInt32, rng)

def brad (rng : Rng) : UInt16 × Rng :=
  let (u, rng) := rng.u32
  ((u >>> 16).toUInt16, rng)

def bool (rng : Rng) : Bool × Rng :=
  let (u, rng) := rng.u32
  (u >>> 31 ≠ 0, rng)

def chanceFx16 (rng : Rng) (probability : Int32) : Bool × Rng :=
  if probability ≤ 0 then (false, rng)
  else if fx16One ≤ probability then (true, rng)
  else
    let (unit, rng) := rng.fx16Unit
    (unit < probability, rng)

/-! ## The loop ends -/

/-- A state that yields the draw 1, which every bound accepts. -/
theorem output_one : output 134217728 = 1 := by decide

theorem state_step (rng : Rng) : rng.step.state = rng.state * mult + rng.inc := rfl

theorem toNat_state_step (rng : Rng) :
    rng.step.state.toNat = (mult.toNat * rng.state.toNat + rng.inc.toNat) % 2 ^ 64 := by
  rw [state_step, UInt64.toNat_add, UInt64.toNat_mul, Nat.mod_add_mod, Nat.mul_comm]

theorem inc_step (rng : Rng) : rng.step.inc = rng.inc := by
  cases rng
  rfl

theorem inc_iterate (rng : Rng) (n : Nat) : (step^[n] rng).inc = rng.inc := by
  induction n with
  | zero => rfl
  | succ n ih => rw [Function.iterate_succ_apply', inc_step, ih]

theorem info_step (rng : Rng) : rng.step.info = rng.info := by
  cases rng
  rfl

theorem info_iterate (rng : Rng) (n : Nat) : (step^[n] rng).info = rng.info := by
  induction n with
  | zero => rfl
  | succ n ih => rw [Function.iterate_succ_apply', info_step, ih]

theorem toNat_state_iterate (rng : Rng) (n : Nat) :
    (step^[n] rng).state.toNat =
      (fun z => (mult.toNat * z + rng.inc.toNat) % 2 ^ 64)^[n] rng.state.toNat := by
  induction n with
  | zero => rfl
  | succ n ih =>
    rw [Function.iterate_succ_apply', Function.iterate_succ_apply', toNat_state_step, ih,
      inc_iterate]

/-- The generator reaches every state. -/
theorem reaches (rng : Rng) (state : UInt64) : ∃ n, n < 2 ^ 64 ∧ (step^[n] rng).state = state := by
  obtain ⟨n, hn, heq⟩ := Lcg.lcg_reaches (k := 64) (a := mult.toNat) rfl rng.odd
    rng.state.toNat_lt state.toNat_lt
  exact ⟨n, hn, UInt64.toNat_inj.mp (by rw [toNat_state_iterate, heq])⟩

/-- The product of a draw and the bound. -/
theorem toNat_mul_bound (x bound : UInt32) :
    (x.toUInt64 * bound.toUInt64).toNat = x.toNat * bound.toNat := by
  have hx := x.toNat_lt
  have hb := bound.toNat_lt
  have hlt : x.toNat * bound.toNat < 2 ^ 64 := by
    calc x.toNat * bound.toNat < 2 ^ 32 * 2 ^ 32 := Nat.mul_lt_mul'' hx hb
      _ = 2 ^ 64 := by norm_num
  rw [UInt64.toNat_mul, UInt32.toNat_toUInt64, UInt32.toNat_toUInt64, Nat.mod_eq_of_lt hlt]

theorem threshold_lt {bound : UInt32} (hb : bound ≠ 0) :
    (((1 : UInt64) <<< 32) % bound.toUInt64).toUInt32 < bound := by
  have hpos : 0 < bound.toNat := Nat.pos_of_ne_zero fun h => hb (UInt32.toNat_inj.mp h)
  rw [UInt32.lt_iff_toNat_lt, UInt64.toNat_toUInt32, UInt64.toNat_mod, UInt32.toNat_toUInt64]
  exact Nat.lt_of_le_of_lt (Nat.mod_le _ _) (Nat.mod_lt _ hpos)

theorem one_accepted {bound t : UInt32} (ht : t < bound) :
    ¬ ((1 : UInt32).toUInt64 * bound.toUInt64).toUInt32 < t := by
  have hone : ((1 : UInt32).toUInt64 * bound.toUInt64).toUInt32 = bound := by
    rw [show (1 : UInt32).toUInt64 = 1 from rfl, UInt64.one_mul, UInt32.toUInt32_toUInt64]
  rw [hone, UInt32.lt_iff_toNat_lt]
  rw [UInt32.lt_iff_toNat_lt] at ht
  omega

/-- The loop ends when, `k` draws on, the generator yields 1. -/
theorem rejectLoop_spec {bound t : UInt32} (ht : t < bound) {n k : Nat} {rng : Rng} {x : UInt32}
    (hk : (step^[k] rng).state = 134217728) (hn : k + 2 ≤ n) :
    ∃ (y : UInt32) (rng' : Rng), rejectLoop bound t n rng (x.toUInt64 * bound.toUInt64) =
      some (y.toUInt64 * bound.toUInt64, rng') := by
  induction k generalizing n rng x with
  | zero =>
    obtain ⟨n, rfl⟩ : ∃ m, n = m + 2 := ⟨n - 2, by omega⟩
    unfold rejectLoop
    split
    · rw [Function.iterate_zero_apply] at hk
      refine ⟨1, rng.step, ?_⟩
      simp only [u32, hk, output_one]
      unfold rejectLoop
      rw [if_neg (one_accepted ht)]
    · exact ⟨x, rng, rfl⟩
  | succ k ih =>
    obtain ⟨n, rfl⟩ : ∃ m, n = m + 1 := ⟨n - 1, by omega⟩
    unfold rejectLoop
    rw [Function.iterate_succ_apply] at hk
    split
    · simp only [u32]
      exact ih hk (by omega)
    · exact ⟨x, rng, rfl⟩

/-! ## Bounded draws -/

theorem high_word_lt {x bound : UInt32} (hb : bound ≠ 0) :
    ((x.toUInt64 * bound.toUInt64) >>> 32).toUInt32 < bound := by
  have hpos : 0 < bound.toNat := Nat.pos_of_ne_zero fun h => hb (UInt32.toNat_inj.mp h)
  have hhigh : x.toNat * bound.toNat / 2 ^ 32 < bound.toNat := by
    rw [Nat.div_lt_iff_lt_mul (by norm_num), Nat.mul_comm]
    exact Nat.mul_lt_mul_of_pos_left x.toNat_lt hpos
  rw [UInt32.lt_iff_toNat_lt, UInt64.toNat_toUInt32, UInt64.toNat_shiftRight, toNat_mul_bound,
    Nat.shiftRight_eq_div_pow]
  exact Nat.lt_of_le_of_lt (Nat.mod_le _ _) hhigh

/-- A bounded draw has a result, and it is below the bound. -/
theorem u32Below_spec (rng : Rng) {bound : UInt32} (hb : bound ≠ 0) :
    ∃ r rng', rng.u32Below bound = some (r, rng') ∧ r < bound := by
  unfold u32Below
  simp only [hb, if_false, Option.pure_def, Option.bind_eq_bind]
  split
  · obtain ⟨k, hk, hstate⟩ := rng.u32.2.reaches 134217728
    obtain ⟨y, rng', hloop⟩ := rejectLoop_spec (n := 2 ^ 64 + 1) (x := rng.u32.1) (threshold_lt hb)
      hstate (by omega)
    rw [hloop]
    exact ⟨_, _, rfl, high_word_lt hb⟩
  · exact ⟨_, _, rfl, high_word_lt hb⟩

theorem u32Below_total (rng : Rng) (bound : UInt32) : (rng.u32Below bound).isSome := by
  by_cases hb : bound = 0
  · simp [u32Below, hb]
  · obtain ⟨r, rng', hr, -⟩ := rng.u32Below_spec hb
    simp [hr]

/-- The last line of `cb_rng_i32_range`: the sum of the lower end and a draw in the range. -/
theorem toInt_offset {lo hi : Int32} {r : UInt32} (h : lo.toInt + r.toNat ≤ hi.toInt) :
    ((lo.toInt64 + r.toUInt64.toInt64).toInt32).toInt = lo.toInt + r.toNat := by
  have hlo := lo.le_toInt
  have hhi := hi.toInt_lt
  have hr : r.toUInt64.toInt64.toInt = r.toNat := by
    rw [MachineInt.toInt_toInt64 (by have := r.toNat_lt; simp; omega), UInt32.toNat_toUInt64]
  have hsum : (lo.toInt64 + r.toUInt64.toInt64).toInt = lo.toInt + r.toNat := by
    rw [MachineInt.toInt_add (by simp [hr]; omega) (by simp [hr]; omega), Int32.toInt_toInt64, hr]
  rw [MachineInt.toInt_toInt32 (by omega) (by omega), hsum]

theorem toInt_span {lo hi : Int32} (h : lo ≤ hi) :
    (hi.toInt64 - lo.toInt64 + 1).toInt = hi.toInt - lo.toInt + 1 := by
  have hlo := lo.le_toInt
  have hhi := hi.toInt_lt
  rw [Int32.le_iff_toInt_le] at h
  have hone : (1 : Int64).toInt = 1 := rfl
  have hsub : (hi.toInt64 - lo.toInt64).toInt = hi.toInt - lo.toInt := by
    rw [MachineInt.toInt_sub (by simp; omega) (by simp; omega), Int32.toInt_toInt64,
      Int32.toInt_toInt64]
  rw [MachineInt.toInt_add (by rw [hsub, hone]; omega) (by rw [hsub, hone]; omega), hsub, hone]

/-- The draw stays below the span, also when the span is all of 32 bits. -/
theorem spanDraw_spec (rng : Rng) {span64 : Int64} (hpos : 0 < span64.toInt)
    (hspan : span64.toInt ≤ 2 ^ 32) :
    ∃ r rng', rng.spanDraw span64 = some (r, rng') ∧ (r.toNat : Int) < span64.toInt := by
  have hmax : ((1 : Int64) <<< 32).toInt = 2 ^ 32 := rfl
  unfold spanDraw
  split
  · next hfull =>
    rw [Int64.le_iff_toInt_le, hmax] at hfull
    obtain ⟨r, rng'⟩ := rng.u32
    have hr := r.toNat_lt
    exact ⟨r, rng', rfl, by omega⟩
  · next hpart =>
    rw [Int64.le_iff_toInt_le, hmax] at hpart
    have hwide := MachineInt.toNat_toUInt64 (a := span64) (by omega)
    have hnat : (span64.toUInt64.toUInt32.toNat : Int) = span64.toInt := by
      rw [UInt64.toNat_toUInt32, Nat.mod_eq_of_lt (by omega), hwide]
    have hne : span64.toUInt64.toUInt32 ≠ 0 := fun h0 => by
      rw [h0, UInt32.toNat_zero] at hnat
      omega
    obtain ⟨r, rng', hbelow, hr⟩ := rng.u32Below_spec hne
    rw [UInt32.lt_iff_toNat_lt] at hr
    exact ⟨r, rng', hbelow, by omega⟩

/-- A draw from a range lies in the range. -/
theorem i32Range_spec (rng : Rng) {lo hi : Int32} (h : lo ≤ hi) :
    ∃ r rng', rng.i32Range lo hi = some (r, rng') ∧ lo ≤ r ∧ r ≤ hi := by
  have hlo := lo.le_toInt
  have hhi := hi.toInt_lt
  have hspan := toInt_span h
  rw [Int32.le_iff_toInt_le] at h
  obtain ⟨r, rng', hdraw, hr⟩ := @spanDraw_spec rng (hi.toInt64 - lo.toInt64 + 1) (by omega) (by omega)
  have hsum := @toInt_offset lo hi r (by omega)
  have hnot : ¬ hi < lo := by
    rw [Int32.lt_iff_toInt_lt]
    omega
  refine ⟨(lo.toInt64 + r.toUInt64.toInt64).toInt32, rng', by simp [i32Range, hnot, hdraw], ?_, ?_⟩
  · rw [Int32.le_iff_toInt_le, hsum]
    omega
  · rw [Int32.le_iff_toInt_le, hsum]
    omega

theorem i32Range_total (rng : Rng) (lo hi : Int32) : (rng.i32Range lo hi).isSome := by
  by_cases h : hi < lo
  · simp [i32Range, h]
  · obtain ⟨r, rng', hr, -⟩ := rng.i32Range_spec (Int32.not_lt.mp h)
    simp [hr]

end Rng

end CBase
