import CBase.Lib.Rejection
import CBase.Random.Pcg
import Mathlib.Data.Set.Card

/-!
# Bounded draws

`cb_rng_u32_below` returns the scaled value of the first draw of the stream that its rule accepts
(`u32Below_first`), the rule is that of `Rejection`, and so every number below the bound has the same
count of accepted draws.

* `bounded_draws_unbiased`: the same for the ranges that are built on bounded draws.
* `bounded_draw_ends`: every stream has an accepted draw.
-/

namespace CBase.Rng

/-- The result of `cb_rng_u32` after `k` calls of it. -/
def draw (rng : Rng) (k : Nat) : UInt32 := (step^[k] rng).u32.1

/-- `l` of `cb_rng_u32_below`. -/
def lowWord (bound x : UInt32) : UInt32 := (x.toUInt64 * bound.toUInt64).toUInt32

/-- What `cb_rng_u32_below` returns for a draw that it accepts. -/
def highWord (bound x : UInt32) : UInt32 := ((x.toUInt64 * bound.toUInt64) >>> 32).toUInt32

/-- `t` of `cb_rng_u32_below`. -/
def threshold (bound : UInt32) : UInt32 := (((1 : UInt64) <<< 32) % bound.toUInt64).toUInt32

/-- The rule for the first draw, which does not need the threshold when `bound ≤ l`. -/
def accepts (bound x : UInt32) : Bool :=
  if lowWord bound x < bound then ¬ lowWord bound x < threshold bound else true

/-- The rule for the draws of the loop. -/
def acceptsNext (bound x : UInt32) : Bool := ¬ lowWord bound x < threshold bound

/-- `(int64_t)UINT32_MAX`. -/
def uint32Max : Int64 := 4294967295

/-- `span` of `cb_rng_fx16_range`. -/
def fx16Span (lo hi : Int32) : Int64 :=
  let span := hi.toInt64 - lo.toInt64
  if uint32Max < span then uint32Max else span

def fx16Range (rng : Rng) (lo hi : Int32) : Option (Int32 × Rng) := do
  if hi ≤ lo then return (lo, rng)
  let (r, rng) ← rng.u32Below (fx16Span lo hi).toUInt64.toUInt32
  return ((lo.toInt64 + r.toUInt64.toInt64).toInt32, rng)

/-- The rule for the draw of a span, which may be all of 32 bits. -/
def spanAccepts (span64 : Int64) (x : UInt32) : Bool :=
  if (1 : Int64) <<< 32 ≤ span64 then true else accepts span64.toUInt64.toUInt32 x

def spanValue (span64 : Int64) (x : UInt32) : UInt32 :=
  if (1 : Int64) <<< 32 ≤ span64 then x else highWord span64.toUInt64.toUInt32 x

/-- The last line of the range functions. -/
def offset (lo : Int32) (r : UInt32) : Int32 := (lo.toInt64 + r.toUInt64.toInt64).toInt32

/-- The result belongs to the first draw of the stream that is accepted. -/
def FirstAccepted {α : Type} (rng : Rng) (rule : UInt32 → Bool) (value : UInt32 → α)
    (result : Option (α × Rng)) : Prop :=
  ∃ k, (∀ i < k, rule (rng.draw i) = false) ∧ rule (rng.draw k) = true ∧
    result = some (value (rng.draw k), step^[k + 1] rng)

/-! ## The rule -/

theorem toNat_lowWord (bound x : UInt32) :
    (lowWord bound x).toNat = x.toNat * bound.toNat % 2 ^ 32 := by
  rw [lowWord, UInt64.toNat_toUInt32, toNat_mul_bound]

theorem toNat_threshold (bound : UInt32) (hb : bound ≠ 0) :
    (threshold bound).toNat = 2 ^ 32 % bound.toNat := by
  have hpos : 0 < bound.toNat := Nat.pos_of_ne_zero fun h => hb (UInt32.toNat_inj.mp h)
  have hlt : 2 ^ 32 % bound.toNat < 2 ^ 32 :=
    (Nat.mod_lt _ hpos).trans bound.toNat_lt
  have hone : ((1 : UInt64) <<< 32).toNat = 2 ^ 32 := rfl
  rw [threshold, UInt64.toNat_toUInt32, UInt64.toNat_mod, hone, UInt32.toNat_toUInt64,
    Nat.mod_eq_of_lt hlt]

theorem toNat_highWord (bound x : UInt32) :
    (highWord bound x).toNat = Rejection.scaled (2 ^ 32) bound.toNat x.toNat := by
  have hlt : x.toNat * bound.toNat / 2 ^ 32 < 2 ^ 32 := by
    rw [Nat.div_lt_iff_lt_mul (by norm_num)]
    exact Nat.mul_lt_mul'' x.toNat_lt bound.toNat_lt
  rw [highWord, UInt64.toNat_toUInt32, UInt64.toNat_shiftRight, toNat_mul_bound,
    Nat.shiftRight_eq_div_pow]
  exact Nat.mod_eq_of_lt hlt

theorem acceptsNext_iff {bound : UInt32} (hb : bound ≠ 0) (x : UInt32) :
    acceptsNext bound x = true ↔ Rejection.Accepted (2 ^ 32) bound.toNat x.toNat := by
  rw [acceptsNext, decide_eq_true_iff, UInt32.lt_iff_toNat_lt, toNat_lowWord, toNat_threshold _ hb,
    not_lt, Rejection.Accepted]

/-- The shortcut accepts what the threshold accepts. -/
theorem accepts_eq {bound : UInt32} (hb : bound ≠ 0) : accepts bound = acceptsNext bound := by
  funext x
  unfold accepts acceptsNext
  split
  · rfl
  · next hlarge =>
    have hthreshold : threshold bound < bound := threshold_lt hb
    rw [UInt32.lt_iff_toNat_lt] at hlarge hthreshold
    have hnot : ¬ lowWord bound x < threshold bound := by
      rw [UInt32.lt_iff_toNat_lt]
      omega
    exact (decide_eq_true hnot).symm

theorem accepts_iff {bound : UInt32} (hb : bound ≠ 0) (x : UInt32) :
    accepts bound x = true ↔ Rejection.Accepted (2 ^ 32) bound.toNat x.toNat := by
  rw [accepts_eq hb, acceptsNext_iff hb]

/-! ## The first accepted draw -/

theorem draw_succ (rng : Rng) (k : Nat) : rng.draw (k + 1) = rng.step.draw k := by
  rw [draw, draw, Function.iterate_succ_apply]

/-- The loop stops at the first draw above the threshold. -/
theorem rejectLoop_first {bound : UInt32} {k n : Nat} {rng : Rng}
    (hrejected : ∀ i < k, acceptsNext bound (rng.draw i) = false)
    (haccepted : acceptsNext bound (rng.draw k) = true) (hn : k < n) :
    rejectLoop bound (threshold bound) n rng.step ((rng.draw 0).toUInt64 * bound.toUInt64) =
      some ((rng.draw k).toUInt64 * bound.toUInt64, step^[k + 1] rng) := by
  induction k generalizing n rng with
  | zero =>
    obtain ⟨n, rfl⟩ : ∃ m, n = m + 1 := ⟨n - 1, by omega⟩
    have hstop : ¬ ((rng.draw 0).toUInt64 * bound.toUInt64).toUInt32 < threshold bound :=
      of_decide_eq_true haccepted
    rw [rejectLoop, if_neg hstop]
    rfl
  | succ k ih =>
    obtain ⟨n, rfl⟩ : ∃ m, n = m + 1 := ⟨n - 1, by omega⟩
    have hnext : ((rng.draw 0).toUInt64 * bound.toUInt64).toUInt32 < threshold bound :=
      not_not.mp (of_decide_eq_false (hrejected 0 (Nat.succ_pos k)))
    rw [draw_succ] at haccepted
    have hrest := @ih n rng.step
      (fun i hi => by rw [← draw_succ]; exact hrejected (i + 1) (by omega)) haccepted (by omega)
    rw [rejectLoop, if_pos hnext, draw_succ, Function.iterate_succ_apply]
    exact hrest

/-- Every stream has an accepted draw, for the generator reaches a state that yields 1. -/
theorem exists_accepted (rng : Rng) {bound : UInt32} (hb : bound ≠ 0) :
    ∃ k < 2 ^ 64, acceptsNext bound (rng.draw k) = true := by
  obtain ⟨k, hk, hstate⟩ := rng.reaches 134217728
  have hone : rng.draw k = 1 := by
    rw [draw, u32, hstate, output_one]
  refine ⟨k, hk, ?_⟩
  rw [hone]
  exact decide_eq_true (one_accepted (threshold_lt hb))

theorem exists_first (rng : Rng) {bound : UInt32} (hb : bound ≠ 0) :
    ∃ k < 2 ^ 64, (∀ i < k, acceptsNext bound (rng.draw i) = false) ∧
      acceptsNext bound (rng.draw k) = true := by
  obtain ⟨k, hk, haccepted⟩ := rng.exists_accepted hb
  have hex : ∃ k, acceptsNext bound (rng.draw k) = true := ⟨k, haccepted⟩
  refine ⟨Nat.find hex, (Nat.find_min' hex haccepted).trans_lt hk, ?_, Nat.find_spec hex⟩
  intro i hi
  exact Bool.eq_false_iff.mpr (Nat.find_min hex hi)

theorem u32Below_first (rng : Rng) {bound : UInt32} (hb : bound ≠ 0) :
    FirstAccepted rng (accepts bound) (highWord bound) (rng.u32Below bound) := by
  obtain ⟨k, hk, hrejected, haccepted⟩ := rng.exists_first hb
  rw [accepts_eq hb]
  refine ⟨k, hrejected, haccepted, ?_⟩
  have hloop := rejectLoop_first hrejected haccepted (n := 2 ^ 64 + 1) (by omega)
  unfold u32Below
  simp only [hb, if_false, Option.pure_def, Option.bind_eq_bind]
  split
  · exact congrArg (fun r => r.bind fun p => some ((p.1 >>> 32).toUInt32, p.2)) hloop
  · next hlarge =>
    have hfirst : acceptsNext bound (rng.draw 0) = true := by
      rw [← accepts_eq hb, accepts]
      exact if_neg hlarge
    have hzero : k = 0 := by
      refine Nat.eq_zero_of_not_pos fun hpos => ?_
      rw [hrejected 0 hpos] at hfirst
      exact Bool.noConfusion hfirst
    subst hzero
    rfl

/-! ## The counts -/

theorem ncard_toNat (p : Nat → Prop) [DecidablePred p] :
    {x : UInt32 | p x.toNat}.ncard = ((Finset.range (2 ^ 32)).filter p).card := by
  have hinj : Function.Injective UInt32.toNat := fun _ _ h => UInt32.toNat_inj.mp h
  have himage : UInt32.toNat '' {x : UInt32 | p x.toNat} =
      ↑((Finset.range (2 ^ 32)).filter p) := by
    ext n
    rw [Finset.mem_coe, Finset.mem_filter, Finset.mem_range]
    constructor
    · rintro ⟨x, hx, rfl⟩
      exact ⟨x.toNat_lt, hx⟩
    · rintro ⟨hn, hp⟩
      have hback : (UInt32.ofNat n).toNat = n := UInt32.toNat_ofNat_of_lt' hn
      exact ⟨UInt32.ofNat n, by rwa [Set.mem_ofPred_eq, hback], hback⟩
  rw [← Set.ncard_image_of_injective _ hinj, himage, Set.ncard_coe_finset]

/-- Every number below the bound has the same count of accepted draws. -/
theorem ncard_highWord {bound r : UInt32} (hr : r < bound) :
    {x | accepts bound x = true ∧ highWord bound x = r}.ncard = 2 ^ 32 / bound.toNat := by
  rw [UInt32.lt_iff_toNat_lt] at hr
  have hb : bound ≠ 0 := fun h => by
    rw [h, UInt32.toNat_zero] at hr
    omega
  have hset : {x | accepts bound x = true ∧ highWord bound x = r} =
      {x : UInt32 | Rejection.Accepted (2 ^ 32) bound.toNat x.toNat ∧
        Rejection.scaled (2 ^ 32) bound.toNat x.toNat = r.toNat} := by
    ext x
    rw [Set.mem_ofPred_eq, Set.mem_ofPred_eq, accepts_iff hb, ← toNat_highWord, UInt32.toNat_inj]
  rw [hset, ncard_toNat fun n => Rejection.Accepted (2 ^ 32) bound.toNat n ∧
    Rejection.scaled (2 ^ 32) bound.toNat n = r.toNat]
  exact Rejection.card_scaled (by omega) hr (by norm_num)

/-! ## Ranges -/

/-- A span from 1 to `2 ^ 32` in the type that the code computes it in. -/
structure Span (span64 : Int64) : Prop where
  pos : 0 < span64.toInt
  le : span64.toInt ≤ 2 ^ 32

theorem toInt_full : ((1 : Int64) <<< 32).toInt = 2 ^ 32 := rfl

/-- A span below `2 ^ 32` keeps its value as a bound. -/
theorem Span.toNat_bound {span64 : Int64} (h : Span span64) (hpart : span64.toInt < 2 ^ 32) :
    (span64.toUInt64.toUInt32.toNat : Int) = span64.toInt := by
  have hpos := h.pos
  have hwide := MachineInt.toNat_toUInt64 (a := span64) (by omega)
  rw [UInt64.toNat_toUInt32, Nat.mod_eq_of_lt (by omega), hwide]

theorem Span.bound_ne_zero {span64 : Int64} (h : Span span64) (hpart : span64.toInt < 2 ^ 32) :
    span64.toUInt64.toUInt32 ≠ 0 := by
  intro hzero
  have hbound := h.toNat_bound hpart
  have hpos := h.pos
  rw [hzero, UInt32.toNat_zero] at hbound
  omega

theorem spanDraw_first (rng : Rng) {span64 : Int64} (h : Span span64) :
    FirstAccepted rng (spanAccepts span64) (spanValue span64) (rng.spanDraw span64) := by
  unfold spanDraw
  by_cases hfull : (1 : Int64) <<< 32 ≤ span64
  · rw [if_pos hfull]
    refine ⟨0, fun i hi => absurd hi (Nat.not_lt_zero i), if_pos hfull, ?_⟩
    rw [spanValue, if_pos hfull]
    rfl
  · have hpart : span64.toInt < 2 ^ 32 := by
      rwa [Int64.le_iff_toInt_le, toInt_full, not_le] at hfull
    have hrule : spanAccepts span64 = accepts span64.toUInt64.toUInt32 :=
      funext fun x => if_neg hfull
    have hvalue : spanValue span64 = highWord span64.toUInt64.toUInt32 :=
      funext fun x => if_neg hfull
    rw [if_neg hfull, hrule, hvalue]
    exact u32Below_first rng (h.bound_ne_zero hpart)

theorem spanValue_lt {span64 : Int64} (h : Span span64) (x : UInt32) :
    ((spanValue span64 x).toNat : Int) < span64.toInt := by
  have hx := x.toNat_lt
  unfold spanValue
  split
  · next hfull =>
    rw [Int64.le_iff_toInt_le, toInt_full] at hfull
    omega
  · next hfull =>
    rw [Int64.le_iff_toInt_le, toInt_full, not_le] at hfull
    have hlt := @high_word_lt x _ (h.bound_ne_zero hfull)
    rw [UInt32.lt_iff_toNat_lt] at hlt
    have hbound := h.toNat_bound hfull
    rw [highWord]
    omega

/-- Every number below the span has the same count of accepted draws; a full span has one of each. -/
theorem ncard_spanValue {span64 : Int64} (h : Span span64) {r : UInt32}
    (hr : (r.toNat : Int) < span64.toInt) :
    ({x | spanAccepts span64 x = true ∧ spanValue span64 x = r}.ncard : Int) =
      2 ^ 32 / span64.toInt := by
  by_cases hfull : (1 : Int64) <<< 32 ≤ span64
  · have hset : {x | spanAccepts span64 x = true ∧ spanValue span64 x = r} = {r} := by
      ext x
      simp [spanAccepts, spanValue, hfull]
    rw [Int64.le_iff_toInt_le, toInt_full] at hfull
    have hspan : span64.toInt = 2 ^ 32 := Int.le_antisymm h.le hfull
    rw [hset, Set.ncard_singleton, hspan]
    rfl
  · have hset : {x | spanAccepts span64 x = true ∧ spanValue span64 x = r} =
        {x | accepts span64.toUInt64.toUInt32 x = true ∧
          highWord span64.toUInt64.toUInt32 x = r} := by
      ext x
      simp [spanAccepts, spanValue, hfull]
    have hpart : span64.toInt < 2 ^ 32 := by
      rwa [Int64.le_iff_toInt_le, toInt_full, not_le] at hfull
    have hbound := h.toNat_bound hpart
    have hlt : r < span64.toUInt64.toUInt32 := by
      rw [UInt32.lt_iff_toNat_lt]
      omega
    rw [hset, ncard_highWord hlt, ← hbound]
    norm_num

/-- The sum of the lower end and a draw, in the type that it is computed in. -/
theorem toInt_sum (lo : Int32) (r : UInt32) :
    (lo.toInt64 + r.toUInt64.toInt64).toInt = lo.toInt + r.toNat := by
  have hlo := lo.le_toInt
  have hhi := lo.toInt_lt
  have hlt := r.toNat_lt
  have hr : r.toUInt64.toInt64.toInt = r.toNat := by
    rw [MachineInt.toInt_toInt64 (by rw [UInt32.toNat_toUInt64]; omega), UInt32.toNat_toUInt64]
  rw [MachineInt.toInt_add (by rw [hr, Int32.toInt_toInt64]; omega)
    (by rw [hr, Int32.toInt_toInt64]; omega), Int32.toInt_toInt64, hr]

theorem toInt_width (lo hi : Int32) :
    (hi.toInt64 - lo.toInt64).toInt = hi.toInt - lo.toInt := by
  have hlo := lo.le_toInt
  have hlo' := lo.toInt_lt
  have hhi := hi.le_toInt
  have hhi' := hi.toInt_lt
  rw [MachineInt.toInt_sub (by simp; omega) (by simp; omega), Int32.toInt_toInt64,
    Int32.toInt_toInt64]

/-- The values of a range that starts at `lo` and has the span `span64`. -/
structure Unbiased (lo : Int32) (span64 : Int64) : Prop where
  /-- Neither the sum nor its conversion overflows. -/
  exact : ∀ x, (lo.toInt64 + (spanValue span64 x).toUInt64.toInt64).toInt =
      lo.toInt + (spanValue span64 x).toNat ∧
    (offset lo (spanValue span64 x)).toInt = lo.toInt + (spanValue span64 x).toNat
  within : ∀ x, lo.toInt ≤ (offset lo (spanValue span64 x)).toInt ∧
    (offset lo (spanValue span64 x)).toInt < lo.toInt + span64.toInt
  count : ∀ v : Int32, lo.toInt ≤ v.toInt → v.toInt < lo.toInt + span64.toInt →
    ({x | spanAccepts span64 x = true ∧ offset lo (spanValue span64 x) = v}.ncard : Int) =
      2 ^ 32 / span64.toInt

theorem Span.unbiased {span64 : Int64} (h : Span span64) {lo : Int32}
    (hfit : lo.toInt + span64.toInt ≤ 2 ^ 31) : Unbiased lo span64 := by
  have hexact : ∀ x, (offset lo (spanValue span64 x)).toInt =
      lo.toInt + (spanValue span64 x).toNat := by
    intro x
    have hlt := spanValue_lt h x
    have hlo := lo.le_toInt
    rw [offset, MachineInt.toInt_toInt32 (by rw [toInt_sum]; omega) (by rw [toInt_sum]; omega),
      toInt_sum]
  refine ⟨fun x => ⟨toInt_sum _ _, hexact x⟩, ?_, ?_⟩
  · intro x
    have hlt := spanValue_lt h x
    rw [hexact]
    omega
  · intro v hlow hhigh
    have hle := h.le
    obtain ⟨n, hn⟩ := Int.eq_ofNat_of_zero_le (Int.sub_nonneg_of_le hlow)
    have hr : (UInt32.ofNat n).toNat = n := UInt32.toNat_ofNat_of_lt' (by
      simp only [UInt32.size]
      omega)
    have hset : {x | spanAccepts span64 x = true ∧ offset lo (spanValue span64 x) = v} =
        {x | spanAccepts span64 x = true ∧ spanValue span64 x = UInt32.ofNat n} := by
      ext x
      rw [Set.mem_ofPred_eq, Set.mem_ofPred_eq, ← Int32.toInt_inj, hexact, ← UInt32.toNat_inj, hr]
      refine and_congr_right fun _ => ?_
      omega
    rw [hset]
    exact ncard_spanValue h (by omega)

theorem i32Range_eq (rng : Rng) {lo hi : Int32} (hle : lo ≤ hi) :
    rng.i32Range lo hi =
      (rng.spanDraw (hi.toInt64 - lo.toInt64 + 1)).map fun p => (offset lo p.1, p.2) := by
  have hnot : ¬ hi < lo := Int32.not_lt.mpr hle
  unfold i32Range
  rw [if_neg hnot]
  change (rng.spanDraw (hi.toInt64 - lo.toInt64 + 1)).bind
    (fun p => some (offset lo p.1, p.2)) = _
  cases rng.spanDraw (hi.toInt64 - lo.toInt64 + 1) with
  | none => rfl
  | some p => rfl

theorem FirstAccepted.map {α β : Type} {rng : Rng} {rule : UInt32 → Bool} {value : UInt32 → α}
    {result : Option (α × Rng)} (h : FirstAccepted rng rule value result) (f : α → β) :
    FirstAccepted rng rule (fun x => f (value x)) (result.map fun p => (f p.1, p.2)) := by
  obtain ⟨k, hrejected, haccepted, hresult⟩ := h
  exact ⟨k, hrejected, haccepted, by rw [hresult, Option.map_some]⟩

theorem i32Range_first (rng : Rng) {lo hi : Int32} (hle : lo ≤ hi)
    (h : Span (hi.toInt64 - lo.toInt64 + 1)) :
    FirstAccepted rng (spanAccepts (hi.toInt64 - lo.toInt64 + 1))
      (fun x => offset lo (spanValue (hi.toInt64 - lo.toInt64 + 1) x)) (rng.i32Range lo hi) := by
  rw [i32Range_eq rng hle]
  exact (spanDraw_first rng h).map (offset lo)

/-- The cap of `cb_rng_fx16_range` never binds. -/
theorem fx16Span_eq (lo hi : Int32) : fx16Span lo hi = hi.toInt64 - lo.toInt64 := by
  have hmax : uint32Max.toInt = 2 ^ 32 - 1 := rfl
  have hlo := lo.le_toInt
  have hhi := hi.toInt_lt
  have hnot : ¬ uint32Max < hi.toInt64 - lo.toInt64 := by
    rw [Int64.lt_iff_toInt_lt, hmax, toInt_width]
    omega
  exact if_neg hnot

theorem fx16Range_eq (rng : Rng) {lo hi : Int32} (hlt : lo < hi) :
    rng.fx16Range lo hi =
      (rng.spanDraw (hi.toInt64 - lo.toInt64)).map fun p => (offset lo p.1, p.2) := by
  have hlo := lo.le_toInt
  have hhi := hi.toInt_lt
  have hnot : ¬ hi ≤ lo := Int32.not_le.mpr hlt
  have hpart : ¬ (1 : Int64) <<< 32 ≤ hi.toInt64 - lo.toInt64 := by
    rw [Int64.le_iff_toInt_le, toInt_full, toInt_width]
    omega
  unfold fx16Range spanDraw
  rw [if_neg hnot, if_neg hpart, fx16Span_eq]
  change (rng.u32Below (hi.toInt64 - lo.toInt64).toUInt64.toUInt32).bind
    (fun p => some (offset lo p.1, p.2)) = _
  cases rng.u32Below (hi.toInt64 - lo.toInt64).toUInt64.toUInt32 with
  | none => rfl
  | some p => rfl

theorem fx16Range_first (rng : Rng) {lo hi : Int32} (hlt : lo < hi)
    (h : Span (hi.toInt64 - lo.toInt64)) :
    FirstAccepted rng (spanAccepts (hi.toInt64 - lo.toInt64))
      (fun x => offset lo (spanValue (hi.toInt64 - lo.toInt64) x)) (rng.fx16Range lo hi) := by
  rw [fx16Range_eq rng hlt]
  exact (spanDraw_first rng h).map (offset lo)

theorem span_i32 {lo hi : Int32} (hle : lo ≤ hi) : Span (hi.toInt64 - lo.toInt64 + 1) := by
  have hspan := toInt_span hle
  have hlo := lo.le_toInt
  have hhi := hi.toInt_lt
  rw [Int32.le_iff_toInt_le] at hle
  exact ⟨by omega, by omega⟩

theorem span_fx16 {lo hi : Int32} (hlt : lo < hi) : Span (hi.toInt64 - lo.toInt64) := by
  have hspan := toInt_width lo hi
  have hlo := lo.le_toInt
  have hhi := hi.toInt_lt
  rw [Int32.lt_iff_toInt_lt] at hlt
  exact ⟨by omega, by omega⟩

/-! ## Main results -/

/-- Bounded draws and the ranges that are built on them are in range and exactly unbiased. -/
theorem bounded_draws_unbiased :
    (∀ bound : UInt32, bound ≠ 0 →
      (∀ x : UInt32, (x.toUInt64 * bound.toUInt64).toNat = x.toNat * bound.toNat) ∧
      (∀ x : UInt32, accepts bound x = true ↔ 2 ^ 32 % bound.toNat ≤ x.toNat * bound.toNat % 2 ^ 32) ∧
      (∀ x, acceptsNext bound x = accepts bound x) ∧
      (∀ x, (highWord bound x).toNat = x.toNat * bound.toNat / 2 ^ 32 ∧
        (highWord bound x).toNat < bound.toNat) ∧
      (∀ r < bound,
        {x | accepts bound x = true ∧ highWord bound x = r}.ncard = 2 ^ 32 / bound.toNat) ∧
      ∀ rng, FirstAccepted rng (accepts bound) (highWord bound) (rng.u32Below bound)) ∧
    (∀ lo hi : Int32, lo ≤ hi →
      (hi.toInt64 - lo.toInt64).toInt = hi.toInt - lo.toInt ∧
      (hi.toInt64 - lo.toInt64 + 1).toInt = hi.toInt - lo.toInt + 1 ∧
      Unbiased lo (hi.toInt64 - lo.toInt64 + 1) ∧
      ∀ rng, FirstAccepted rng (spanAccepts (hi.toInt64 - lo.toInt64 + 1))
          (fun x => offset lo (spanValue (hi.toInt64 - lo.toInt64 + 1) x)) (rng.i32Range lo hi) ∧
        ∃ r rng', rng.i32Range lo hi = some (r, rng') ∧ lo ≤ r ∧ r ≤ hi) ∧
    ∀ lo hi : Int32, lo < hi →
      (hi.toInt64 - lo.toInt64).toInt = hi.toInt - lo.toInt ∧
      fx16Span lo hi = hi.toInt64 - lo.toInt64 ∧
      Unbiased lo (hi.toInt64 - lo.toInt64) ∧
      ∀ rng, FirstAccepted rng (spanAccepts (hi.toInt64 - lo.toInt64))
          (fun x => offset lo (spanValue (hi.toInt64 - lo.toInt64) x)) (rng.fx16Range lo hi) ∧
        ∃ r rng', rng.fx16Range lo hi = some (r, rng') ∧ lo ≤ r ∧ r < hi := by
  refine ⟨?below, ?i32, ?fx16⟩
  case below =>
    intro bound hb
    refine ⟨fun x => toNat_mul_bound x bound, accepts_iff hb, fun x => by rw [accepts_eq hb], ?_,
      fun r hr => ncard_highWord hr, fun rng => u32Below_first rng hb⟩
    intro x
    refine ⟨toNat_highWord bound x, ?_⟩
    rw [← UInt32.lt_iff_toNat_lt]
    exact high_word_lt hb
  case i32 =>
    intro lo hi hle
    have hspan := toInt_span hle
    have hhi := hi.toInt_lt
    exact ⟨toInt_width lo hi, hspan, (span_i32 hle).unbiased (by omega),
      fun rng => ⟨i32Range_first rng hle (span_i32 hle), rng.i32Range_spec hle⟩⟩
  case fx16 =>
    intro lo hi hlt
    have hwidth := toInt_width lo hi
    have hhi := hi.toInt_lt
    have hunbiased := @Span.unbiased _ (span_fx16 hlt) lo (by omega)
    refine ⟨hwidth, fx16Span_eq lo hi, hunbiased, fun rng => ?_⟩
    have hfirst := fx16Range_first rng hlt (span_fx16 hlt)
    refine ⟨hfirst, ?_⟩
    obtain ⟨k, -, -, hresult⟩ := hfirst
    have hwithin := hunbiased.within (rng.draw k)
    rw [hwidth] at hwithin
    refine ⟨_, _, hresult, Int32.le_iff_toInt_le.mpr hwithin.1, Int32.lt_iff_toInt_lt.mpr ?_⟩
    exact lt_of_lt_of_eq hwithin.2 (by ring)

/-- A die: each face has the same count of draws. -/
theorem bounded_draws_six :
    {x | accepts 6 x = true ∧ highWord 6 x = 5}.ncard = 2 ^ 32 / (6 : UInt32).toNat :=
  (bounded_draws_unbiased.1 6 (by decide)).2.2.2.2.1 5 (by decide)

/-- `cb_rng_u32_below` ends for every generator and every bound: its loop, given enough rounds,
stops at the first accepted draw of the stream, which exists. -/
theorem bounded_draw_ends (rng : Rng) (bound : UInt32) :
    (rng.u32Below bound).isSome ∧
    (bound ≠ 0 → ∃ k, (∀ i < k, accepts bound (rng.draw i) = false) ∧
      accepts bound (rng.draw k) = true ∧
      rng.u32Below bound = some (highWord bound (rng.draw k), step^[k + 1] rng) ∧
      ∀ n > k, rejectLoop bound (threshold bound) n rng.step
          ((rng.draw 0).toUInt64 * bound.toUInt64) =
        some ((rng.draw k).toUInt64 * bound.toUInt64, step^[k + 1] rng)) := by
  refine ⟨rng.u32Below_total bound, fun hb => ?_⟩
  obtain ⟨k, hrejected, haccepted, hresult⟩ := u32Below_first rng hb
  refine ⟨k, hrejected, haccepted, hresult, fun n hn => ?_⟩
  rw [accepts_eq hb] at hrejected haccepted
  exact rejectLoop_first hrejected haccepted hn

theorem bounded_draw_ends_seeded :
    ∃ k, accepts 4294967295 ((seed 42 54).draw k) = true := by
  obtain ⟨k, -, haccepted, -⟩ := (bounded_draw_ends (seed 42 54) 4294967295).2 (by decide)
  exact ⟨k, haccepted⟩

end CBase.Rng
