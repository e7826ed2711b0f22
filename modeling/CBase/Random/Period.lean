import CBase.Lib.BitMix
import CBase.Random.Streams
import Mathlib.Data.FinEnum

/-!
# The period of a generator

Every generator runs through all its states before it repeats one, and on the way yields every
32-bit word equally often.

1. `orbit_bijective`: the states of one period are all the states.
2. `fields_bijective`: a state is the same as its output together with 32 bits that the output does
   not tell, so every word is the output of `2 ^ 32` states.
3. `full_period`, `derived_draws_exact`: what follows for the draws of one period.
-/

namespace CBase.Rng

/-! ## States -/

theorem ext_state {r r' : Rng} (hinfo : r.info = r'.info) (hinc : r.inc = r'.inc)
    (hstate : r.state = r'.state) : r = r' := by
  cases r
  cases r'
  cases hinfo
  cases hinc
  cases hstate
  rfl

/-- A generator is back where it was after every `2 ^ 64` steps, and at no other time. -/
theorem step_iterate_eq_self_iff (rng : Rng) (n : Nat) : step^[n] rng = rng ↔ 2 ^ 64 ∣ n := by
  rw [← Lcg.iterate_eq_self_iff (a := mult.toNat) rfl rng.odd (rng.state.toNat : ZMod (2 ^ 64)) n,
    ← cast_state_iterate]
  constructor
  · intro h
    rw [h]
  · intro h
    exact ext_state (info_iterate rng n) (inc_iterate rng n) (eq_of_cast_toNat h)

/-- In one period the generator takes every state once. -/
theorem orbit_bijective (rng : Rng) :
    Function.Bijective fun n : Fin (2 ^ 64) => (step^[n] rng).state := by
  constructor
  · intro m n hmn
    refine (Lcg.iterate_bijective (k := 64) (a := mult.toNat) rfl rng.odd
      (rng.state.toNat : ZMod (2 ^ 64))).1 ?_
    have hcast := congrArg (fun s : UInt64 => (s.toNat : ZMod (2 ^ 64))) hmn
    simpa only [cast_state_iterate] using hcast
  · intro s
    obtain ⟨n, hn, hs⟩ := rng.reaches s
    exact ⟨⟨n, hn⟩, hs⟩

/-! ## Outputs -/

/-- The state with its upper bits mixed into the middle ones, as `cb__pcg_output` does first. -/
def mixed (state : UInt64) : UInt64 := (state >>> 18) ^^^ state

theorem mixed_injective : Function.Injective mixed := by
  intro s t hst
  have hbits := congrArg UInt64.toBitVec hst
  refine UInt64.toBitVec_inj.mp (BitMix.xorShiftRight_injective (s := 18) (by decide) ?_)
  simpa [mixed, BitVec.xor_comm] using hbits

theorem outputRotation_mixed (state : UInt64) :
    outputRotation state = (mixed state >>> 59).toUInt32 := by
  have htop := BitMix.xorShiftRight_top state.toBitVec (s := 18) (t := 59) (by decide)
  have hmixed : mixed state >>> 59 = state >>> 59 := by
    refine UInt64.toBitVec_inj.mp ?_
    simpa [mixed, BitVec.xor_comm] using htop
  rw [hmixed, outputRotation]

/-- The bits of a state that neither the output nor its rotation shows. -/
def hidden (state : UInt64) : Fin (2 ^ 27) := ⟨(mixed state).toNat % 2 ^ 27, Nat.mod_lt _ (by decide)⟩

/-- A state in three parts: the output, its rotation, and the rest. -/
def fields (state : UInt64) : UInt32 × Fin 32 × Fin (2 ^ 27) :=
  (output state, ⟨(outputRotation state).toNat, outputRotation_lt state⟩, hidden state)

theorem toNat_outputWord (state : UInt64) :
    (outputWord state).toNat = (mixed state).toNat / 2 ^ 27 % 2 ^ 32 := by
  have hword : outputWord state = (mixed state >>> 27).toUInt32 := rfl
  rw [hword, UInt64.toNat_toUInt32, UInt64.toNat_shiftRight, Nat.shiftRight_eq_div_pow]
  rfl

theorem toNat_outputRotation (state : UInt64) :
    (outputRotation state).toNat = (mixed state).toNat / 2 ^ 59 := by
  have hlt := (mixed state).toNat_lt
  rw [outputRotation_mixed, UInt64.toNat_toUInt32, UInt64.toNat_shiftRight,
    Nat.shiftRight_eq_div_pow]
  simp only [UInt64.reduceToNat, Nat.reduceMod, Nat.reducePow] at hlt ⊢
  omega

theorem fields_injective : Function.Injective fields := by
  intro s t hst
  rw [fields, fields, Prod.mk.injEq, Prod.mk.injEq, Fin.mk.injEq, hidden, hidden, Fin.mk.injEq] at hst
  obtain ⟨hout, hrot, hlow⟩ := hst
  have hword : outputWord s = outputWord t := by
    have hbits := congrArg UInt32.toBitVec hout
    rw [toBitVec_output, toBitVec_output, hrot] at hbits
    exact UInt32.toBitVec_inj.mp (BitMix.rotateRight_injective _ hbits)
  have hmid := congrArg UInt32.toNat hword
  rw [toNat_outputWord, toNat_outputWord] at hmid
  rw [toNat_outputRotation, toNat_outputRotation] at hrot
  refine mixed_injective (UInt64.toNat_inj.mp ?_)
  omega

theorem fields_bijective : Function.Bijective fields := by
  refine (Fintype.bijective_iff_injective_and_card _).mpr ⟨fields_injective, ?_⟩
  rw [Fintype.card_prod, Fintype.card_prod, ← FinEnum.card_eq_fintypeCard,
    ← FinEnum.card_eq_fintypeCard, FinEnum.card_UInt64, FinEnum.card_UInt32, Fintype.card_fin,
    Fintype.card_fin]
  norm_num

/-! ## The draws of one period -/

/-- The moments of one period at which the draw is in `S`. -/
def drawnIn (rng : Rng) (S : Set UInt32) : Set Nat := {n | n < 2 ^ 64 ∧ rng.draw n ∈ S}

theorem ncard_preimage_of_bijective {α β : Type} {f : α → β} (hf : Function.Bijective f) (S : Set β) :
    (Set.preimage f S).ncard = S.ncard :=
  Set.ncard_preimage_of_injective_subset_range hf.1 (by rw [hf.2.range_eq]; exact Set.subset_univ S)

/-- Every word is the output of `2 ^ 32` states. -/
theorem ncard_output (S : Set UInt32) : {s | output s ∈ S}.ncard = 2 ^ 32 * S.ncard := by
  have hset : {s | output s ∈ S} = Set.preimage fields (S ×ˢ Set.univ) := by
    ext s
    simp [fields]
  rw [hset, ncard_preimage_of_bijective fields_bijective, Set.ncard_prod, Set.ncard_univ,
    Nat.card_eq_fintype_card, Fintype.card_prod, Fintype.card_fin, Fintype.card_fin]
  ring

theorem ncard_drawnIn (rng : Rng) (S : Set UInt32) : (rng.drawnIn S).ncard = 2 ^ 32 * S.ncard := by
  have himage : rng.drawnIn S =
      Fin.val '' (Set.preimage (fun n : Fin (2 ^ 64) => (step^[n] rng).state) {s | output s ∈ S}) := by
    ext n
    constructor
    · rintro ⟨hn, hmem⟩
      exact ⟨⟨n, hn⟩, hmem, rfl⟩
    · rintro ⟨m, hmem, rfl⟩
      exact ⟨m.isLt, hmem⟩
  rw [himage, Set.ncard_image_of_injective _ Fin.val_injective,
    ncard_preimage_of_bijective rng.orbit_bijective, ncard_output]

/-- The words of an interval. -/
theorem ncard_interval {m n : Nat} (hn : n ≤ 2 ^ 32) :
    {x : UInt32 | m ≤ x.toNat ∧ x.toNat < n}.ncard = n - m := by
  have hfilter : (Finset.range (2 ^ 32)).filter (fun i => m ≤ i ∧ i < n) = Finset.Ico m n := by
    ext i
    rw [Finset.mem_filter, Finset.mem_range, Finset.mem_Ico]
    omega
  rw [ncard_toNat fun i => m ≤ i ∧ i < n, hfilter, Nat.card_Ico]

theorem ncard_drawnIn_interval (rng : Rng) {m n : Nat} (hn : n ≤ 2 ^ 32) :
    (rng.drawnIn {x | m ≤ x.toNat ∧ x.toNat < n}).ncard = 2 ^ 32 * (n - m) := by
  rw [ncard_drawnIn, ncard_interval hn]

theorem snd_u64 (rng : Rng) : rng.u64.2 = step^[2] rng := rfl

/-- The period of a generator is `2 ^ 64`, which is `2 ^ 63` calls of `cb_rng_u64`, and in one
period each set of words is hit as often as its size says: no word is preferred. -/
theorem full_period (rng : Rng) :
    (∀ n, step^[n] rng = rng ↔ 2 ^ 64 ∣ n) ∧
    (∀ n, (fun r : Rng => r.u64.2)^[n] rng = rng ↔ 2 ^ 63 ∣ n) ∧
    ∀ S : Set UInt32, {n | n < 2 ^ 64 ∧ rng.draw n ∈ S}.ncard = 2 ^ 32 * S.ncard := by
  refine ⟨rng.step_iterate_eq_self_iff, fun n => ?_, rng.ncard_drawnIn⟩
  have hpairs : (fun r : Rng => r.u64.2) = step^[2] := funext snd_u64
  rw [hpairs, ← Function.iterate_mul, step_iterate_eq_self_iff]
  omega

/-! ## The draws that are built on one word -/

theorem toNat_top (u : UInt32) : (u >>> 16).toNat = u.toNat / 2 ^ 16 := by
  rw [UInt32.toNat_shiftRight, Nat.shiftRight_eq_div_pow]
  rfl

theorem toInt_fx16Unit (rng : Rng) : rng.fx16Unit.1.toInt = (rng.u32.1.toNat / 2 ^ 16 : Nat) := by
  have hlt := rng.u32.1.toNat_lt
  have htop := toNat_top rng.u32.1
  have hunit : rng.fx16Unit.1 = (rng.u32.1 >>> 16).toInt32 := rfl
  rw [hunit, MachineInt.toInt_ofUInt32 (by omega), htop]

theorem toNat_brad (rng : Rng) : rng.brad.1.toNat = rng.u32.1.toNat / 2 ^ 16 := by
  have hlt := rng.u32.1.toNat_lt
  have hbrad : rng.brad.1 = (rng.u32.1 >>> 16).toUInt16 := rfl
  rw [hbrad, UInt32.toNat_toUInt16, toNat_top, Nat.mod_eq_of_lt (by omega)]

theorem bool_iff (rng : Rng) : rng.bool.1 = true ↔ 2 ^ 31 ≤ rng.u32.1.toNat := by
  have hbool : rng.bool.1 = decide (rng.u32.1 >>> 31 ≠ 0) := rfl
  rw [hbool, decide_eq_true_iff, ne_eq, ← UInt32.toNat_inj, UInt32.toNat_shiftRight,
    Nat.shiftRight_eq_div_pow, UInt32.toNat_zero]
  simp only [UInt32.reduceToNat, Nat.reduceMod, Nat.reducePow]
  omega

/-- A chance is decided by one comparison, also outside the range of probabilities. -/
theorem chanceFx16_iff (rng : Rng) (p : Int32) :
    (rng.chanceFx16 p).1 = true ↔ (rng.u32.1.toNat : Int) < 2 ^ 16 * p.toInt := by
  have hlt := rng.u32.1.toNat_lt
  have hunit := toInt_fx16Unit rng
  have hone : fx16One.toInt = 2 ^ 16 := rfl
  have hzero : (0 : Int32).toInt = 0 := rfl
  rw [chanceFx16]
  split_ifs with hle hge
  · rw [Int32.le_iff_toInt_le, hzero] at hle
    simp only [false_iff]
    omega
  · rw [Int32.le_iff_toInt_le, hone] at hge
    simp only [true_iff]
    omega
  · change decide (rng.fx16Unit.1 < p) = true ↔ _
    rw [decide_eq_true_iff, Int32.lt_iff_toInt_lt, hunit]
    omega

/-- The moments of one period at which `draw`, which reads one word, answers something in `T`. -/
def drawsTo {α : Type} (rng : Rng) (draw : Rng → α × Rng) (T : Set α) : Set Nat :=
  {n | n < 2 ^ 64 ∧ (draw (step^[n] rng)).1 ∈ T}

/-- What is decided by an interval of words is hit as often as the interval is long. -/
theorem ncard_drawsTo {α : Type} {draw : Rng → α × Rng} {T : Set α} (lo hi : Nat) (hhi : hi ≤ 2 ^ 32)
    (hdraw : ∀ r : Rng, (draw r).1 ∈ T ↔ lo ≤ r.u32.1.toNat ∧ r.u32.1.toNat < hi) (rng : Rng) :
    (rng.drawsTo draw T).ncard = 2 ^ 32 * (hi - lo) := by
  rw [← ncard_drawnIn_interval rng hhi]
  congr 1
  ext n
  exact and_congr_right fun _ => hdraw (step^[n] rng)

/-- The draws that are built on one word have exactly their probabilities over a period: a chance
hits `p` times in `2 ^ 16`, and every value of a unit draw, every angle and every boolean is drawn
equally often. -/
theorem derived_draws_exact (rng : Rng) :
    (∀ p : Int32, ((rng.drawsTo (·.chanceFx16 p) {true}).ncard : Int) =
      2 ^ 48 * max 0 (min p.toInt (2 ^ 16))) ∧
    (∀ r : Rng, 0 ≤ r.fx16Unit.1 ∧ r.fx16Unit.1 < fx16One) ∧
    (∀ v : Int32, 0 ≤ v → v < fx16One → (rng.drawsTo fx16Unit {v}).ncard = 2 ^ 48) ∧
    (∀ v : UInt16, (rng.drawsTo brad {v}).ncard = 2 ^ 48) ∧
    ∀ b : Bool, (rng.drawsTo bool {b}).ncard = 2 ^ 63 := by
  have hone : fx16One.toInt = 2 ^ 16 := rfl
  have hzero : (0 : Int32).toInt = 0 := rfl
  refine ⟨fun p => ?chance, fun r => ?range, fun v h0 h1 => ?unit, fun v => ?brad, fun b => ?bool⟩
  case chance =>
    rw [ncard_drawsTo 0 (2 ^ 16 * max 0 (min p.toInt (2 ^ 16))).toNat (by omega) fun r => ?_]
    · omega
    · have hlt := r.u32.1.toNat_lt
      rw [Set.mem_singleton_iff, chanceFx16_iff]
      omega
  case range =>
    have hlt := r.u32.1.toNat_lt
    rw [Int32.le_iff_toInt_le, Int32.lt_iff_toInt_lt, toInt_fx16Unit, hone, hzero]
    omega
  case unit =>
    rw [Int32.le_iff_toInt_le, hzero] at h0
    rw [Int32.lt_iff_toInt_lt, hone] at h1
    rw [ncard_drawsTo (2 ^ 16 * v.toInt.toNat) (2 ^ 16 * (v.toInt.toNat + 1)) (by omega) fun r => ?_]
    · omega
    · rw [Set.mem_singleton_iff, ← Int32.toInt_inj, toInt_fx16Unit]
      omega
  case brad =>
    have hv := v.toNat_lt
    rw [ncard_drawsTo (2 ^ 16 * v.toNat) (2 ^ 16 * (v.toNat + 1)) (by omega) fun r => ?_]
    · omega
    · rw [Set.mem_singleton_iff, ← UInt16.toNat_inj, toNat_brad]
      omega
  case bool =>
    cases b with
    | true =>
      rw [ncard_drawsTo (2 ^ 31) (2 ^ 32) (by omega) fun r => ?_]
      · norm_num
      · rw [Set.mem_singleton_iff, bool_iff]
        exact (and_iff_left r.u32.1.toNat_lt).symm
    | false =>
      rw [ncard_drawsTo 0 (2 ^ 31) (by omega) fun r => ?_]
      · norm_num
      · rw [Set.mem_singleton_iff, ← Bool.not_eq_true, bool_iff]
        omega

end CBase.Rng
