import CBase.Lib.Parity
import CBase.Random.Bounded

/-!
# Seeds and streams

`cb_rng_seed` shifts the stream selector left to make room for the lowest bit of the increment, so
the highest bit of the selector is lost. Two selectors that differ in that bit only make the same
generator; otherwise seeds and selectors keep generators apart.

* `Distinct`: two pairs of seed and selector give different generators, and with one seed two
  selectors give sequences that differ somewhere.
* `distinct_iff`: the pairs of which this holds.
* `stream_replayed`: two selectors that replay one sequence.

For the sequences: when the increments differ, the states are at some moment half the modulus apart.
The two outputs are then rotations of words that differ in one bit.
-/

namespace CBase.Rng

/-- What different seeds and selectors are for. -/
structure Distinct (seed₁ stream₁ seed₂ stream₂ : UInt64) : Prop where
  apart : (seed seed₁ stream₁).state ≠ (seed seed₂ stream₂).state ∨
    (seed seed₁ stream₁).inc ≠ (seed seed₂ stream₂).inc
  replay : seed₁ = seed₂ → stream₁ ≠ stream₂ →
    ∃ n, (seed seed₁ stream₁).draw n ≠ (seed seed₂ stream₂).draw n

/-! ## Outputs -/

def outputWord (state : UInt64) : UInt32 := (((state >>> 18) ^^^ state) >>> 27).toUInt32

/-- How far it is rotated. -/
def outputRotation (state : UInt64) : UInt32 := (state >>> 59).toUInt32

theorem outputRotation_lt (state : UInt64) : (outputRotation state).toNat < 32 := by
  have hlt := state.toNat_lt
  rw [outputRotation, UInt64.toNat_toUInt32, UInt64.toNat_shiftRight, Nat.shiftRight_eq_div_pow]
  simp only [UInt64.reduceToNat, Nat.reduceMod, Nat.reducePow] at hlt ⊢
  omega

/-- The left shift of the rotation. -/
theorem toNat_shl {rot : UInt32} (hrot : rot.toNat < 32) :
    ((32 - rot) &&& 31).toNat = (32 - rot.toNat) % 32 := by
  have hle : rot ≤ 32 := by
    rw [UInt32.le_iff_toNat_le]
    exact hrot.le
  rw [UInt32.toNat_and, UInt32.toNat_sub_of_le _ _ hle]
  exact Nat.and_two_pow_sub_one_eq_mod _ 5

theorem toBitVec_output (state : UInt64) : (output state).toBitVec =
    (outputWord state).toBitVec.rotateRight (outputRotation state).toNat := by
  have hrot := outputRotation_lt state
  have hshl := toNat_shl hrot
  have hout : output state = ((outputWord state >>> outputRotation state).toUInt64 |||
    ((outputWord state).toUInt64 <<<
      ((32 - outputRotation state) &&& 31).toUInt64)).toUInt32 := rfl
  rw [hout, BitVec.rotateRight_def, Nat.mod_eq_of_lt hrot]
  generalize outputWord state = xs at *
  generalize outputRotation state = rot at *
  generalize (32 - rot) &&& 31 = shl at *
  have hshl64 : shl.toNat % 64 = shl.toNat := Nat.mod_eq_of_lt (by omega)
  refine BitVec.eq_of_getLsbD_eq fun i hi => ?_
  simp only [UInt64.toBitVec_toUInt32, UInt64.toBitVec_or, UInt32.toBitVec_toUInt64,
    UInt32.toBitVec_shiftRight, UInt64.toBitVec_shiftLeft]
  rcases Nat.eq_zero_or_pos rot.toNat with hzero | hpos
  · simp [hi, hzero, hshl]
  · have hleft : shl.toNat = 32 - rot.toNat := by rw [hshl, Nat.mod_eq_of_lt (by omega)]
    have hlow : rot.toNat + i < 64 := by omega
    rw [hleft] at hshl64
    simp [hi, Nat.mod_eq_of_lt hrot, hleft, hshl64, hlow]

/-- The highest bit of the state is one bit of the word. -/
theorem outputWord_add_top (state : UInt64) :
    (outputWord (state + 0x8000000000000000)).toBitVec =
      (outputWord state).toBitVec ^^^ BitVec.twoPow 32 18 := by
  refine BitVec.eq_of_getLsbD_eq fun i hi => ?_
  have htop (j : Nat) : (state.toBitVec + 0x8000000000000000#64).getLsbD j =
      (state.toBitVec.getLsbD j ^^ decide (j = 63)) := Parity.getLsbD_add_top state.toBitVec j
  have hword : decide (18 + (27 + i) = 63) = decide (i = 18) := decide_eq_decide.mpr (by omega)
  have hlow : decide (27 + i = 63) = false := decide_eq_false (by omega)
  simp only [outputWord, UInt64.toBitVec_toUInt32, UInt64.toBitVec_shiftRight,
    UInt64.toBitVec_xor, UInt64.toBitVec_add]
  simpa [hi, htop, hword, hlow] using bne_comm

/-- States that differ in the highest bit have different outputs. -/
theorem output_add_top (state : UInt64) : output (state + 0x8000000000000000) ≠ output state := by
  intro heq
  have hbits := congrArg UInt32.toBitVec heq
  rw [toBitVec_output, toBitVec_output] at hbits
  exact Parity.rotateRight_ne (by decide) (outputWord_add_top state) _ _ hbits.symm

/-! ## States -/

theorem state_seed (s stream : UInt64) : (seed s stream).state =
    ((seed s stream).inc + s) * mult + (seed s stream).inc := by
  simp only [seed, step, UInt64.zero_mul, UInt64.zero_add]

theorem toNat_inc_seed (s stream : UInt64) :
    (seed s stream).inc.toNat = 2 * (stream.toNat % 2 ^ 63) + 1 := by
  have hinc : (seed s stream).inc = (stream <<< 1) ||| 1 := rfl
  have hshift : (stream <<< 1).toNat = (stream.toNat % 2 ^ 63) <<< 1 := by
    rw [UInt64.toNat_shiftLeft, Nat.shiftLeft_eq, Nat.shiftLeft_eq]
    simp only [UInt64.reduceToNat, Nat.reduceMod, Nat.reducePow]
    omega
  rw [hinc, UInt64.toNat_or, hshift, UInt64.toNat_one,
    ← Nat.shiftLeft_add_eq_or_of_lt (by decide : 1 < 2 ^ 1), Nat.shiftLeft_eq]
  omega

/-- The increments agree when the selectors agree in all bits but the highest. -/
theorem inc_seed_eq_iff (s₁ s₂ stream₁ stream₂ : UInt64) :
    (seed s₁ stream₁).inc = (seed s₂ stream₂).inc ↔
      stream₁.toNat % 2 ^ 63 = stream₂.toNat % 2 ^ 63 := by
  rw [← UInt64.toNat_inj, toNat_inc_seed, toNat_inc_seed]
  omega

/-- The multiplier is odd, so a step loses nothing of the state. -/
theorem mul_mult_injective : Function.Injective fun x : UInt64 => x * mult := by
  have hinv : mult * 13877824140714322085 = 1 := by decide +kernel
  exact Function.LeftInverse.injective (g := (· * 13877824140714322085)) fun x => by
    simp only [UInt64.mul_assoc, hinv, UInt64.mul_one]

theorem state_seed_injective {s₁ s₂ stream₁ stream₂ : UInt64}
    (hinc : (seed s₁ stream₁).inc = (seed s₂ stream₂).inc)
    (hstate : (seed s₁ stream₁).state = (seed s₂ stream₂).state) : s₁ = s₂ := by
  rw [state_seed, state_seed, hinc] at hstate
  exact UInt64.add_right_inj _ |>.mp (mul_mult_injective (UInt64.add_left_inj _ |>.mp hstate))

/-! ## Sequences -/

/-- The state after `n` steps, as a residue. -/
theorem cast_state_iterate (rng : Rng) (n : Nat) :
    ((step^[n] rng).state.toNat : ZMod (2 ^ 64)) =
      (fun z : ZMod (2 ^ 64) => mult.toNat * z + rng.inc.toNat)^[n] rng.state.toNat := by
  rw [toNat_state_iterate, Lcg.natCast_iterate]

theorem cast_toNat_add (x y : UInt64) :
    ((x + y).toNat : ZMod (2 ^ 64)) = x.toNat + y.toNat := by
  rw [UInt64.toNat_add, ZMod.natCast_mod, Nat.cast_add]

theorem cast_toNat_sub (x y : UInt64) :
    ((x - y).toNat : ZMod (2 ^ 64)) = x.toNat - y.toNat := by
  rw [eq_sub_iff_add_eq, ← cast_toNat_add, UInt64.sub_add_cancel]

/-- Equal residues are equal words. -/
theorem eq_of_cast_toNat {x y : UInt64} (h : (x.toNat : ZMod (2 ^ 64)) = y.toNat) : x = y := by
  rw [ZMod.natCast_eq_natCast_iff] at h
  exact UInt64.toNat_inj.mp (Nat.ModEq.eq_of_lt_of_lt h x.toNat_lt y.toNat_lt)

theorem cast_state_seed (s stream : UInt64) :
    ((seed s stream).state.toNat : ZMod (2 ^ 64)) =
      ((seed s stream).inc.toNat + s.toNat) * mult.toNat + (seed s stream).inc.toNat := by
  rw [state_seed, cast_toNat_add, UInt64.toNat_mul, ZMod.natCast_mod, Nat.cast_mul, cast_toNat_add]

/-- The distance between two streams of one seed. -/
theorem state_sub_state (s stream₁ stream₂ : UInt64) (n : Nat) :
    ((step^[n] (seed s stream₂)).state.toNat : ZMod (2 ^ 64)) -
        (step^[n] (seed s stream₁)).state.toNat =
      ((seed s stream₂).inc.toNat - (seed s stream₁).inc.toNat) *
        Lcg.lcgSum mult.toNat (n + 2) := by
  rw [cast_state_iterate, cast_state_iterate, Lcg.iterate_sub_iterate, cast_state_seed,
    cast_state_seed, Lcg.lcgSum_add]
  simp only [Lcg.lcgSum]
  push_cast
  ring

/-- Two streams of one seed are at some moment in states that differ in the highest bit. -/
theorem exists_state_add_top {s stream₁ stream₂ : UInt64}
    (hinc : (seed s stream₁).inc ≠ (seed s stream₂).inc) :
    ∃ n, (step^[n] (seed s stream₂)).state =
      (step^[n] (seed s stream₁)).state + 0x8000000000000000 := by
  have hd : ((seed s stream₂).inc - (seed s stream₁).inc).toNat ≠ 0 := by
    intro h0
    have hcast := cast_toNat_sub (seed s stream₂).inc (seed s stream₁).inc
    rw [h0, Nat.cast_zero, eq_comm, sub_eq_zero] at hcast
    exact hinc (eq_of_cast_toNat hcast).symm
  obtain ⟨n, hn⟩ := Lcg.exists_mul_lcgSum (k := 63) (a := mult.toNat) rfl hd (UInt64.toNat_lt _) 2
  rw [cast_toNat_sub, ← state_sub_state, sub_eq_iff_eq_add'] at hn
  exact ⟨n, eq_of_cast_toNat (by rw [cast_toNat_add, hn]; rfl)⟩

/-- Streams with different increments yield different sequences. -/
theorem exists_draw_ne {s stream₁ stream₂ : UInt64}
    (hinc : (seed s stream₁).inc ≠ (seed s stream₂).inc) :
    ∃ n, (seed s stream₁).draw n ≠ (seed s stream₂).draw n := by
  obtain ⟨n, hn⟩ := exists_state_add_top hinc
  refine ⟨n, fun heq => output_add_top (step^[n] (seed s stream₁)).state ?_⟩
  rw [← hn]
  exact heq.symm

/-- When seeds and selectors keep generators apart: whenever the seeds differ or the selectors
differ below their highest bit. -/
theorem distinct_iff (seed₁ stream₁ seed₂ stream₂ : UInt64) :
    Distinct seed₁ stream₁ seed₂ stream₂ ↔
      seed₁ ≠ seed₂ ∨ stream₁.toNat % 2 ^ 63 ≠ stream₂.toNat % 2 ^ 63 := by
  have hinc := inc_seed_eq_iff seed₁ seed₂ stream₁ stream₂
  constructor
  · intro h
    by_contra hsame
    rw [not_or, not_not, not_not] at hsame
    obtain ⟨rfl, hstream⟩ := hsame
    have hi := hinc.mpr hstream
    rcases h.apart with hs | hi'
    · exact hs (by rw [state_seed, state_seed, hi])
    · exact hi' hi
  · intro h
    refine ⟨?_, ?_⟩
    · by_cases hi : (seed seed₁ stream₁).inc = (seed seed₂ stream₂).inc
      · refine .inl fun hs => ?_
        rcases h with hseed | hstream
        · exact hseed (state_seed_injective hi hs)
        · exact hstream (hinc.mp hi)
      · exact .inr hi
    · rintro rfl -
      refine exists_draw_ne fun hi => ?_
      rcases h with hseed | hstream
      · exact hseed rfl
      · exact hstream (hinc.mp hi)

/-- The selectors `0` and `2 ^ 63` are different and make the same generator from the same seed. -/
theorem stream_replayed : ¬ ∀ seed₁ stream₁ seed₂ stream₂ : UInt64,
    (seed₁, stream₁) ≠ (seed₂, stream₂) → Distinct seed₁ stream₁ seed₂ stream₂ := by
  intro h
  have hsame : seed 42 0 = seed 42 0x8000000000000000 := rfl
  rcases (h 42 0 42 0x8000000000000000 (by decide)).apart with hs | hi
  · exact hs (by rw [hsame])
  · exact hi (by rw [hsame])

end CBase.Rng
