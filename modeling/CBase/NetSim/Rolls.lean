import CBase.Lib.MachineInt
import CBase.NetSim.Calls

/-!
# The rolls of a copy

* `rollCopy_spec`: which rolls a copy can have.
* `bitAt_flipBit`: a corrupted payload differs in the rolled bit and in no other.
* `toNat_scheduledNs`: the rolled latencies are added to the clock reading, if that does not wrap.
-/

namespace CBase.NetSim

/-! ## Draws -/

theorem chanceFx16_pos {rng rng' : Rng} {probability : Int32}
    (h : rng.chanceFx16 probability = (true, rng')) : 0 < probability := by
  unfold Rng.chanceFx16 at h
  split at h
  · cases h
  · next hpos => exact Int32.not_le.mp hpos

/-- A range draw with its ends in the wrong order is the lower end. -/
theorem i32Range_bounds {rng rng' : Rng} {lo hi r : Int32} (h : rng.i32Range lo hi = some (r, rng')) :
    lo ≤ r ∧ (hi < lo → r = lo) ∧ (lo ≤ hi → r ≤ hi) := by
  by_cases hlt : hi < lo
  · have hr : r = lo := by
      simp only [Rng.i32Range, hlt, if_true, Option.pure_def, Option.some.injEq, Prod.mk.injEq] at h
      exact h.1.symm
    refine ⟨?_, fun _ => hr, fun hle => absurd hlt (Int32.not_lt.mpr hle)⟩
    rw [hr]
    exact Int32.le_refl _
  · obtain ⟨r', rng'', hr, hlow, hhigh⟩ := rng.i32Range_spec (Int32.not_lt.mp hlt)
    rw [h] at hr
    cases hr
    exact ⟨hlow, fun hlt' => absurd hlt' hlt, fun _ => hhigh⟩

/-- A range draw between two values that were unsigned. -/
theorem i32Range_unsigned {rng rng' : Rng} {lo hi : UInt32} {r : Int32}
    (h : rng.i32Range lo.toInt32 hi.toInt32 = some (r, rng')) (hle : lo ≤ hi) :
    (lo.toNat < 2 ^ 31 → lo.toNat ≤ r.toInt ∧ r.toInt ≤ hi.toNat) ∧
      (2 ^ 31 ≤ lo.toNat → (lo.toNat : Int) - 2 ^ 32 ≤ r.toInt ∧ r.toInt < 0) := by
  obtain ⟨hlow, hreverse, hhigh⟩ := i32Range_bounds h
  rw [Int32.le_iff_toInt_le] at hlow
  have hle' := UInt32.le_iff_toNat_le.mp hle
  have hhi := hi.toNat_lt
  refine ⟨fun hsmall => ?_, fun hlarge => ?_⟩
  · have hlo := MachineInt.toInt_ofUInt32 hsmall
    rcases Nat.lt_or_ge hi.toNat (2 ^ 31) with hhiSmall | hhiLarge
    · have hhi' := MachineInt.toInt_ofUInt32 hhiSmall
      have hup := Int32.le_iff_toInt_le.mp (hhigh (Int32.le_iff_toInt_le.mpr (by omega)))
      omega
    · have hhi' := MachineInt.toInt_ofUInt32_wrap hhiLarge
      have hr := hreverse (Int32.lt_iff_toInt_lt.mpr (by omega))
      rw [hr, hlo]
      omega
  · have hlo := MachineInt.toInt_ofUInt32_wrap hlarge
    have hhi' := MachineInt.toInt_ofUInt32_wrap (hlarge.trans hle')
    have hup := Int32.le_iff_toInt_le.mp (hhigh (Int32.le_iff_toInt_le.mpr (by omega)))
    omega

theorem rollFlip_spec {rng rng' : Rng} {params : Params} {len : Nat} {bit : UInt32}
    (h : rollFlip rng params len = some (some bit, rng')) (hlen : len ≤ maxDatagramBytes) :
    bit.toNat < len * 8 ∧ 0 < params.corruptProb := by
  unfold rollFlip at h
  by_cases hzero : len = 0
  · simp [hzero] at h
  rcases hhit : rng.chanceFx16 params.corruptProb with ⟨hit, rng₁⟩
  simp only [hzero, hhit, if_false] at h
  cases hit with
  | false => simp at h
  | true =>
    have hbits : (UInt32.ofNat (len * 8)).toNat = len * 8 := by
      refine UInt32.toNat_ofNat_of_lt' ?_
      unfold maxDatagramBytes at hlen
      rw [show UInt32.size = 4294967296 from rfl]
      omega
    have hne : UInt32.ofNat (len * 8) ≠ 0 := fun h0 => by
      rw [h0, UInt32.toNat_zero] at hbits
      omega
    obtain ⟨r, rng₂, hr, hlt⟩ := rng₁.u32Below_spec hne
    simp only [Bool.not_true, Bool.false_eq_true, if_false, hr, Option.bind_eq_bind, Option.bind_some,
      Option.pure_def, Option.some.injEq, Prod.mk.injEq] at h
    obtain ⟨rfl, -⟩ := h
    rw [UInt32.lt_iff_toNat_lt, hbits] at hlt
    exact ⟨hlt, chanceFx16_pos hhit⟩

theorem rollSwap_spec {rng rng' : Rng} {params : Params} {rms : Int32}
    (h : rollSwap rng params = some (some rms, rng')) :
    0 < params.reorderProb ∧ ∃ rng₁ rng₂ : Rng, rng₁.i32Range params.reorderSwapMsMin.toInt32
      params.reorderSwapMsMax.toInt32 = some (rms, rng₂) := by
  unfold rollSwap at h
  rcases hhit : rng.chanceFx16 params.reorderProb with ⟨hit, rng₁⟩
  simp only [hhit] at h
  cases hit with
  | false => simp at h
  | true =>
    simp only [Bool.not_true, Bool.false_eq_true, if_false, Option.bind_eq_bind, Option.pure_def,
      Option.bind_eq_some_iff, Option.some.injEq, Prod.mk.injEq] at h
    obtain ⟨⟨r, rng₂⟩, hr, rfl, -⟩ := h
    exact ⟨chanceFx16_pos hhit, rng₁, rng₂, hr⟩

structure Rolled (params : Params) (len : Nat) (now : UInt64) (r : Rolls) : Prop where
  now : r.now = now
  latency : ∃ rng rng' : Rng, rng.i32Range params.latencyMsMin.toInt32 params.latencyMsMax.toInt32 =
    some (r.latency, rng')
  flip : ∀ bit, r.flip = some bit → bit.toNat < len * 8 ∧ 0 < params.corruptProb
  swap : ∀ rms, r.swap = some rms → 0 < params.reorderProb ∧ ∃ rng rng' : Rng,
    rng.i32Range params.reorderSwapMsMin.toInt32 params.reorderSwapMsMax.toInt32 = some (rms, rng')

theorem rollCopy_spec {rng rng' : Rng} {params : Params} {len : Nat} {now : UInt64} {r : Rolls}
    (h : rollCopy rng params len now = some (r, rng')) (hlen : len ≤ maxDatagramBytes) :
    Rolled params len now r := by
  unfold rollCopy at h
  simp only [Option.bind_eq_bind, Option.pure_def, Option.bind_eq_some_iff, Option.some.injEq,
    Prod.mk.injEq] at h
  obtain ⟨⟨lms, rng₁⟩, hlms, ⟨flip, rng₂⟩, hflip, ⟨swap, rng₃⟩, hswap, rfl, -⟩ := h
  refine ⟨rfl, ⟨_, _, hlms⟩, fun bit hbit => ?_, fun rms hrms => ?_⟩
  · obtain rfl : flip = some bit := hbit
    exact rollFlip_spec hflip hlen
  · obtain rfl : swap = some rms := hrms
    exact rollSwap_spec hswap

/-! ## The draws of a send -/

/-- The draws of a send that gets as far as its drop roll, if there is memory for its copies. -/
def drawSend (rng : Rng) (params : Params) (len : Nat) (now : UInt64) : Option (List Rolls × Rng) := do
  let (drop, rng) := rng.chanceFx16 params.dropProb
  if drop then return ([], rng)
  let (primary, rng) ← rollCopy rng params len now
  let (dup, rng) := rng.chanceFx16 params.dupProb
  if !dup then return ([primary], rng)
  let (second, rng) ← rollCopy rng params len now
  return ([primary, second], rng)

theorem rollCopy_total (rng : Rng) (params : Params) (len : Nat) (now : UInt64) :
    ∃ r rng', rollCopy rng params len now = some (r, rng') := by
  obtain ⟨⟨lms, rng₁⟩, hlms⟩ := Option.isSome_iff_exists.mp
    (rng.i32Range_total params.latencyMsMin.toInt32 params.latencyMsMax.toInt32)
  obtain ⟨flip, rng₂, hflip⟩ := rollFlip_total rng₁ params len
  obtain ⟨swap, rng₃, hswap⟩ := rollSwap_total rng₂ params
  exact ⟨⟨now, lms, flip, swap⟩, rng₃, by simp [rollCopy, hlms, hflip, hswap]⟩

theorem drawSend_total (rng : Rng) (params : Params) (len : Nat) (now : UInt64) :
    ∃ rolls rng', drawSend rng params len now = some (rolls, rng') := by
  unfold drawSend
  rcases rng.chanceFx16 params.dropProb with ⟨drop, rng₁⟩
  cases drop with
  | true => exact ⟨[], rng₁, rfl⟩
  | false =>
    obtain ⟨r, rng₂, hr⟩ := rollCopy_total rng₁ params len now
    rcases hdup : rng₂.chanceFx16 params.dupProb with ⟨dup, rng₃⟩
    cases dup with
    | false => exact ⟨[r], rng₃, by simp [hr, hdup]⟩
    | true =>
      obtain ⟨r', rng₄, hr'⟩ := rollCopy_total rng₃ params len now
      exact ⟨[r, r'], rng₄, by simp [hr, hdup, hr']⟩

/-- The corruption roll of `len` bytes: nothing is rolled for none, and else `cb_rng_chance_fx16` decides
whether the bit that is drawn next is flipped. -/
inductive FlipDraw (rng : Rng) (params : Params) (len : Nat) : Option UInt32 → Rng → Prop
  | empty : len = 0 → FlipDraw rng params len none rng
  | miss {rng' : Rng} : len ≠ 0 → rng.chanceFx16 params.corruptProb = (false, rng') →
      FlipDraw rng params len none rng'
  | hit {rng₁ rng' : Rng} {bit : UInt32} : len ≠ 0 →
      rng.chanceFx16 params.corruptProb = (true, rng₁) →
      rng₁.u32Below (UInt32.ofNat (len * 8)) = some (bit, rng') →
      FlipDraw rng params len (some bit) rng'

theorem rollFlip_draw {rng rng' : Rng} {params : Params} {len : Nat} {flip : Option UInt32}
    (h : rollFlip rng params len = some (flip, rng')) : FlipDraw rng params len flip rng' := by
  unfold rollFlip at h
  by_cases hzero : len = 0
  · simp only [hzero, if_true, Option.pure_def, Option.some.injEq, Prod.mk.injEq] at h
    obtain ⟨rfl, rfl⟩ := h
    exact .empty hzero
  rcases hchance : rng.chanceFx16 params.corruptProb with ⟨hit, rng₁⟩
  simp only [hzero, hchance, if_false] at h
  cases hit with
  | false =>
    simp only [Bool.not_false, if_true, Option.pure_def, Option.some.injEq, Prod.mk.injEq] at h
    obtain ⟨rfl, rfl⟩ := h
    exact .miss hzero hchance
  | true =>
    simp only [Bool.not_true, Bool.false_eq_true, if_false, Option.bind_eq_bind, Option.pure_def,
      Option.bind_eq_some_iff, Option.some.injEq, Prod.mk.injEq] at h
    obtain ⟨⟨bit, rng₂⟩, hbit, rfl, rfl⟩ := h
    exact .hit hzero hchance hbit

/-- The rolls of one copy, each from where the one before left the generator. -/
structure CopyDraw (rng : Rng) (params : Params) (len : Nat) (r : Rolls) (rng' : Rng) : Prop where
  draws : ∃ rng₁ rng₂, rng.i32Range params.latencyMsMin.toInt32 params.latencyMsMax.toInt32 =
      some (r.latency, rng₁) ∧ FlipDraw rng₁ params len r.flip rng₂ ∧
    rollSwap rng₂ params = some (r.swap, rng')

theorem rollCopy_draw {rng rng' : Rng} {params : Params} {len : Nat} {now : UInt64} {r : Rolls}
    (h : rollCopy rng params len now = some (r, rng')) : CopyDraw rng params len r rng' := by
  unfold rollCopy at h
  simp only [Option.bind_eq_bind, Option.pure_def, Option.bind_eq_some_iff, Option.some.injEq,
    Prod.mk.injEq] at h
  obtain ⟨⟨lms, rng₁⟩, hlms, ⟨flip, rng₂⟩, hflip, ⟨swap, rng₃⟩, hswap, rfl, rfl⟩ := h
  exact ⟨rng₁, rng₂, hlms, rollFlip_draw hflip, hswap⟩

/-- The rolls of the copies of one datagram: the drop roll, the rolls of the first copy, the duplicate
roll, and the rolls of the second. -/
inductive SendDraw (rng : Rng) (params : Params) (len : Nat) : List Rolls → Prop
  | none : SendDraw rng params len []
  | one {rng₁ rng₂ : Rng} {r : Rolls} : rng.chanceFx16 params.dropProb = (false, rng₁) →
      CopyDraw rng₁ params len r rng₂ → SendDraw rng params len [r]
  | two {rng₁ rng₂ rng₃ rng₄ : Rng} {r r' : Rolls} :
      rng.chanceFx16 params.dropProb = (false, rng₁) → CopyDraw rng₁ params len r rng₂ →
      rng₂.chanceFx16 params.dupProb = (true, rng₃) → CopyDraw rng₃ params len r' rng₄ →
      SendDraw rng params len [r, r']

theorem Sent.draw {env : Env} {src dest : Addr} {buf : List UInt8} {now : UInt64} {s s' : Sim}
    {rng : Rng} {out : Info × List Rolls} (h : Sent env src dest buf now s out s')
    (hdrop : rng.chanceFx16 s.params.dropProb = (false, s.rng)) :
    SendDraw rng s.params buf.length out.2 := by
  cases h with
  | failed => exact .none
  | single hfirst hdup =>
    cases hfirst with
    | copy hroll => exact .one hdrop (rollCopy_draw hroll)
  | half hfirst hdup =>
    cases hfirst with
    | copy hroll => exact .one hdrop (rollCopy_draw hroll)
  | double hfirst hdup hsecond =>
    cases hfirst with
    | copy hroll =>
      cases hsecond with
      | copy hroll' => exact .two hdrop (rollCopy_draw hroll) hdup (rollCopy_draw hroll')

/-- The rolls of a send are drawn from the generator, as far as there is memory. -/
theorem Sent.draws {env : Env} {src dest : Addr} {buf : List UInt8} {now : UInt64} {s s' : Sim}
    {rng : Rng} {out : Info × List Rolls} (h : Sent env src dest buf now s out s')
    (hdrop : rng.chanceFx16 s.params.dropProb = (false, s.rng)) :
    ∃ rolls rng', drawSend rng s.params buf.length now = some (rolls, rng') ∧ out.2 <+: rolls ∧
      (out.1 ≠ .netsimAllocFailed → out.2 = rolls ∧ s'.rng = rng') := by
  cases h with
  | failed hnone =>
    obtain ⟨rolls, rng', hdraw⟩ := drawSend_total rng s.params buf.length now
    exact ⟨rolls, rng', hdraw, List.nil_prefix, fun h => absurd rfl h⟩
  | single hfirst hdup =>
    cases hfirst with
    | copy hroll =>
      refine ⟨_, _, ?_, List.prefix_refl _, fun _ => ⟨rfl, rfl⟩⟩
      simp [drawSend, hdrop, hroll, hdup]
  | half hfirst hdup hnone =>
    cases hfirst with
    | copy hroll =>
      cases hnone with
      | failed =>
        obtain ⟨rolls, rng', hdraw⟩ := drawSend_total rng s.params buf.length now
        refine ⟨rolls, rng', hdraw, ?_, fun h => absurd rfl h⟩
        simp [drawSend, hdrop, hroll, hdup, Option.bind_eq_some_iff] at hdraw
        obtain ⟨r', -, rfl⟩ := hdraw
        exact ⟨[r'], rfl⟩
  | double hfirst hdup hsecond =>
    cases hfirst with
    | copy hroll =>
      cases hsecond with
      | copy hroll' =>
        refine ⟨_, _, ?_, List.prefix_refl _, fun _ => ⟨rfl, rfl⟩⟩
        simp [drawSend, hdrop, hroll, hdup, hroll']

/-! ## Schedule -/

namespace Rolls

def swapNs (r : Rolls) : UInt64 :=
  match r.swap with
  | none => 0
  | some rms => msToNs rms

/-- The additions of `scheduled_ns` do not wrap. -/
def NoWrap (r : Rolls) : Prop := r.now.toNat + (msToNs r.latency).toNat + r.swapNs.toNat < 2 ^ 64

instance (r : Rolls) : Decidable r.NoWrap := inferInstanceAs (Decidable (_ < _))

theorem scheduledNs_eq (r : Rolls) : r.scheduledNs = r.now + msToNs r.latency + r.swapNs := by
  unfold scheduledNs swapNs
  cases r.swap with
  | none => simp
  | some rms => rfl

theorem toNat_scheduledNs {r : Rolls} (h : r.NoWrap) :
    r.scheduledNs.toNat = r.now.toNat + (msToNs r.latency).toNat + r.swapNs.toNat := by
  unfold NoWrap at h
  rw [scheduledNs_eq, UInt64.toNat_add, UInt64.toNat_add, Nat.mod_add_mod]
  exact Nat.mod_eq_of_lt h

def swapMs (r : Rolls) : Int :=
  match r.swap with
  | none => 0
  | some rms => rms.toInt

theorem toNat_msToNs (ms : Int32) : ((msToNs ms).toNat : Int) = ms.toInt * 1000000 % 2 ^ 64 := by
  have hwide := MachineInt.toNat_toUInt64_emod ms.toInt64
  rw [Int32.toInt_toInt64] at hwide
  unfold msToNs
  rw [UInt64.toNat_mul, show (1000000 : UInt64).toNat = 1000000 from rfl]
  push_cast
  rw [hwide]
  omega

/-- The latencies are signed, and `scheduled_ns` wraps. -/
theorem scheduledNs_emod (r : Rolls) : (r.scheduledNs.toNat : Int) =
    (r.now.toNat + (r.latency.toInt + r.swapMs) * 1000000) % 2 ^ 64 := by
  have hlatency := toNat_msToNs r.latency
  have hswap : (r.swapNs.toNat : Int) = r.swapMs * 1000000 % 2 ^ 64 := by
    unfold swapNs swapMs
    cases r.swap with
    | none => rfl
    | some rms => exact toNat_msToNs rms
  rw [scheduledNs_eq, UInt64.toNat_add, UInt64.toNat_add]
  push_cast
  rw [hlatency, hswap]
  omega

end Rolls

/-! ## Corruption -/

def bitAt (bytes : List UInt8) (i : Nat) : Bool := (bytes.getD (i / 8) 0).toNat.testBit (i % 8)

theorem length_flipBit (bytes : List UInt8) (bit : UInt32) : (flipBit bytes bit).length = bytes.length :=
  List.length_modify ..

/-- `1u << (bit & 7u)` as a mask. -/
theorem toNat_mask (bit : UInt32) :
    ((1 : UInt8) <<< (bit &&& 7).toUInt8).toNat = 2 ^ (bit.toNat % 8) := by
  have hlow : (bit &&& 7).toUInt8.toNat = bit.toNat % 8 := by
    rw [UInt32.toNat_toUInt8, UInt32.toNat_and, show (7 : UInt32).toNat = 2 ^ 3 - 1 from rfl,
      Nat.and_two_pow_sub_one_eq_mod]
    omega
  have hmod := Nat.mod_lt bit.toNat (show 0 < 8 by decide)
  rw [UInt8.toNat_shiftLeft, hlow, Nat.mod_mod, Nat.shiftLeft_eq, show (1 : UInt8).toNat = 1 from rfl,
    Nat.one_mul]
  refine Nat.mod_eq_of_lt ?_
  exact Nat.pow_lt_pow_right (by decide) hmod

/-- A flip changes the rolled bit and no other. -/
theorem bitAt_flipBit {bytes : List UInt8} {bit : UInt32} (h : bit.toNat < bytes.length * 8) (i : Nat) :
    bitAt (flipBit bytes bit) i = (bitAt bytes i ^^ decide (i = bit.toNat)) := by
  have hbyte : (bit >>> 3).toNat = bit.toNat / 8 := by
    rw [UInt32.toNat_shiftRight, show (3 : UInt32).toNat % 32 = 3 from rfl, Nat.shiftRight_eq_div_pow]
  unfold bitAt flipBit
  rw [hbyte, List.getD_eq_getElem?_getD, List.getD_eq_getElem?_getD, List.getElem?_modify]
  by_cases hi : bit.toNat / 8 = i / 8
  · have hin : i / 8 < bytes.length := by omega
    have hxor : (bytes[i / 8] ^^^ ((1 : UInt8) <<< (bit &&& 7).toUInt8)).toNat.testBit (i % 8) =
        (bytes[i / 8].toNat.testBit (i % 8) ^^ decide (i = bit.toNat)) := by
      rw [UInt8.toNat_xor, Nat.testBit_xor, toNat_mask, Nat.testBit_two_pow]
      refine congrArg _ (decide_eq_decide.mpr ⟨fun hmod => ?_, fun heq => by rw [heq]⟩)
      rw [← Nat.div_add_mod i 8, ← Nat.div_add_mod bit.toNat 8, hi, hmod]
    simpa [List.getElem?_eq_getElem hin, hi] using hxor
  · have hne : i ≠ bit.toNat := fun heq => hi (by rw [heq])
    simp [hi, hne]

end CBase.NetSim
