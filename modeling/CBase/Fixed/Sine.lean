import CBase.Fixed.Atan2
import CBase.Lib.QuarterWave

/-!
# Sine and cosine

`cb_fx16_sin` looks up a quarter of a turn in a table, interpolates, and reflects the value to the
quadrant of the angle. A lookup outside of the table has no result (`none`).

* `fx16Sin_spec`: the result is the wave of `QuarterWave` over the table.
* `sine_cosine_symmetric`: the symmetries of the sine and of the cosine, and their order.
-/

namespace CBase.Fixed

open MachineInt

def sinLut : List Int32 :=
  [0, 101, 201, 302, 402, 503, 603, 704, 804, 905, 1005, 1106, 1206, 1307, 1407, 1508, 1608, 1709,
   1809, 1910, 2010, 2111, 2211, 2312, 2412, 2513, 2613, 2714, 2814, 2914, 3015, 3115, 3216, 3316,
   3417, 3517, 3617, 3718, 3818, 3918, 4019, 4119, 4219, 4320, 4420, 4520, 4621, 4721, 4821, 4921,
   5022, 5122, 5222, 5322, 5422, 5523, 5623, 5723, 5823, 5923, 6023, 6123, 6224, 6324, 6424, 6524,
   6624, 6724, 6824, 6924, 7024, 7124, 7224, 7323, 7423, 7523, 7623, 7723, 7823, 7923, 8022, 8122,
   8222, 8322, 8421, 8521, 8621, 8720, 8820, 8919, 9019, 9119, 9218, 9318, 9417, 9517, 9616, 9716,
   9815, 9914, 10014, 10113, 10212, 10312, 10411, 10510, 10609, 10709, 10808, 10907, 11006, 11105,
   11204, 11303, 11402, 11501, 11600, 11699, 11798, 11897, 11996, 12095, 12193, 12292, 12391, 12490,
   12588, 12687, 12785, 12884, 12983, 13081, 13180, 13278, 13376, 13475, 13573, 13672, 13770, 13868,
   13966, 14065, 14163, 14261, 14359, 14457, 14555, 14653, 14751, 14849, 14947, 15045, 15143, 15240,
   15338, 15436, 15534, 15631, 15729, 15826, 15924, 16021, 16119, 16216, 16314, 16411, 16508, 16606,
   16703, 16800, 16897, 16994, 17091, 17188, 17285, 17382, 17479, 17576, 17673, 17770, 17867, 17963,
   18060, 18156, 18253, 18350, 18446, 18543, 18639, 18735, 18832, 18928, 19024, 19120, 19216, 19313,
   19409, 19505, 19600, 19696, 19792, 19888, 19984, 20080, 20175, 20271, 20366, 20462, 20557, 20653,
   20748, 20844, 20939, 21034, 21129, 21224, 21320, 21415, 21510, 21604, 21699, 21794, 21889, 21984,
   22078, 22173, 22268, 22362, 22457, 22551, 22645, 22740, 22834, 22928, 23022, 23116, 23210, 23304,
   23398, 23492, 23586, 23680, 23774, 23867, 23961, 24054, 24148, 24241, 24335, 24428, 24521, 24614,
   24708, 24801, 24894, 24987, 25080, 25172, 25265, 25358, 25451, 25543, 25636, 25728, 25821, 25913,
   26005, 26098, 26190, 26282, 26374, 26466, 26558, 26650, 26742, 26833, 26925, 27017, 27108, 27200,
   27291, 27382, 27474, 27565, 27656, 27747, 27838, 27929, 28020, 28111, 28202, 28293, 28383, 28474,
   28564, 28655, 28745, 28835, 28926, 29016, 29106, 29196, 29286, 29376, 29466, 29555, 29645, 29735,
   29824, 29914, 30003, 30093, 30182, 30271, 30360, 30449, 30538, 30627, 30716, 30805, 30893, 30982,
   31071, 31159, 31248, 31336, 31424, 31512, 31600, 31688, 31776, 31864, 31952, 32040, 32127, 32215,
   32303, 32390, 32477, 32565, 32652, 32739, 32826, 32913, 33000, 33087, 33173, 33260, 33347, 33433,
   33520, 33606, 33692, 33778, 33865, 33951, 34037, 34122, 34208, 34294, 34380, 34465, 34551, 34636,
   34721, 34806, 34892, 34977, 35062, 35146, 35231, 35316, 35401, 35485, 35570, 35654, 35738, 35823,
   35907, 35991, 36075, 36159, 36243, 36326, 36410, 36493, 36577, 36660, 36744, 36827, 36910, 36993,
   37076, 37159, 37241, 37324, 37407, 37489, 37572, 37654, 37736, 37818, 37900, 37982, 38064, 38146,
   38228, 38309, 38391, 38472, 38554, 38635, 38716, 38797, 38878, 38959, 39040, 39120, 39201, 39282,
   39362, 39442, 39523, 39603, 39683, 39763, 39843, 39922, 40002, 40082, 40161, 40241, 40320, 40399,
   40478, 40557, 40636, 40715, 40794, 40872, 40951, 41029, 41108, 41186, 41264, 41342, 41420, 41498,
   41576, 41653, 41731, 41808, 41886, 41963, 42040, 42117, 42194, 42271, 42348, 42424, 42501, 42578,
   42654, 42730, 42806, 42882, 42958, 43034, 43110, 43186, 43261, 43337, 43412, 43487, 43562, 43638,
   43713, 43787, 43862, 43937, 44011, 44086, 44160, 44234, 44308, 44382, 44456, 44530, 44604, 44677,
   44751, 44824, 44898, 44971, 45044, 45117, 45190, 45262, 45335, 45408, 45480, 45552, 45625, 45697,
   45769, 45841, 45912, 45984, 46056, 46127, 46199, 46270, 46341, 46412, 46483, 46554, 46624, 46695,
   46765, 46836, 46906, 46976, 47046, 47116, 47186, 47256, 47325, 47395, 47464, 47534, 47603, 47672,
   47741, 47809, 47878, 47947, 48015, 48084, 48152, 48220, 48288, 48356, 48424, 48491, 48559, 48626,
   48694, 48761, 48828, 48895, 48962, 49029, 49095, 49162, 49228, 49295, 49361, 49427, 49493, 49559,
   49624, 49690, 49756, 49821, 49886, 49951, 50016, 50081, 50146, 50211, 50275, 50340, 50404, 50468,
   50532, 50596, 50660, 50724, 50787, 50851, 50914, 50977, 51041, 51104, 51166, 51229, 51292, 51354,
   51417, 51479, 51541, 51603, 51665, 51727, 51789, 51850, 51911, 51973, 52034, 52095, 52156, 52217,
   52277, 52338, 52398, 52459, 52519, 52579, 52639, 52699, 52759, 52818, 52878, 52937, 52996, 53055,
   53114, 53173, 53232, 53290, 53349, 53407, 53465, 53523, 53581, 53639, 53697, 53754, 53812, 53869,
   53926, 53983, 54040, 54097, 54154, 54210, 54267, 54323, 54379, 54435, 54491, 54547, 54603, 54658,
   54714, 54769, 54824, 54879, 54934, 54989, 55043, 55098, 55152, 55206, 55260, 55314, 55368, 55422,
   55476, 55529, 55582, 55636, 55689, 55742, 55794, 55847, 55900, 55952, 56004, 56056, 56108, 56160,
   56212, 56264, 56315, 56367, 56418, 56469, 56520, 56571, 56621, 56672, 56722, 56773, 56823, 56873,
   56923, 56972, 57022, 57072, 57121, 57170, 57219, 57268, 57317, 57366, 57414, 57463, 57511, 57559,
   57607, 57655, 57703, 57750, 57798, 57845, 57892, 57939, 57986, 58033, 58079, 58126, 58172, 58219,
   58265, 58311, 58356, 58402, 58448, 58493, 58538, 58583, 58628, 58673, 58718, 58763, 58807, 58851,
   58896, 58940, 58983, 59027, 59071, 59114, 59158, 59201, 59244, 59287, 59330, 59372, 59415, 59457,
   59499, 59541, 59583, 59625, 59667, 59708, 59750, 59791, 59832, 59873, 59914, 59954, 59995, 60035,
   60075, 60116, 60156, 60195, 60235, 60275, 60314, 60353, 60392, 60431, 60470, 60509, 60547, 60586,
   60624, 60662, 60700, 60738, 60776, 60813, 60851, 60888, 60925, 60962, 60999, 61035, 61072, 61108,
   61145, 61181, 61217, 61253, 61288, 61324, 61359, 61394, 61429, 61464, 61499, 61534, 61568, 61603,
   61637, 61671, 61705, 61739, 61772, 61806, 61839, 61873, 61906, 61939, 61971, 62004, 62036, 62069,
   62101, 62133, 62165, 62197, 62228, 62260, 62291, 62322, 62353, 62384, 62415, 62445, 62476, 62506,
   62536, 62566, 62596, 62626, 62655, 62685, 62714, 62743, 62772, 62801, 62830, 62858, 62886, 62915,
   62943, 62971, 62998, 63026, 63054, 63081, 63108, 63135, 63162, 63189, 63215, 63242, 63268, 63294,
   63320, 63346, 63372, 63397, 63423, 63448, 63473, 63498, 63523, 63547, 63572, 63596, 63621, 63645,
   63668, 63692, 63716, 63739, 63763, 63786, 63809, 63832, 63854, 63877, 63899, 63922, 63944, 63966,
   63987, 64009, 64031, 64052, 64073, 64094, 64115, 64136, 64156, 64177, 64197, 64217, 64237, 64257,
   64277, 64296, 64316, 64335, 64354, 64373, 64392, 64410, 64429, 64447, 64465, 64483, 64501, 64519,
   64536, 64554, 64571, 64588, 64605, 64622, 64639, 64655, 64672, 64688, 64704, 64720, 64735, 64751,
   64766, 64782, 64797, 64812, 64827, 64841, 64856, 64870, 64884, 64899, 64912, 64926, 64940, 64953,
   64967, 64980, 64993, 65006, 65018, 65031, 65043, 65055, 65067, 65079, 65091, 65103, 65114, 65126,
   65137, 65148, 65159, 65169, 65180, 65190, 65200, 65210, 65220, 65230, 65240, 65249, 65259, 65268,
   65277, 65286, 65294, 65303, 65311, 65320, 65328, 65336, 65343, 65351, 65358, 65366, 65373, 65380,
   65387, 65393, 65400, 65406, 65413, 65419, 65425, 65430, 65436, 65442, 65447, 65452, 65457, 65462,
   65467, 65471, 65476, 65480, 65484, 65488, 65492, 65495, 65499, 65502, 65505, 65508, 65511, 65514,
   65516, 65519, 65521, 65523, 65525, 65527, 65528, 65530, 65531, 65532, 65533, 65534, 65535, 65535,
   65536, 65536, 65536]

def sinQ1 (pos : UInt32) : Option Int32 := do
  if 16384 ≤ pos then return fx16One
  let idx := pos >>> 4
  let frac := pos &&& 0xF
  let a ← sinLut[idx.toNat]?
  let b ← sinLut[(idx + 1).toNat]?
  let diff := b - a
  return a + (diff * frac.toInt32) / 16

def fx16Sin (angle : UInt16) : Option Int32 := do
  let a := angle.toUInt32
  let quadrant := a >>> 14
  let pos := a &&& 0x3FFF
  let v ← (if quadrant &&& 1 = 0 then sinQ1 pos else sinQ1 (16384 - pos))
  return if 2 ≤ quadrant then -v else v

def fx16Cos (angle : UInt16) : Option Int32 := fx16Sin (angle.toUInt32 + bradQuarter.toUInt32).toUInt16

/-! ## The table -/

/-- The entries of the table, continued by its last one. -/
def sinEntry (i : ℕ) : ℕ := (sinLut.getD i fx16One).toInt.toNat

theorem length_sinLut : sinLut.length = 1025 := by decide +kernel

theorem sinLut_sorted : sinLut.IsChain (· ≤ ·) := by decide +kernel

theorem sinLut_nonneg : sinLut.all (0 ≤ ·) = true := by decide +kernel

theorem getElem?_sinLut {i : ℕ} (hi : i ≤ 1024) :
    ∃ a, sinLut[i]? = some a ∧ a.toInt = sinEntry i := by
  have hlt : i < sinLut.length := by
    rw [length_sinLut]
    omega
  have hlow := of_decide_eq_true (List.all_eq_true.mp sinLut_nonneg _ (List.getElem_mem hlt))
  rw [Int32.le_iff_toInt_le, Int32.toInt_zero] at hlow
  refine ⟨sinLut[i], List.getElem?_eq_getElem hlt, ?_⟩
  rw [sinEntry, List.getD_eq_getElem _ _ hlt, Int.toNat_of_nonneg hlow]

theorem sinEntry_above {i : ℕ} (hi : 1024 ≤ i) : sinEntry i = 65536 := by
  rcases Nat.eq_or_lt_of_le hi with rfl | hlt
  · decide +kernel
  · rw [sinEntry, List.getD_eq_default _ _ (by rw [length_sinLut]; omega)]
    rfl

theorem sinEntry_mono : Monotone sinEntry := by
  refine monotone_nat_of_le_succ fun i => ?_
  by_cases hi : i + 1 < sinLut.length
  · have hle := List.isChain_iff_getElem.mp sinLut_sorted i hi
    rw [Int32.le_iff_toInt_le] at hle
    rw [sinEntry, sinEntry, List.getD_eq_getElem _ _ (by omega), List.getD_eq_getElem _ _ hi]
    exact Int.toNat_le_toNat hle
  · rw [length_sinLut] at hi
    rw [sinEntry_above (by omega : 1024 ≤ i), sinEntry_above (by omega : 1024 ≤ i + 1)]

theorem sinEntry_le (i : ℕ) : sinEntry i ≤ 65536 := by
  rw [← sinEntry_above (le_max_right i 1024)]
  exact sinEntry_mono (le_max_left i 1024)

/-- The sine of the first quarter, a quarter being 16384. -/
def quarterSine (t : ℕ) : ℕ := Octants.interpolate sinEntry 16 t

theorem quarterSine_mono : Monotone quarterSine :=
  Octants.interpolate_mono sinEntry_mono (by decide)

theorem quarterSine_zero : quarterSine 0 = 0 :=
  Octants.interpolate_mul (by decide) 0

theorem quarterSine_quarter : quarterSine 16384 = 65536 :=
  (Octants.interpolate_mul (by decide) 1024).trans (sinEntry_above le_rfl)

/-- The arithmetic between two entries does not wrap. -/
theorem toInt_sinBetween {a b : Int32} {frac : UInt32} {m n : ℕ} (ha : a.toInt = m) (hb : b.toInt = n)
    (hmn : m ≤ n) (hn : n ≤ 65536) (hfrac : frac.toNat < 16) :
    (a + (b - a) * frac.toInt32 / 16).toInt = (m + (n - m) * frac.toNat / 16 : ℕ) := by
  have hf : frac.toInt32.toInt = frac.toNat := toInt_ofUInt32 (by omega)
  have hdiff : (b - a).toInt = (n - m : ℕ) := by
    rw [toInt_sub32 (by omega) (by omega)]
    omega
  have hsmall : (n - m) * frac.toNat ≤ 65536 * 16 := Nat.mul_le_mul (by omega) hfrac.le
  have hprod : ((b - a) * frac.toInt32).toInt = ((n - m) * frac.toNat : ℕ) := by
    rw [toInt_mul32] <;> rw [hdiff, hf, ← Int.natCast_mul]
    · omega
    · omega
  have hquot : ((b - a) * frac.toInt32 / 16).toInt = ((n - m) * frac.toNat / 16 : ℕ) := by
    rw [Int32.toInt_div_of_ne_right _ _ (by decide), hprod]
    rfl
  rw [toInt_add32 (by omega) (by omega), ha, hquot, Int.natCast_add]

/-- Both lookups hit the table. -/
theorem sinQ1_spec {pos : UInt32} (h : pos.toNat ≤ 16384) :
    ∃ v, sinQ1 pos = some v ∧ v.toInt = quarterSine pos.toNat := by
  have hnum : (16384 : UInt32).toNat = 16384 := rfl
  have hidx : (pos >>> 4).toNat = pos.toNat / 16 := by
    have hshift : (4 : UInt32).toNat % 32 = 4 := rfl
    rw [UInt32.toNat_shiftRight, hshift, Nat.shiftRight_eq_div_pow]
  have hfrac : (pos &&& 0xF).toNat = pos.toNat % 16 := by
    rw [UInt32.toNat_and]
    exact Nat.and_two_pow_sub_one_eq_mod _ 4
  unfold sinQ1
  by_cases hlast : (16384 : UInt32) ≤ pos
  · have hend : pos.toNat = 16384 := by
      rw [UInt32.le_iff_toNat_le] at hlast
      omega
    rw [if_pos hlast, hend, quarterSine_quarter]
    exact ⟨_, rfl, rfl⟩
  · rw [if_neg hlast]
    rw [UInt32.le_iff_toNat_le] at hlast
    have hnext : ((pos >>> 4) + (1 : UInt32)).toNat = pos.toNat / 16 + 1 := by
      have hunit : (1 : UInt32).toNat = 1 := rfl
      rw [UInt32.toNat_add, hidx, hunit]
      omega
    obtain ⟨a, ha, hentry⟩ := @getElem?_sinLut (pos.toNat / 16) (by omega)
    obtain ⟨b, hb, hentry'⟩ := @getElem?_sinLut (pos.toNat / 16 + 1) (by omega)
    simp only [hidx, hnext, ha, hb, Option.bind_eq_bind, Option.bind_some, Option.pure_def]
    refine ⟨_, rfl, ?_⟩
    rw [toInt_sinBetween hentry hentry' (sinEntry_mono (Nat.le_succ _)) (sinEntry_le _) (by omega), hfrac]
    rfl

/-! ## The full turn -/

def turnSine (a : ℕ) : Int := QuarterWave.wave quarterSine 16384 a

theorem abs_turnSine_le (a : ℕ) : |turnSine a| ≤ 65536 := by
  have h := QuarterWave.abs_wave_le (by decide : 0 < 16384) quarterSine_mono a
  rwa [quarterSine_quarter] at h

theorem fx16Sin_spec (angle : UInt16) :
    ∃ v, fx16Sin angle = some v ∧ v.toInt = turnSine angle.toNat := by
  have hlt := angle.toNat_lt
  have hquad : (angle.toUInt32 >>> 14).toNat = angle.toNat / 16384 := by
    have hshift : (14 : UInt32).toNat % 32 = 14 := rfl
    rw [UInt32.toNat_shiftRight, hshift, Nat.shiftRight_eq_div_pow, UInt16.toNat_toUInt32]
  have hpos : (angle.toUInt32 &&& 0x3FFF).toNat = angle.toNat % 16384 := by
    rw [UInt32.toNat_and, UInt16.toNat_toUInt32]
    exact Nat.and_two_pow_sub_one_eq_mod _ 14
  have hmirror : (16384 - (angle.toUInt32 &&& 0x3FFF)).toNat = 16384 - angle.toNat % 16384 := by
    have hnum : (16384 : UInt32).toNat = 16384 := rfl
    rw [UInt32.toNat_sub_of_le _ _ (by rw [UInt32.le_iff_toNat_le]; omega), hpos, hnum]
  have hodd : (angle.toUInt32 >>> 14) &&& 1 = 0 ↔ angle.toNat / 16384 % 2 = 0 := by
    rw [← UInt32.toNat_inj, UInt32.toNat_and, hquad, UInt32.toNat_zero]
    exact (Nat.and_two_pow_sub_one_eq_mod _ 1).congr_left
  have hback : (2 : UInt32) ≤ angle.toUInt32 >>> 14 ↔ ¬ angle.toNat / 16384 % 4 < 2 := by
    have hnum : (2 : UInt32).toNat = 2 := rfl
    rw [UInt32.le_iff_toNat_le, hquad, hnum]
    omega
  have hquarter : ∃ v, (if (angle.toUInt32 >>> 14) &&& 1 = 0 then sinQ1 (angle.toUInt32 &&& 0x3FFF)
      else sinQ1 (16384 - (angle.toUInt32 &&& 0x3FFF))) = some v ∧
      v.toInt = (if angle.toNat / 16384 % 2 = 0 then (quarterSine (angle.toNat % 16384) : ℤ)
        else quarterSine (16384 - angle.toNat % 16384)) := by
    by_cases heven : angle.toNat / 16384 % 2 = 0
    · rw [if_pos (hodd.mpr heven), if_pos heven, ← hpos]
      exact sinQ1_spec (by omega)
    · rw [if_neg (mt hodd.mp heven), if_neg heven, ← hmirror]
      exact sinQ1_spec (by omega)
  obtain ⟨v, hv, hval⟩ := hquarter
  have hrange := abs_turnSine_le angle.toNat
  rw [fx16Sin]
  simp only [hv, Option.bind_eq_bind, Option.bind_some, Option.pure_def]
  refine ⟨_, rfl, ?_⟩
  rw [turnSine, QuarterWave.wave] at hrange ⊢
  rw [← hval] at hrange ⊢
  by_cases hfront : angle.toNat / 16384 % 4 < 2
  · rw [if_neg (mt hback.mp (not_not.mpr hfront)), if_pos hfront]
  · simp only [if_neg hfront, abs_neg] at hrange
    rw [if_pos (hback.mpr hfront), if_neg hfront, Int32.toInt_neg]
    rw [abs_le] at hrange
    exact bmod_of_range (by omega) (by omega)

theorem fx16Cos_spec (angle : UInt16) :
    ∃ v, fx16Cos angle = some v ∧ v.toInt = turnSine (angle.toNat + 16384) := by
  obtain ⟨v, hv, hval⟩ := fx16Sin_spec (angle.toUInt32 + bradQuarter.toUInt32).toUInt16
  refine ⟨v, hv, ?_⟩
  have hlt := angle.toNat_lt
  have hquarter : bradQuarter.toUInt32.toNat = 16384 := rfl
  have hsum : (angle.toUInt32 + bradQuarter.toUInt32).toUInt16.toNat = (angle.toNat + 16384) % 65536 := by
    rw [UInt32.toNat_toUInt16, UInt32.toNat_add, UInt16.toNat_toUInt32, hquarter]
    omega
  rw [hval, hsum]
  exact QuarterWave.wave_mod (by decide : 0 < 16384) _

/-! ## Symmetry and order -/

theorem fx16Sin_eq {angle : UInt16} {v : Int32} (h : v.toInt = turnSine angle.toNat) :
    fx16Sin angle = some v := by
  obtain ⟨w, hw, hval⟩ := fx16Sin_spec angle
  rw [hw, Int32.toInt_inj.mp (hval.trans h.symm)]

theorem fx16Cos_eq {angle : UInt16} {v : Int32} (h : v.toInt = turnSine (angle.toNat + 16384)) :
    fx16Cos angle = some v := by
  obtain ⟨w, hw, hval⟩ := fx16Cos_spec angle
  rw [hw, Int32.toInt_inj.mp (hval.trans h.symm)]

theorem toInt_neg_turnSine {v : Int32} {a : ℕ} (h : v.toInt = turnSine a) : (-v).toInt = -turnSine a := by
  have hrange := abs_le.mp (abs_turnSine_le a)
  rw [Int32.toInt_neg, h]
  exact bmod_of_range (by omega) (by omega)

theorem turnSine_of_add_zero {a b : ℕ} (h : (a + b) % 65536 = 0) : turnSine a = -turnSine b :=
  QuarterWave.wave_of_add_modEq_zero (by decide) quarterSine_zero h

theorem turnSine_of_add_half {a b : ℕ} (h : (a + b) % 65536 = 32768) : turnSine a = turnSine b :=
  QuarterWave.wave_of_add_modEq_half (by decide) quarterSine_zero h

theorem turnSine_of_opposite {a b : ℕ} (h : b % 65536 = (a + 32768) % 65536) :
    turnSine b = -turnSine a :=
  (QuarterWave.wave_congr (Q := 16384) (by decide) h).trans (QuarterWave.wave_add_half (by decide) a)

theorem within_one {v : Int32} {a : ℕ} (h : v.toInt = turnSine a) : -fx16One ≤ v ∧ v ≤ fx16One := by
  have hrange := abs_le.mp (abs_turnSine_le a)
  rw [← h] at hrange
  exact ⟨Int32.le_iff_toInt_le.mpr hrange.1, Int32.le_iff_toInt_le.mpr hrange.2⟩

theorem turnSine_falls {a b : ℕ} (ha : 16384 ≤ a) (hab : a ≤ b) (hb : b ≤ 49152) :
    turnSine b ≤ turnSine a :=
  QuarterWave.wave_anti (by decide) quarterSine_zero quarterSine_mono ha hab hb

/-- `cb_fx16_sin` and `cb_fx16_cos` always hit the table, stay within one, and have the symmetries of
the sine and the cosine exactly: the half turn, both axes and the diagonal. The cosine falls over the
first half of the turn, and the sine rises from minus a quarter to a quarter. -/
theorem sine_cosine_symmetric :
    (∀ angle : UInt16, ∃ s c, fx16Sin angle = some s ∧ fx16Cos angle = some c ∧
      (-fx16One ≤ s ∧ s ≤ fx16One) ∧ (-fx16One ≤ c ∧ c ≤ fx16One) ∧
      (fx16Sin (-angle) = some (-s) ∧ fx16Cos (-angle) = some c) ∧
      (fx16Sin (bradHalf - angle) = some s ∧ fx16Cos (bradHalf - angle) = some (-c)) ∧
      (fx16Sin (angle + bradHalf) = some (-s) ∧ fx16Cos (angle + bradHalf) = some (-c)) ∧
      (fx16Sin (bradQuarter - angle) = some c ∧ fx16Cos (bradQuarter - angle) = some s)) ∧
    (∀ a b : UInt16, a ≤ b → b ≤ bradHalf →
      ∃ c d, fx16Cos a = some c ∧ fx16Cos b = some d ∧ d ≤ c) ∧
    ∀ a b : UInt16, a + bradQuarter ≤ b + bradQuarter → b + bradQuarter ≤ bradHalf →
      ∃ s t, fx16Sin a = some s ∧ fx16Sin b = some t ∧ s ≤ t := by
  have hhalf : bradHalf.toNat = 32768 := rfl
  have hquarter : bradQuarter.toNat = 16384 := rfl
  refine ⟨fun angle => ?_, fun a b hab hb => ?_, fun a b hab hb => ?_⟩
  · obtain ⟨s, hs, hsval⟩ := fx16Sin_spec angle
    obtain ⟨c, hc, hcval⟩ := fx16Cos_spec angle
    have hsneg := toInt_neg_turnSine hsval
    have hcneg := toInt_neg_turnSine hcval
    have hlt := angle.toNat_lt
    have hnegated : (-angle).toNat = (65536 - angle.toNat) % 65536 := UInt16.toNat_neg _
    have hback : (bradHalf - angle).toNat = (65536 - angle.toNat + 32768) % 65536 := UInt16.toNat_sub _ _
    have hswap : (bradQuarter - angle).toNat = (65536 - angle.toNat + 16384) % 65536 := UInt16.toNat_sub _ _
    have hopposite : (angle + bradHalf).toNat = (angle.toNat + 32768) % 65536 := UInt16.toNat_add _ _
    refine ⟨s, c, hs, hc, within_one hsval, within_one hcval, ⟨?_, ?_⟩, ⟨?_, ?_⟩, ⟨?_, ?_⟩, ?_, ?_⟩
    · exact fx16Sin_eq (hsneg.trans (turnSine_of_add_zero (by omega)).symm)
    · exact fx16Cos_eq (hcval.trans (turnSine_of_add_half (by omega)))
    · exact fx16Sin_eq (hsval.trans (turnSine_of_add_half (by omega)))
    · exact fx16Cos_eq (hcneg.trans (turnSine_of_add_zero (by omega)).symm)
    · exact fx16Sin_eq (hsneg.trans (turnSine_of_opposite (by omega)).symm)
    · exact fx16Cos_eq (hcneg.trans (turnSine_of_opposite (by omega)).symm)
    · exact fx16Sin_eq (hcval.trans (turnSine_of_add_half (by omega)))
    · exact fx16Cos_eq (hsval.trans (turnSine_of_add_half (by omega)))
  · obtain ⟨c, hc, hcval⟩ := fx16Cos_spec a
    obtain ⟨d, hd, hdval⟩ := fx16Cos_spec b
    rw [UInt16.le_iff_toNat_le] at hab hb
    refine ⟨c, d, hc, hd, Int32.le_iff_toInt_le.mpr ?_⟩
    rw [hcval, hdval]
    exact turnSine_falls (by omega) (by omega) (by omega)
  · obtain ⟨s, hs, hsval⟩ := fx16Sin_spec a
    obtain ⟨t, ht, htval⟩ := fx16Sin_spec b
    rw [UInt16.le_iff_toNat_le] at hab hb
    refine ⟨s, t, hs, ht, Int32.le_iff_toInt_le.mpr ?_⟩
    have hopposite (v : UInt16) : turnSine ((v + bradQuarter).toNat + 16384) = -turnSine v.toNat := by
      refine turnSine_of_opposite ?_
      rw [UInt16.toNat_add, hquarter]
      omega
    have hfalls := @turnSine_falls ((a + bradQuarter).toNat + 16384) ((b + bradQuarter).toNat + 16384)
      (by omega) (by omega) (by omega)
    rw [hopposite, hopposite] at hfalls
    rw [hsval, htval]
    exact Int.neg_le_neg_iff.mp hfalls

end CBase.Fixed
