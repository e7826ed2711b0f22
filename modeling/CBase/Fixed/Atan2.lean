import CBase.Fixed.Arith
import CBase.Lib.Octants
import Mathlib.Data.List.Chain
import Mathlib.Data.List.GetD

/-!
# The angle of a vector

`cb_fx16_atan2` looks up the ratio of the shorter to the longer side in a table, interpolates, and
reflects the angle of the first octant to the octant of the vector. A lookup outside of the table has
no result (`none`).

* `fx16Atan2_spec`: the result is the angle of `Octants`, reflected at the axes.
* `atan2_respects_order`: the angle follows the angular order and the symmetries of the axes.
-/

namespace CBase.Fixed

open MachineInt

def atanLut : List UInt16 :=
  [0, 41, 81, 122, 163, 204, 244, 285, 326, 367, 407, 448, 489, 529, 570, 610, 651, 692, 732, 773,
   813, 854, 894, 935, 975, 1015, 1056, 1096, 1136, 1177, 1217, 1257, 1297, 1337, 1377, 1417,
   1457, 1497, 1537, 1577, 1617, 1656, 1696, 1736, 1775, 1815, 1854, 1894, 1933, 1973, 2012, 2051,
   2090, 2129, 2168, 2207, 2246, 2285, 2324, 2363, 2401, 2440, 2478, 2517, 2555, 2594, 2632, 2670,
   2708, 2746, 2784, 2822, 2860, 2897, 2935, 2973, 3010, 3047, 3085, 3122, 3159, 3196, 3233, 3270,
   3307, 3344, 3380, 3417, 3453, 3490, 3526, 3562, 3599, 3635, 3670, 3706, 3742, 3778, 3813, 3849,
   3884, 3920, 3955, 3990, 4025, 4060, 4095, 4129, 4164, 4199, 4233, 4267, 4302, 4336, 4370, 4404,
   4438, 4471, 4505, 4539, 4572, 4605, 4639, 4672, 4705, 4738, 4771, 4803, 4836, 4869, 4901, 4933,
   4966, 4998, 5030, 5062, 5094, 5125, 5157, 5188, 5220, 5251, 5282, 5313, 5344, 5375, 5406, 5437,
   5467, 5498, 5528, 5559, 5589, 5619, 5649, 5679, 5708, 5738, 5768, 5797, 5826, 5856, 5885, 5914,
   5943, 5972, 6000, 6029, 6058, 6086, 6114, 6142, 6171, 6199, 6227, 6254, 6282, 6310, 6337, 6365,
   6392, 6419, 6446, 6473, 6500, 6527, 6554, 6580, 6607, 6633, 6660, 6686, 6712, 6738, 6764, 6790,
   6815, 6841, 6867, 6892, 6917, 6943, 6968, 6993, 7018, 7043, 7068, 7092, 7117, 7141, 7166, 7190,
   7214, 7238, 7262, 7286, 7310, 7334, 7358, 7381, 7405, 7428, 7451, 7475, 7498, 7521, 7544, 7566,
   7589, 7612, 7635, 7657, 7679, 7702, 7724, 7746, 7768, 7790, 7812, 7834, 7856, 7877, 7899, 7920,
   7942, 7963, 7984, 8005, 8026, 8047, 8068, 8089, 8110, 8131, 8151, 8172, 8192]

def bradQuarter : UInt16 := 16384

def bradHalf : UInt16 := 32768

/-- The lookup of `cb_fx16_atan2` and the interpolation: `res_i` for the ratio `tu`. -/
def atanLookup (tu : UInt32) : Option Int32 := do
  let idx := tu >>> 8
  let frac := tu &&& 0xFF
  let (aVal, bVal, frac) ←
    -- the last entry has no successor
    if 256 ≤ idx then do
      let a ← atanLut[256]?
      let b ← atanLut[256]?
      pure (a.toUInt32.toInt32, b.toUInt32.toInt32, (0 : UInt32))
    else do
      let a ← atanLut[idx.toNat]?
      let b ← atanLut[(idx + 1).toNat]?
      pure (a.toUInt32.toInt32, b.toUInt32.toInt32, frac)
  let diff := bVal - aVal
  return aVal + (diff * frac.toInt32) / 256

def fx16Atan2 (y x : Int32) : Option UInt16 := do
  if x = 0 ∧ y = 0 then return 0
  if x = 0 then return if 0 < y then bradQuarter else bradHalf + bradQuarter
  if y = 0 then return if 0 < x then 0 else bradHalf
  let ax := fx16Abs x
  let ay := fx16Abs y
  let (small, large, complement) := if ax < ay then (ax, ay, true) else (ay, ax, false)
  let t := fx16Div small large
  let resI ← atanLookup t.toUInt32
  let res := resI.toUInt32
  -- from the octant to the quadrant, and from there to the full turn
  let res := if complement then bradQuarter.toUInt32 - res else res
  let res := if x < 0 then bradHalf.toUInt32 - res else res
  let res := if y < 0 then if res = 0 then 0 else 65536 - res else res
  return (res &&& 0xFFFF).toUInt16

/-! ## The table -/

/-- The entries of the table, continued by its last one. -/
def atanEntry (i : ℕ) : ℕ := (atanLut.getD i 8192).toNat

theorem length_atanLut : atanLut.length = 257 := by decide +kernel

theorem atanLut_sorted : atanLut.IsChain (· ≤ ·) := by decide +kernel

theorem getElem?_atanLut {i : ℕ} (hi : i ≤ 256) :
    ∃ a, atanLut[i]? = some a ∧ a.toNat = atanEntry i := by
  have hlt : i < atanLut.length := by
    rw [length_atanLut]
    omega
  refine ⟨atanLut[i], List.getElem?_eq_getElem hlt, ?_⟩
  rw [atanEntry, List.getD_eq_getElem _ _ hlt]

theorem atanEntry_above {i : ℕ} (hi : 256 ≤ i) : atanEntry i = 8192 := by
  rcases Nat.eq_or_lt_of_le hi with rfl | hlt
  · rfl
  · rw [atanEntry, List.getD_eq_default _ _ (by rw [length_atanLut]; omega)]
    rfl

theorem atanEntry_mono : Monotone atanEntry := by
  refine monotone_nat_of_le_succ fun i => ?_
  by_cases hi : i + 1 < atanLut.length
  · have hle := List.isChain_iff_getElem.mp atanLut_sorted i hi
    rw [UInt16.le_iff_toNat_le] at hle
    rwa [atanEntry, atanEntry, List.getD_eq_getElem _ _ (by omega), List.getD_eq_getElem _ _ hi]
  · rw [length_atanLut] at hi
    rw [atanEntry_above (by omega : 256 ≤ i), atanEntry_above (by omega : 256 ≤ i + 1)]

theorem atanEntry_le (i : ℕ) : atanEntry i ≤ 8192 := by
  rw [← atanEntry_above (le_max_right i 256)]
  exact atanEntry_mono (le_max_left i 256)

/-- The angle of the first octant for a ratio in units of `1 / 65536`. -/
def octantAngle (t : ℕ) : ℕ := Octants.interpolate atanEntry 256 t

theorem octantAngle_mono : Monotone octantAngle :=
  Octants.interpolate_mono atanEntry_mono (by decide)

theorem octantAngle_one : octantAngle 65536 = 8192 :=
  (Octants.interpolate_mul (by decide) 256).trans (atanEntry_above le_rfl)

theorem octantAngle_zero : octantAngle 0 = 0 :=
  Octants.interpolate_mul (by decide) 0

theorem toInt_entry (a : UInt16) : a.toUInt32.toInt32.toInt = a.toNat := by
  have hlt := a.toNat_lt
  rw [MachineInt.toInt_ofUInt32 (by rw [UInt16.toNat_toUInt32]; omega), UInt16.toNat_toUInt32]

/-- The arithmetic between two entries does not wrap. -/
theorem toInt_between {a b : UInt16} {frac : UInt32} (hab : a.toNat ≤ b.toNat) (hb : b.toNat ≤ 8192)
    (hfrac : frac.toNat < 256) :
    (a.toUInt32.toInt32 + (b.toUInt32.toInt32 - a.toUInt32.toInt32) * frac.toInt32 / 256).toInt =
      (a.toNat + (b.toNat - a.toNat) * frac.toNat / 256 : ℕ) := by
  have ha := toInt_entry a
  have hb' := toInt_entry b
  have hf : frac.toInt32.toInt = frac.toNat := toInt_ofUInt32 (by omega)
  have hdiff : (b.toUInt32.toInt32 - a.toUInt32.toInt32).toInt = (b.toNat - a.toNat : ℕ) := by
    rw [toInt_sub32 (by omega) (by omega)]
    omega
  have hsmall : (b.toNat - a.toNat) * frac.toNat ≤ 8192 * 256 := Nat.mul_le_mul (by omega) hfrac.le
  have hprod : ((b.toUInt32.toInt32 - a.toUInt32.toInt32) * frac.toInt32).toInt =
      ((b.toNat - a.toNat) * frac.toNat : ℕ) := by
    rw [toInt_mul32] <;> rw [hdiff, hf, ← Int.natCast_mul]
    · omega
    · omega
  have hquot : ((b.toUInt32.toInt32 - a.toUInt32.toInt32) * frac.toInt32 / 256).toInt =
      ((b.toNat - a.toNat) * frac.toNat / 256 : ℕ) := by
    rw [Int32.toInt_div_of_ne_right _ _ (by decide), hprod]
    rfl
  rw [toInt_add32 (by omega) (by omega), ha, hquot, Int.natCast_add]

theorem toNat_idx (tu : UInt32) : (tu >>> 8).toNat = tu.toNat / 256 := by
  have hshift : (8 : UInt32).toNat % 32 = 8 := rfl
  rw [UInt32.toNat_shiftRight, hshift, Nat.shiftRight_eq_div_pow]

theorem toNat_frac (tu : UInt32) : (tu &&& 0xFF).toNat = tu.toNat % 256 := by
  rw [UInt32.toNat_and]
  exact Nat.and_two_pow_sub_one_eq_mod _ 8

/-- Both lookups hit the table. -/
theorem atanLookup_spec {tu : UInt32} (h : tu.toNat ≤ 65536) :
    ∃ r, atanLookup tu = some r ∧ r.toInt = octantAngle tu.toNat := by
  have hidx := toNat_idx tu
  have hfrac := toNat_frac tu
  unfold atanLookup
  by_cases hlast : (256 : UInt32) ≤ tu >>> 8
  · obtain ⟨a, ha, hentry⟩ := @getElem?_atanLut 256 le_rfl
    have hone : tu.toNat = 65536 := by
      rw [UInt32.le_iff_toNat_le, hidx] at hlast
      have hnum : (256 : UInt32).toNat = 256 := rfl
      omega
    simp only [if_pos hlast, ha, Option.bind_eq_bind, Option.bind_some, Option.pure_def]
    refine ⟨_, rfl, ?_⟩
    rw [toInt_between le_rfl (hentry ▸ atanEntry_le 256) (by decide), hone, octantAngle_one, hentry,
      atanEntry_above le_rfl, UInt32.toNat_zero]
  · rw [UInt32.le_iff_toNat_le, hidx] at hlast
    have hnum : (256 : UInt32).toNat = 256 := rfl
    have hnext : ((tu >>> 8) + (1 : UInt32)).toNat = tu.toNat / 256 + 1 := by
      have hunit : (1 : UInt32).toNat = 1 := rfl
      rw [UInt32.toNat_add, hidx, hunit]
      omega
    obtain ⟨a, ha, hentry⟩ := @getElem?_atanLut (tu.toNat / 256) (by omega)
    obtain ⟨b, hb, hentry'⟩ := @getElem?_atanLut (tu.toNat / 256 + 1) (by omega)
    have hnot : ¬ (256 : UInt32) ≤ tu >>> 8 := by
      rw [UInt32.le_iff_toNat_le, hidx]
      exact hlast
    simp only [if_neg hnot, hidx, hnext, ha, hb, Option.bind_eq_bind, Option.bind_some, Option.pure_def]
    refine ⟨_, rfl, ?_⟩
    rw [toInt_between (by rw [hentry, hentry']; exact atanEntry_mono (Nat.le_succ _))
      (by rw [hentry']; exact atanEntry_le _) (by omega), hentry, hentry', hfrac]
    rfl

/-! ## The octant -/

/-- The angle of a vector in the first quadrant. -/
def quadrantAngle (y x : ℕ) : ℕ := Octants.angle octantAngle 65536 16384 y x

theorem quadrantAngle_le (y x : ℕ) : quadrantAngle y x ≤ 16384 :=
  Octants.angle_le octantAngle_mono (by rw [octantAngle_one])

theorem quadrantAngle_axis {n : ℕ} (hn : 0 < n) : quadrantAngle n 0 = 16384 ∧ quadrantAngle 0 n = 0 := by
  rw [quadrantAngle, quadrantAngle, Octants.angle, Octants.angle, if_pos hn, if_neg (Nat.not_lt_zero n),
    Nat.zero_mul, Nat.zero_div, octantAngle_zero]
  exact ⟨rfl, rfl⟩

theorem toInt_abs {v : Int32} (hv : v ≠ fx16Min) : (fx16Abs v).toInt = v.toInt.natAbs := by
  obtain ⟨hlo, hhi⟩ := toInt_range v
  have hne : v.toInt ≠ -2 ^ 31 := fun h => hv (Int32.toInt_inj.mp h)
  rw [toInt_fx16Abs, clamp16, clamp]
  split_ifs <;> omega

/-- The ratio of the shorter to the longer side. -/
theorem toNat_ratio {small large : Int32} {m n : ℕ} (hsmall : small.toInt = m) (hlarge : large.toInt = n)
    (hn : 0 < n) (hmn : m ≤ n) : (fx16Div small large).toUInt32.toNat = m * 65536 / n := by
  have hne : large ≠ 0 := fun h0 => by
    rw [h0, Int32.toInt_zero] at hlarge
    omega
  have hle : m * 65536 / n ≤ 65536 := Octants.ratio_le hmn
  have hratio : (fx16Div small large).toInt = ((m * 65536 / n : ℕ) : Int) := by
    have hquot : ((m : Int) * 2 ^ 16).tdiv n = ((m * 65536 / n : ℕ) : Int) := by
      rw [Int.ofNat_tdiv, Int.natCast_mul]
      rfl
    rw [toInt_fx16Div hne, hsmall, hlarge, hquot, clamp16, clamp]
    generalize m * 65536 / n = q at hle
    split_ifs <;> omega
  have hclamp := Int32.toNat_toUInt32_of_le (x := fx16Div small large)
    (Int32.le_iff_toInt_le.mpr (by rw [Int32.toInt_zero, hratio]; exact Int.natCast_nonneg _))
  rw [hclamp, Int32.toNatClampNeg, hratio, Int.toNat_natCast]

/-- The angle in the quadrant, by the lookup and the complement above the diagonal. -/
theorem octant_spec {ax ay : Int32} {m n : ℕ} (hax : ax.toInt = m) (hay : ay.toInt = n) (hm : 0 < m)
    (hn : 0 < n) :
    (ax < ay → ∃ r, atanLookup (fx16Div ax ay).toUInt32 = some r ∧
      (bradQuarter.toUInt32 - r.toUInt32).toNat = quadrantAngle n m) ∧
    (¬ ax < ay → ∃ r, atanLookup (fx16Div ay ax).toUInt32 = some r ∧
      r.toUInt32.toNat = quadrantAngle n m) := by
  have hunsigned : ∀ {r : Int32} {k : ℕ}, r.toInt = k → r.toUInt32.toNat = k := by
    intro r k hr
    rw [Int32.toNat_toUInt32_of_le (Int32.le_iff_toInt_le.mpr (by rw [Int32.toInt_zero]; omega)),
      Int32.toNatClampNeg, hr, Int.toNat_natCast]
  have hiff : ax < ay ↔ m < n := by
    rw [Int32.lt_iff_toInt_lt, hax, hay]
    omega
  constructor
  · intro habove
    have hlt := hiff.mp habove
    have hratio := toNat_ratio hax hay hn hlt.le
    have hle : m * 65536 / n ≤ 65536 := Octants.ratio_le hlt.le
    obtain ⟨r, hlookup, hr⟩ := atanLookup_spec (hratio ▸ hle)
    have hres := hunsigned hr
    rw [hratio] at hres
    have htop := octantAngle_mono hle
    rw [octantAngle_one] at htop
    have hquarter : bradQuarter.toUInt32.toNat = 16384 := rfl
    refine ⟨r, hlookup, ?_⟩
    rw [UInt32.toNat_sub_of_le _ _ (by rw [UInt32.le_iff_toNat_le]; omega), hquarter, hres, quadrantAngle,
      Octants.angle, if_pos hlt]
  · intro hbelow
    have hle : n ≤ m := not_lt.mp (mt hiff.mpr hbelow)
    have hratio := toNat_ratio hay hax hm hle
    obtain ⟨r, hlookup, hr⟩ := atanLookup_spec (hratio ▸ (Octants.ratio_le hle : n * 65536 / m ≤ 65536))
    refine ⟨r, hlookup, ?_⟩
    rw [hunsigned hr, hratio, quadrantAngle, Octants.angle, if_neg (not_lt.mpr hle)]

/-! ## The axes -/

/-- The angle `r` of the first quadrant, reflected to the quadrant of the vector. -/
def reflect (y x : Int32) (r : ℕ) : UInt16 :=
  let angle := if x < 0 then bradHalf - .ofNat r else .ofNat r
  if y < 0 then -angle else angle

/-- The last three lines of `cb_fx16_atan2`. -/
def reflected (y x : Int32) (res : UInt32) : UInt16 :=
  let res := if x < 0 then bradHalf.toUInt32 - res else res
  let res := if y < 0 then if res = 0 then 0 else 65536 - res else res
  (res &&& 0xFFFF).toUInt16

theorem toNat_low (res : UInt32) : (res &&& 0xFFFF).toUInt16.toNat = res.toNat % 65536 := by
  rw [UInt32.toNat_toUInt16, UInt32.toNat_and]
  exact (congrArg (· % 2 ^ 16) (Nat.and_two_pow_sub_one_eq_mod _ 16)).trans (Nat.mod_mod _ _)

/-- The negation modulo a full turn. -/
theorem toNat_negated {a : UInt32} {b : UInt16} (h : a.toNat = b.toNat) :
    (if a = 0 then 0 else 65536 - a : UInt32).toNat % 65536 = (-b).toNat := by
  have hlt := b.toNat_lt
  have hfull : (65536 : UInt32).toNat = 65536 := rfl
  rw [UInt16.toNat_neg]
  by_cases hzero : a = 0
  · rw [if_pos hzero]
    rw [hzero, UInt32.toNat_zero] at h
    rw [← h, UInt32.toNat_zero]
    rfl
  · rw [if_neg hzero, UInt32.toNat_sub_of_le _ _ (by rw [UInt32.le_iff_toNat_le]; omega), hfull, h]

theorem reflected_eq {res : UInt32} (y x : Int32) (hr : res.toNat ≤ 16384) :
    reflected y x res = reflect y x res.toNat := by
  have hback : (UInt16.ofNat res.toNat).toNat = res.toNat := UInt16.toNat_ofNat_of_lt' (by
    simp only [UInt16.size]
    omega)
  have hside : (if x < 0 then bradHalf.toUInt32 - res else res).toNat =
      (if x < 0 then bradHalf - .ofNat res.toNat else .ofNat res.toNat : UInt16).toNat := by
    have hnum : bradHalf.toUInt32.toNat = 32768 := rfl
    have hnum' : bradHalf.toNat = 32768 := rfl
    split_ifs
    · rw [UInt32.toNat_sub_of_le _ _ (by rw [UInt32.le_iff_toNat_le]; omega),
        UInt16.toNat_sub_of_le _ _ (by rw [UInt16.le_iff_toNat_le]; omega), hnum, hnum', hback]
    · exact hback.symm
  rw [← UInt16.toNat_inj, reflected, reflect, toNat_low]
  by_cases hy : y < 0
  · simp only [if_pos hy]
    exact toNat_negated hside
  · simp only [if_neg hy]
    rw [hside]
    exact Nat.mod_eq_of_lt (UInt16.toNat_lt _)

theorem fx16Atan2_spec {y x : Int32} (hy : y ≠ fx16Min) (hx : x ≠ fx16Min) (hne : ¬ (x = 0 ∧ y = 0)) :
    fx16Atan2 y x = some (reflect y x (quadrantAngle y.toInt.natAbs x.toInt.natAbs)) := by
  by_cases hx0 : x = 0
  · have hy0 : y ≠ 0 := fun h0 => hne ⟨hx0, h0⟩
    have hypos : 0 < y.toInt.natAbs := Int.natAbs_pos.mpr (mt toInt_eq_zero.mp hy0)
    subst hx0
    rw [fx16Atan2, if_neg (fun h => hy0 h.2), if_pos rfl, Int32.toInt_zero, Int.natAbs_zero,
      (quadrantAngle_axis hypos).1, reflect, if_neg (by decide : ¬ (0 : Int32) < 0)]
    simp only [Int32.lt_iff_toInt_lt, Int32.toInt_zero]
    rcases Int.lt_or_gt_of_ne (mt toInt_eq_zero.mp hy0) with hneg | hpos
    · rw [if_pos hneg, if_neg (by omega : ¬ 0 < y.toInt)]
      rfl
    · rw [if_neg (by omega : ¬ y.toInt < 0), if_pos hpos]
      rfl
  · by_cases hy0 : y = 0
    · subst hy0
      have hxpos : 0 < x.toInt.natAbs := Int.natAbs_pos.mpr (mt toInt_eq_zero.mp hx0)
      rw [fx16Atan2, if_neg (fun h => hx0 h.1), if_neg hx0, if_pos rfl, Int32.toInt_zero,
        Int.natAbs_zero, (quadrantAngle_axis hxpos).2, reflect, if_neg (by decide : ¬ (0 : Int32) < 0)]
      simp only [Int32.lt_iff_toInt_lt, Int32.toInt_zero]
      rcases Int.lt_or_gt_of_ne (mt toInt_eq_zero.mp hx0) with hneg | hpos
      · rw [if_pos hneg, if_neg (by omega : ¬ 0 < x.toInt)]
        rfl
      · rw [if_neg (by omega : ¬ x.toInt < 0), if_pos hpos]
        rfl
    · have hax := toInt_abs hx
      have hay := toInt_abs hy
      have hxpos : 0 < x.toInt.natAbs := Int.natAbs_pos.mpr (mt toInt_eq_zero.mp hx0)
      have hypos : 0 < y.toInt.natAbs := Int.natAbs_pos.mpr (mt toInt_eq_zero.mp hy0)
      obtain ⟨habove, hbelow⟩ := octant_spec hax hay hxpos hypos
      have hle := quadrantAngle_le y.toInt.natAbs x.toInt.natAbs
      unfold fx16Atan2
      by_cases hlt : fx16Abs x < fx16Abs y
      · obtain ⟨r, hlookup, hr⟩ := habove hlt
        simp only [hx0, hy0, if_pos hlt, hlookup, false_and, if_false, if_true, Option.bind_eq_bind,
          Option.bind_some, Option.pure_def]
        rw [← hr]
        exact congrArg some (reflected_eq y x (hr ▸ hle))
      · obtain ⟨r, hlookup, hr⟩ := hbelow hlt
        simp only [hx0, hy0, if_neg hlt, hlookup, false_and, if_false, Option.bind_eq_bind,
          Option.bind_some, Option.pure_def, Bool.false_eq_true]
        rw [← hr]
        exact congrArg some (reflected_eq y x (hr ▸ hle))

/-! ## Order and symmetry -/

/-- Neither side negative, not both zero. -/
structure FirstQuadrant (y x : Int32) : Prop where
  y_nonneg : 0 ≤ y.toInt
  x_nonneg : 0 ≤ x.toInt
  ne : ¬ (x = 0 ∧ y = 0)

theorem FirstQuadrant.pos {y x : Int32} (h : FirstQuadrant y x) :
    0 < x.toInt.natAbs ∨ 0 < y.toInt.natAbs := by
  by_contra hnone
  exact h.ne ⟨toInt_eq_zero.mp (by omega), toInt_eq_zero.mp (by omega)⟩

theorem FirstQuadrant.swap {y x : Int32} (h : FirstQuadrant y x) : FirstQuadrant x y :=
  ⟨h.x_nonneg, h.y_nonneg, fun h0 => h.ne h0.symm⟩

theorem ne_min_of_nonneg {v : Int32} (h : 0 ≤ v.toInt) : v ≠ fx16Min := by
  rintro rfl
  exact absurd h (by decide)

theorem FirstQuadrant.angle {y x : Int32} (h : FirstQuadrant y x) :
    ∃ r, fx16Atan2 y x = some r ∧ r.toNat = quadrantAngle y.toInt.natAbs x.toInt.natAbs := by
  have hle := quadrantAngle_le y.toInt.natAbs x.toInt.natAbs
  refine ⟨_, fx16Atan2_spec (ne_min_of_nonneg h.y_nonneg) (ne_min_of_nonneg h.x_nonneg) h.ne, ?_⟩
  have hy : ¬ y < 0 := by
    rw [Int32.lt_iff_toInt_lt, Int32.toInt_zero]
    exact not_lt.mpr h.y_nonneg
  have hx : ¬ x < 0 := by
    rw [Int32.lt_iff_toInt_lt, Int32.toInt_zero]
    exact not_lt.mpr h.x_nonneg
  simp only [reflect, if_neg hy, if_neg hx]
  exact UInt16.toNat_ofNat_of_lt' (by simp only [UInt16.size]; omega)

theorem FirstQuadrant.mono {y₁ x₁ y₂ x₂ : Int32} (h₁ : FirstQuadrant y₁ x₁) (h₂ : FirstQuadrant y₂ x₂)
    (h : y₁.toInt * x₂.toInt ≤ y₂.toInt * x₁.toInt) :
    quadrantAngle y₁.toInt.natAbs x₁.toInt.natAbs ≤ quadrantAngle y₂.toInt.natAbs x₂.toInt.natAbs := by
  refine Octants.angle_mono octantAngle_mono (by rw [octantAngle_one]) h₁.pos h₂.pos ?_
  have habs : ∀ {v : Int32}, 0 ≤ v.toInt → (v.toInt.natAbs : Int) = v.toInt := Int.natAbs_of_nonneg
  rw [← Int.ofNat_le, Int.natCast_mul, Int.natCast_mul]
  rwa [habs h₁.y_nonneg, habs h₁.x_nonneg, habs h₂.y_nonneg, habs h₂.x_nonneg]

theorem neg_ne_min {v : Int32} (hv : v ≠ fx16Min) : -v ≠ fx16Min ∧ (-v).toInt = -v.toInt := by
  obtain ⟨hlo, hhi⟩ := toInt_range v
  have hne : v.toInt ≠ -2 ^ 31 := fun h => hv (Int32.toInt_inj.mp h)
  have hneg : (-v).toInt = -v.toInt := by
    rw [Int32.toInt_neg]
    exact bmod_of_range (by omega) (by omega)
  refine ⟨fun hmin => ?_, hneg⟩
  have hval : fx16Min.toInt = -2 ^ 31 := rfl
  rw [hmin, hval] at hneg
  omega

/-- Reflection at the horizontal axis. -/
theorem reflect_neg_y {y x : Int32} {r : ℕ} (hy : y.toInt ≠ 0) (hneg : (-y).toInt = -y.toInt) :
    reflect (-y) x r = -reflect y x r := by
  simp only [reflect, Int32.lt_iff_toInt_lt, Int32.toInt_zero, hneg]
  rcases Int.lt_or_gt_of_ne hy with hlt | hgt
  · rw [if_neg (by omega : ¬ -y.toInt < 0), if_pos hlt, UInt16.neg_neg]
  · rw [if_pos (by omega : -y.toInt < 0), if_neg (by omega : ¬ y.toInt < 0)]

/-- On the horizontal axis the reflection changes nothing. -/
theorem reflect_axis_y (x : Int32) : reflect (-0) x 0 = -reflect 0 x 0 := by
  unfold reflect
  split_ifs <;> decide

theorem half_sub_half_sub (a : UInt16) : bradHalf - (bradHalf - a) = a := by
  have hlt := a.toNat_lt
  have hhalf : bradHalf.toNat = 32768 := rfl
  rw [← UInt16.toNat_inj, UInt16.toNat_sub, UInt16.toNat_sub, hhalf]
  omega

theorem neg_half_sub (a : UInt16) : -(bradHalf - a) = bradHalf - -a := by
  have hlt := a.toNat_lt
  have hhalf : bradHalf.toNat = 32768 := rfl
  have hsize : UInt16.size = 65536 := rfl
  rw [← UInt16.toNat_inj, UInt16.toNat_sub, UInt16.toNat_neg, UInt16.toNat_neg, UInt16.toNat_sub, hhalf,
    hsize]
  omega

/-- On the vertical axis the reflection changes nothing. -/
theorem reflect_axis_x (y : Int32) : reflect y (-0) 16384 = bradHalf - reflect y 0 16384 := by
  unfold reflect
  split_ifs <;> decide

/-- Reflection at the vertical axis. -/
theorem reflect_neg_x {y x : Int32} {r : ℕ} (hx : x.toInt ≠ 0) (hneg : (-x).toInt = -x.toInt) :
    reflect y (-x) r = bradHalf - reflect y x r := by
  simp only [reflect, Int32.lt_iff_toInt_lt, Int32.toInt_zero, hneg]
  rcases Int.lt_or_gt_of_ne hx with hlt | hgt
  · rw [if_neg (by omega : ¬ -x.toInt < 0), if_pos hlt]
    split_ifs
    · rw [← neg_half_sub, half_sub_half_sub]
    · rw [half_sub_half_sub]
  · rw [if_pos (by omega : -x.toInt < 0), if_neg (by omega : ¬ x.toInt < 0)]
    split_ifs
    · exact neg_half_sub _
    · rfl

/-- `cb_fx16_atan2` respects the angular order in the first quadrant and is symmetric at the diagonal
and at both axes. Every lookup hits the table. -/
theorem atan2_respects_order :
    (∀ y x : Int32, FirstQuadrant y x → ∃ r r', fx16Atan2 y x = some r ∧ fx16Atan2 x y = some r' ∧
      r.toNat ≤ 16384 ∧ r'.toNat = 16384 - r.toNat) ∧
    (∀ y₁ x₁ y₂ x₂ : Int32, FirstQuadrant y₁ x₁ → FirstQuadrant y₂ x₂ →
      ∃ r₁ r₂, fx16Atan2 y₁ x₁ = some r₁ ∧ fx16Atan2 y₂ x₂ = some r₂ ∧
        (y₁.toInt * x₂.toInt ≤ y₂.toInt * x₁.toInt → r₁ ≤ r₂) ∧
        (y₁.toInt * x₂.toInt = y₂.toInt * x₁.toInt → r₁ = r₂)) ∧
    ∀ y x : Int32, y ≠ fx16Min → x ≠ fx16Min → ¬ (x = 0 ∧ y = 0) →
      ∃ r, fx16Atan2 y x = some r ∧ fx16Atan2 (-y) x = some (-r) ∧
        fx16Atan2 y (-x) = some (bradHalf - r) := by
  refine ⟨?diagonal, ?order, ?axes⟩
  case diagonal =>
    intro y x h
    obtain ⟨r, hr, hangle⟩ := h.angle
    obtain ⟨r', hr', hangle'⟩ := h.swap.angle
    have hle := quadrantAngle_le y.toInt.natAbs x.toInt.natAbs
    refine ⟨r, r', hr, hr', by rwa [hangle], ?_⟩
    rw [hangle', hangle]
    exact Octants.angle_swap octantAngle_mono (by rw [octantAngle_one]) h.pos
  case order =>
    intro y₁ x₁ y₂ x₂ h₁ h₂
    obtain ⟨r₁, hr₁, hangle₁⟩ := h₁.angle
    obtain ⟨r₂, hr₂, hangle₂⟩ := h₂.angle
    refine ⟨r₁, r₂, hr₁, hr₂, fun hle => ?_, fun heq => ?_⟩
    · rw [UInt16.le_iff_toNat_le, hangle₁, hangle₂]
      exact h₁.mono h₂ hle
    · rw [← UInt16.toNat_inj, hangle₁, hangle₂]
      exact Nat.le_antisymm (h₁.mono h₂ heq.le) (h₂.mono h₁ heq.ge)
  case axes =>
    intro y x hy hx hne
    obtain ⟨hy', hnegy⟩ := neg_ne_min hy
    obtain ⟨hx', hnegx⟩ := neg_ne_min hx
    have hy0 : -y = 0 ↔ y = 0 := by
      rw [← toInt_eq_zero, ← toInt_eq_zero, hnegy]
      omega
    have hx0 : -x = 0 ↔ x = 0 := by
      rw [← toInt_eq_zero, ← toInt_eq_zero, hnegx]
      omega
    refine ⟨_, fx16Atan2_spec hy hx hne, ?_, ?_⟩
    · rw [fx16Atan2_spec hy' hx (by rwa [hy0]), hnegy, Int.natAbs_neg]
      refine congrArg some ?_
      by_cases hzero : y = 0
      · have hxpos : 0 < x.toInt.natAbs :=
          Int.natAbs_pos.mpr (mt toInt_eq_zero.mp fun h0 => hne ⟨h0, hzero⟩)
        subst hzero
        rw [Int32.toInt_zero, Int.natAbs_zero, (quadrantAngle_axis hxpos).2]
        exact reflect_axis_y x
      · exact reflect_neg_y (mt toInt_eq_zero.mp hzero) hnegy
    · rw [fx16Atan2_spec hy hx' (by rwa [hx0]), hnegx, Int.natAbs_neg]
      refine congrArg some ?_
      by_cases hzero : x = 0
      · have hypos : 0 < y.toInt.natAbs :=
          Int.natAbs_pos.mpr (mt toInt_eq_zero.mp fun h0 => hne ⟨hzero, h0⟩)
        subst hzero
        rw [Int32.toInt_zero, Int.natAbs_zero, (quadrantAngle_axis hypos).1]
        exact reflect_axis_x y
      · exact reflect_neg_x (mt toInt_eq_zero.mp hzero) hnegx

/-- A vector and its double. -/
theorem atan2_respects_order_double : fx16Atan2 3 5 = fx16Atan2 6 10 := by
  obtain ⟨r₁, r₂, h₁, h₂, -, heq⟩ := atan2_respects_order.2.1 3 5 6 10
    ⟨by decide, by decide, by decide⟩ ⟨by decide, by decide, by decide⟩
  rw [h₁, h₂, heq (by decide)]

end CBase.Fixed
