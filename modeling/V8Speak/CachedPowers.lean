import V8Speak.DiyFp

/-!
# Cached powers of ten

The table of `base/numbers/cached-powers.cc`: every eighth power of ten from `10 ^ (-348)` to
`10 ^ 340`, each as a significand of 64 bits and an exponent, and the powers up to `10 ^ 7`
of `AdjustmentPowerOfTen` that lie between two of them.

A significand of the table is off by at most one half. It is a fact about 87 rows that is
checked row by row, on integers (`CachedPower.accurate`); the statement about powers of ten
with an exponent of either sign is derived from it (`getCachedPowerForDecimalExponent_spec`).
-/

open Int

/-- A row of the table. -/
structure CachedPower where
  significand : ℕ
  binaryExponent : ℤ
  decimalExponent : ℤ
  deriving DecidableEq, Repr

namespace PowersOfTenCache

def kCachedPowers : List CachedPower := [
    ⟨0xFA8FD5A0081C0288, -1220, -348⟩, ⟨0xBAAEE17FA23EBF76, -1193, -340⟩,
    ⟨0x8B16FB203055AC76, -1166, -332⟩, ⟨0xCF42894A5DCE35EA, -1140, -324⟩,
    ⟨0x9A6BB0AA55653B2D, -1113, -316⟩, ⟨0xE61ACF033D1A45DF, -1087, -308⟩,
    ⟨0xAB70FE17C79AC6CA, -1060, -300⟩, ⟨0xFF77B1FCBEBCDC4F, -1034, -292⟩,
    ⟨0xBE5691EF416BD60C, -1007, -284⟩, ⟨0x8DD01FAD907FFC3C, -980, -276⟩,
    ⟨0xD3515C2831559A83, -954, -268⟩, ⟨0x9D71AC8FADA6C9B5, -927, -260⟩,
    ⟨0xEA9C227723EE8BCB, -901, -252⟩, ⟨0xAECC49914078536D, -874, -244⟩,
    ⟨0x823C12795DB6CE57, -847, -236⟩, ⟨0xC21094364DFB5637, -821, -228⟩,
    ⟨0x9096EA6F3848984F, -794, -220⟩, ⟨0xD77485CB25823AC7, -768, -212⟩,
    ⟨0xA086CFCD97BF97F4, -741, -204⟩, ⟨0xEF340A98172AACE5, -715, -196⟩,
    ⟨0xB23867FB2A35B28E, -688, -188⟩, ⟨0x84C8D4DFD2C63F3B, -661, -180⟩,
    ⟨0xC5DD44271AD3CDBA, -635, -172⟩, ⟨0x936B9FCEBB25C996, -608, -164⟩,
    ⟨0xDBAC6C247D62A584, -582, -156⟩, ⟨0xA3AB66580D5FDAF6, -555, -148⟩,
    ⟨0xF3E2F893DEC3F126, -529, -140⟩, ⟨0xB5B5ADA8AAFF80B8, -502, -132⟩,
    ⟨0x87625F056C7C4A8B, -475, -124⟩, ⟨0xC9BCFF6034C13053, -449, -116⟩,
    ⟨0x964E858C91BA2655, -422, -108⟩, ⟨0xDFF9772470297EBD, -396, -100⟩,
    ⟨0xA6DFBD9FB8E5B88F, -369, -92⟩, ⟨0xF8A95FCF88747D94, -343, -84⟩,
    ⟨0xB94470938FA89BCF, -316, -76⟩, ⟨0x8A08F0F8BF0F156B, -289, -68⟩,
    ⟨0xCDB02555653131B6, -263, -60⟩, ⟨0x993FE2C6D07B7FAC, -236, -52⟩,
    ⟨0xE45C10C42A2B3B06, -210, -44⟩, ⟨0xAA242499697392D3, -183, -36⟩,
    ⟨0xFD87B5F28300CA0E, -157, -28⟩, ⟨0xBCE5086492111AEB, -130, -20⟩,
    ⟨0x8CBCCC096F5088CC, -103, -12⟩, ⟨0xD1B71758E219652C, -77, -4⟩,
    ⟨0x9C40000000000000, -50, 4⟩, ⟨0xE8D4A51000000000, -24, 12⟩,
    ⟨0xAD78EBC5AC620000, 3, 20⟩, ⟨0x813F3978F8940984, 30, 28⟩,
    ⟨0xC097CE7BC90715B3, 56, 36⟩, ⟨0x8F7E32CE7BEA5C70, 83, 44⟩,
    ⟨0xD5D238A4ABE98068, 109, 52⟩, ⟨0x9F4F2726179A2245, 136, 60⟩,
    ⟨0xED63A231D4C4FB27, 162, 68⟩, ⟨0xB0DE65388CC8ADA8, 189, 76⟩,
    ⟨0x83C7088E1AAB65DB, 216, 84⟩, ⟨0xC45D1DF942711D9A, 242, 92⟩,
    ⟨0x924D692CA61BE758, 269, 100⟩, ⟨0xDA01EE641A708DEA, 295, 108⟩,
    ⟨0xA26DA3999AEF774A, 322, 116⟩, ⟨0xF209787BB47D6B85, 348, 124⟩,
    ⟨0xB454E4A179DD1877, 375, 132⟩, ⟨0x865B86925B9BC5C2, 402, 140⟩,
    ⟨0xC83553C5C8965D3D, 428, 148⟩, ⟨0x952AB45CFA97A0B3, 455, 156⟩,
    ⟨0xDE469FBD99A05FE3, 481, 164⟩, ⟨0xA59BC234DB398C25, 508, 172⟩,
    ⟨0xF6C69A72A3989F5C, 534, 180⟩, ⟨0xB7DCBF5354E9BECE, 561, 188⟩,
    ⟨0x88FCF317F22241E2, 588, 196⟩, ⟨0xCC20CE9BD35C78A5, 614, 204⟩,
    ⟨0x98165AF37B2153DF, 641, 212⟩, ⟨0xE2A0B5DC971F303A, 667, 220⟩,
    ⟨0xA8D9D1535CE3B396, 694, 228⟩, ⟨0xFB9B7CD9A4A7443C, 720, 236⟩,
    ⟨0xBB764C4CA7A44410, 747, 244⟩, ⟨0x8BAB8EEFB6409C1A, 774, 252⟩,
    ⟨0xD01FEF10A657842C, 800, 260⟩, ⟨0x9B10A4E5E9913129, 827, 268⟩,
    ⟨0xE7109BFBA19C0C9D, 853, 276⟩, ⟨0xAC2820D9623BF429, 880, 284⟩,
    ⟨0x80444B5E7AA7CF85, 907, 292⟩, ⟨0xBF21E44003ACDD2D, 933, 300⟩,
    ⟨0x8E679C2F5E44FF8F, 960, 308⟩, ⟨0xD433179D9C8CB841, 986, 316⟩,
    ⟨0x9E19DB92B4E31BA9, 1013, 324⟩, ⟨0xEB96BF6EBADF77D9, 1039, 332⟩,
    ⟨0xAF87023B9BF0EE6B, 1066, 340⟩]

def kCachedPowersOffset : ℤ := 348
def kDecimalExponentDistance : ℤ := 8
def kMinDecimalExponent : ℤ := -348

/-- `PowersOfTenCache::GetCachedPowerForDecimalExponent`: the power and its decimal exponent.
There is none if the table has no such row. -/
def getCachedPowerForDecimalExponent (requestedExponent : ℤ) : Option (DiyFp × ℤ) := do
  let index := (requestedExponent + kCachedPowersOffset) / kDecimalExponentDistance
  let cachedPower ← kCachedPowers[index.toNat]?
  some (⟨cachedPower.significand, cachedPower.binaryExponent⟩, cachedPower.decimalExponent)

end PowersOfTenCache

/-! ## The rows -/

namespace CachedPower

/-- The significand has 64 bits and is off by at most one half. Both sides are multiplied by
the powers with negative exponents. -/
def accurate (c : CachedPower) : Bool :=
  2 ^ 63 ≤ c.significand ∧ c.significand < 2 ^ 64 ∧
    2 * ((10 ^ c.decimalExponent.toNat * 2 ^ (-c.binaryExponent).toNat : ℕ) -
        (c.significand * 2 ^ c.binaryExponent.toNat * 10 ^ (-c.decimalExponent).toNat : ℕ) : ℤ).natAbs ≤
      2 ^ c.binaryExponent.toNat * 10 ^ (-c.decimalExponent).toNat

theorem zpow_eq_div (a : ℚ) (k : ℤ) : a ^ k = a ^ k.toNat / a ^ (-k).toNat := by
  rcases le_total 0 k with h | h
  · obtain ⟨n, rfl⟩ := eq_ofNat_of_zero_le h
    rw [show (-(n : ℤ)).toNat = 0 by omega, pow_zero, div_one, toNat_natCast, zpow_natCast]
  · obtain ⟨n, hn⟩ := eq_ofNat_of_zero_le (neg_nonneg.2 h)
    rw [show k.toNat = 0 by omega, pow_zero, hn, toNat_natCast, one_div, ← zpow_natCast, ← hn,
      zpow_neg, inv_inv]

/-- **What the check of a row means.** -/
theorem accurate_iff (c : CachedPower) : c.accurate = true ↔
    2 ^ 63 ≤ c.significand ∧ c.significand < 2 ^ 64 ∧
      |(10 : ℚ) ^ c.decimalExponent - c.significand * 2 ^ c.binaryExponent| ≤
        2 ^ c.binaryExponent / 2 := by
  have hcast (m n : ℕ) : 2 * m ≤ n ↔ (m : ℚ) * 2 ≤ n := by
    rw [mul_comm]
    exact_mod_cast Iff.rfl
  have hQ : (0 : ℚ) < 10 ^ (-c.decimalExponent).toNat := by positivity
  have hS : (0 : ℚ) < 2 ^ (-c.binaryExponent).toNat := by positivity
  have hdiff : (10 : ℚ) ^ c.decimalExponent - c.significand * 2 ^ c.binaryExponent =
      ((10 ^ c.decimalExponent.toNat * 2 ^ (-c.binaryExponent).toNat : ℕ) -
        (c.significand * 2 ^ c.binaryExponent.toNat * 10 ^ (-c.decimalExponent).toNat : ℕ) : ℤ) /
      (10 ^ (-c.decimalExponent).toNat * 2 ^ (-c.binaryExponent).toNat) := by
    rw [zpow_eq_div 10, zpow_eq_div 2]
    push_cast
    field_simp
  have hhalf : (2 : ℚ) ^ c.binaryExponent / 2 =
      ((2 ^ c.binaryExponent.toNat * 10 ^ (-c.decimalExponent).toNat : ℕ) : ℚ) / 2 /
      (10 ^ (-c.decimalExponent).toNat * 2 ^ (-c.binaryExponent).toNat) := by
    rw [zpow_eq_div 2]
    push_cast
    field_simp
  rw [accurate, decide_eq_true_iff, hdiff, hhalf, abs_div, abs_of_pos (mul_pos hQ hS),
    div_le_div_iff_of_pos_right (mul_pos hQ hS), le_div_iff₀ (by norm_num : (0 : ℚ) < 2)]
  refine and_congr_right fun _ => and_congr_right fun _ => ?_
  rw [← cast_abs, abs_eq_natAbs, cast_natCast]
  exact hcast _ _

end CachedPower

namespace PowersOfTenCache

/-- Each row is accurate, and its decimal exponent is told by its index. -/
theorem kCachedPowers_rows : kCachedPowers.length = 87 ∧
    ∀ i : Fin 87, ∃ c, kCachedPowers[i.val]? = some c ∧ c.accurate = true ∧
      c.decimalExponent = 8 * (i.val : ℤ) - 348 := by
  have hlength : kCachedPowers.length = 87 := by decide
  have hrows : (kCachedPowers.zipIdx.all fun (c, i) =>
      c.accurate && decide (c.decimalExponent = 8 * (i : ℤ) - 348)) = true := by decide +kernel
  refine ⟨hlength, fun i => ?_⟩
  have hi : i.val < kCachedPowers.length := by rw [hlength]; exact i.isLt
  have hmem := List.all_eq_true.1 hrows (kCachedPowers[i.val], i.val)
    (List.mk_mem_zipIdx_iff_getElem?.2 (List.getElem?_eq_getElem hi))
  rw [Bool.and_eq_true, decide_eq_true_iff] at hmem
  exact ⟨_, List.getElem?_eq_getElem hi, hmem⟩

/-- **The power that is found** is at most seven below the one that was asked for, and it is
accurate to half a unit in its last place. -/
theorem getCachedPowerForDecimalExponent_spec {requested : ℤ} (hlow : -348 ≤ requested)
    (hhigh : requested < 348) :
    ∃ (power : DiyFp) (found : ℤ),
      getCachedPowerForDecimalExponent requested = some (power, found) ∧
        found ≤ requested ∧ requested < found + 8 ∧ 2 ^ 63 ≤ power.f ∧ power.f < 2 ^ 64 ∧
        |(10 : ℚ) ^ found - power.f * 2 ^ power.e| ≤ 2 ^ power.e / 2 := by
  have hindex : ((requested + kCachedPowersOffset) / kDecimalExponentDistance).toNat < 87 := by
    dsimp only [kCachedPowersOffset, kDecimalExponentDistance]
    omega
  obtain ⟨c, hc, haccurate, hexp⟩ := kCachedPowers_rows.2 ⟨_, hindex⟩
  refine ⟨⟨c.significand, c.binaryExponent⟩, c.decimalExponent, ?_, ?_, ?_,
    (CachedPower.accurate_iff c).1 haccurate⟩
  · rw [getCachedPowerForDecimalExponent]
    rw [hc]
    rfl
  all_goals
    dsimp only [kCachedPowersOffset, kDecimalExponentDistance] at hexp
    omega

end PowersOfTenCache
