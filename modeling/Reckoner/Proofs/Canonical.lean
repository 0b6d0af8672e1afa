import Mathlib
import Reckoner.Double.Basic

/-! Doubles in canonical form. A nonzero finite double is `± m · 2 ^ e` with `m` below `2 ^ 53` and
`e` as small as that and the format allow. There is one such form for a value, and any form of a
float that the format can hold is kept by the bits. -/
namespace Reckoner.Double

open Float.Model Float.Model.UnpackedFloat

theorem scaled_eq (base : ℕ) (significand exponent : ℤ) :
    scaled base significand exponent = significand * (base : ℚ) ^ exponent := by
  cases exponent with
  | ofNat n => simp [scaled, Rat.mkRat_eq_div]
  | negSucc n => simp [scaled, Rat.mkRat_eq_div, zpow_negSucc, div_eq_mul_inv]

/-- The form `m · 2 ^ e` of the magnitude of a finite double, up to the greatest exponent. -/
structure Canonical (m : ℕ) (e : ℤ) : Prop where
  pos : 0 < m
  lt : m < 2 ^ 53
  low : -1074 ≤ e
  full : 2 ^ 52 ≤ m ∨ e = -1074

def Fits : UnpackedFloat → Prop
  | .finite _ m e _ => Canonical m e ∧ e ≤ 971
  | _ => True

theorem toNat_one_append (m : BitVec 52) : (1#1 ++ m).toNat = 2 ^ 52 + m.toNat := by
  rw [BitVec.toNat_append, ← Nat.shiftLeft_add_eq_or_of_lt m.isLt]
  rfl

theorem fits_unpack (x : Float) : Fits x.toModel.unpack := by
  unfold Float.Model.unpack
  fun_cases UnpackedFloat.unpack with
  | case1 => trivial
  | case2 => trivial
  | case3 => trivial
  | case4 mantissa exponent e sign s notAll zero nonzero =>
    have below : mantissa.toNat < 2 ^ 52 := mantissa.isLt
    have positive : mantissa.toNat ≠ 0 := fun h => nonzero (BitVec.eq_of_toNat_eq h)
    have lowest : e + 1 = -1074 := by simp [e, zero, Format.exponentBias]
    exact ⟨⟨by omega, by omega, by omega, .inr lowest⟩, by omega⟩
  | case5 mantissa exponent e sign s notAll nonzero =>
    have below : mantissa.toNat < 2 ^ 52 := mantissa.isLt
    have bounded : exponent.toNat < 2 ^ 11 := exponent.isLt
    have positive : exponent.toNat ≠ 0 := fun h => nonzero (BitVec.eq_of_toNat_eq h)
    have finite : exponent.toNat ≠ 2047 := fun h => notAll (BitVec.eq_of_toNat_eq h)
    have biased : e = exponent.toNat - 1075 := rfl
    have whole : (1#1 ++ mantissa).toNat = 2 ^ 52 + mantissa.toNat := toNat_one_append mantissa
    simp only [Fits, whole]
    exact ⟨⟨by omega, by omega, by omega, .inl (by omega)⟩, by omega⟩

theorem toNat_one_append_ofNat {m : ℕ} (lt : m < 2 ^ 53) (full : 2 ^ 52 ≤ m) :
    (1#1 ++ BitVec.ofNat 52 m).toNat = m := by
  rw [toNat_one_append, BitVec.toNat_ofNat]
  omega

theorem unpack_pack_normal (s : Sign) {m : ℕ} {e : ℤ} (pos : 0 < m) (full : 2 ^ 52 ≤ m)
    (lt : m < 2 ^ 53) (low : -1074 ≤ e) (le : e ≤ 971) :
    (Float.Model.pack (.finite s m e pos)).unpack = .finite s m e pos := by
  obtain ⟨biased, unbiased⟩ : ∃ b : ℕ, e = b - 1075 := ⟨(e + 1075).toNat, by omega⟩
  have shifted : (e + Format.binary64.exponentBias + (52 : ℕ)).toNat = biased := by
    change (e + 1023 + 52).toNat = biased
    omega
  have finite : ¬2 ^ 11 ≤ biased + 1 := by omega
  have top : m.log2 + 1 = Format.binary64.mantissaBits := by
    rw [(Nat.log2_eq_iff pos.ne').2 ⟨full, lt⟩]
    rfl
  have exponent : (BitVec.ofNat 11 biased).toNat = biased := Nat.mod_eq_of_lt (by omega)
  have notAll : BitVec.ofNat 11 biased ≠ -1#11 := by
    intro h
    rw [h] at exponent
    exact absurd exponent (by change 2047 ≠ biased; omega)
  have nonzero : BitVec.ofNat 11 biased ≠ 0#11 := by
    intro h
    rw [h] at exponent
    exact absurd exponent (by change 0 ≠ biased; omega)
  unfold Float.Model.unpack Float.Model.pack UnpackedFloat.pack
  simp only [shifted, if_neg finite, if_pos top, UnpackedFloat.unpack,
    unpackExponent_packComponents, unpackMantissa_packComponents, unpackSign_packComponents,
    Sign.ofBitVec_toBitVec, notAll, nonzero, if_false, exponent, toNat_one_append_ofNat lt full]
  congr 1
  exact unbiased.symm

theorem unpack_pack_subnormal (s : Sign) {m : ℕ} (pos : 0 < m) (lt : m < 2 ^ 52) :
    (Float.Model.pack (.finite s m (-1074) pos)).unpack = .finite s m (-1074) pos := by
  have finite : ¬2 ^ 11 ≤ (-1074 + Format.binary64.exponentBias + (52 : ℕ) : ℤ).toNat + 1 := by
    decide
  have notTop : m.log2 + 1 ≠ Format.binary64.mantissaBits := by
    have := (Nat.log2_lt pos.ne').2 lt
    change m.log2 + 1 ≠ 53
    omega
  have notAll : (0#11 : BitVec 11) ≠ -1#11 := by decide
  have mantissa : (BitVec.ofNat 52 m).toNat = m := Nat.mod_eq_of_lt lt
  have nonzero : BitVec.ofNat 52 m ≠ 0#52 := by
    intro h
    rw [h] at mantissa
    exact pos.ne mantissa
  unfold Float.Model.unpack Float.Model.pack UnpackedFloat.pack
  simp only [if_neg finite, if_neg notTop, UnpackedFloat.unpack, unpackExponent_packComponents,
    unpackMantissa_packComponents, unpackSign_packComponents, Sign.ofBitVec_toBitVec, notAll,
    if_false, if_true, nonzero, mantissa]
  rfl

theorem unpack_pack {u : UnpackedFloat} (fits : Fits u) : (Float.Model.pack u).unpack = u := by
  cases u with
  | infinity s => cases s <;> rfl
  | notANumber => rfl
  | zero s => cases s <;> rfl
  | finite s m e pos =>
    obtain ⟨c, le⟩ := fits
    by_cases full : 2 ^ 52 ≤ m
    · exact unpack_pack_normal s pos full c.lt c.low le
    · obtain rfl : e = -1074 := c.full.resolve_left full
      exact unpack_pack_subnormal s pos (Nat.lt_of_not_le full)

theorem pack_large (s : Sign) {m : ℕ} {e : ℤ} (pos : 0 < m) (large : 972 ≤ e) :
    Float.Model.pack (.finite s m e pos) = Float.Model.pack (.infinity s) := by
  have beyond : 2 ^ 11 ≤ (e + Format.binary64.exponentBias + (52 : ℕ)).toNat + 1 := by
    change 2048 ≤ (e + 1023 + 52).toNat + 1
    omega
  unfold Float.Model.pack UnpackedFloat.pack
  simp only [if_pos beyond]

theorem unpack_inj {x y : Float} : x.toModel.unpack = y.toModel.unpack ↔ x = y := by
  rw [← Float.toBits_inj, ← UInt64.toBitVec_inj]
  exact unpack_inj_of_valid x.toModel.valid y.toModel.valid

theorem unpack_neg (x : Float) : (-x).toModel.unpack = x.toModel.unpack.neg := by
  have fits := fits_unpack x
  refine unpack_pack (u := x.toModel.unpack.neg) ?_
  cases h : x.toModel.unpack <;> rw [h] at fits <;> exact fits

theorem unpack_abs (x : Float) : x.abs.toModel.unpack = x.toModel.unpack.abs := by
  have fits := fits_unpack x
  refine unpack_pack (u := x.toModel.unpack.abs) ?_
  cases h : x.toModel.unpack <;> rw [h] at fits <;> exact fits

theorem abs_of_not_negative {x : Float} (sign : isNegative x = false) : x.abs = x := by
  rw [← unpack_inj, unpack_abs]
  unfold isNegative at sign
  cases h : x.toModel.unpack with
  | notANumber => rfl
  | infinity s | zero s | finite s => rw [h] at sign; cases s <;> trivial

theorem neg_abs_of_negative {x : Float} (sign : isNegative x = true) : -x.abs = x := by
  rw [← unpack_inj, unpack_neg, unpack_abs]
  unfold isNegative at sign
  cases h : x.toModel.unpack with
  | notANumber => rfl
  | infinity s | zero s | finite s => rw [h] at sign; cases s <;> trivial

theorem negation_involutive : Function.Involutive (fun x : Float => -x) := by
  intro x
  rw [← unpack_inj, unpack_neg, unpack_neg]
  cases x.toModel.unpack with
  | notANumber => rfl
  | infinity s | zero s | finite s => cases s <;> rfl

theorem eq_nan {x : Float} (undefined : x.isNaN = true) : x = nan :=
  unpack_inj.1 (isNaN_iff.1 undefined)

theorem eq_infinity {x : Float} (infinite : x.isInf = true) :
    x = if isNegative x then -infinity else infinity := by
  change x.toModel.unpack.isInf = true at infinite
  rw [← unpack_inj]
  unfold isNegative
  cases h : x.toModel.unpack with
  | infinity s => cases s <;> rfl
  | notANumber | zero | finite => rw [h] at infinite; contradiction

theorem isFinite_of_not {x : Float} (defined : ¬x.isNaN = true) (bounded : ¬x.isInf = true) :
    x.isFinite = true := by
  change ¬x.toModel.unpack.isNaN = true at defined
  change ¬x.toModel.unpack.isInf = true at bounded
  change x.toModel.unpack.isFinite = true
  cases h : x.toModel.unpack with
  | infinity s => rw [h] at bounded; contradiction
  | notANumber => rw [h] at defined; contradiction
  | zero | finite => rfl

theorem eq_of_not_finite {x : Float} (unbounded : ¬x.isFinite = true) :
    x = nan ∨ x = infinity ∨ x = -infinity := by
  by_cases undefined : x.isNaN = true
  · exact .inl (eq_nan undefined)
  · by_cases infinite : x.isInf = true
    · have known := eq_infinity infinite
      split at known
      · exact .inr (.inr known)
      · exact .inr (.inl known)
    · exact absurd (isFinite_of_not undefined infinite) unbounded

/-- The exponent of the doubles about as great as `v`: `53` bits from the leading one of `v` down,
or fewer where the format ends. -/
def place (v : ℚ) : ℤ := max (Int.log 2 v - 52) (-1074)

theorem log_mul_zpow {v : ℚ} (pos : 0 < v) (e : ℤ) : Int.log 2 (v * 2 ^ e) = Int.log 2 v + e := by
  have power : (0 : ℚ) < 2 ^ e := by positivity
  apply eq_of_forall_le_iff
  intro k
  have moved : ((2 : ℕ) : ℚ) ^ k ≤ v * 2 ^ e ↔ ((2 : ℕ) : ℚ) ^ (k - e) ≤ v := by
    rw [Nat.cast_ofNat, zpow_sub₀ two_ne_zero, div_le_iff₀ power]
  rw [← Int.zpow_le_iff_le_log one_lt_two (by positivity), moved,
    Int.zpow_le_iff_le_log one_lt_two pos, sub_le_iff_le_add]

theorem place_natCast_mul {m : ℕ} (pos : 0 < m) (e : ℤ) :
    place (m * 2 ^ e) = max (Nat.log 2 m + e - 52) (-1074) := by
  rw [place, log_mul_zpow (by exact_mod_cast pos), Int.log_natCast]

theorem Canonical.place_eq {m : ℕ} {e : ℤ} (c : Canonical m e) : place (m * 2 ^ e) = e := by
  have below : Nat.log 2 m < 53 := Nat.log_lt_of_lt_pow c.pos.ne' c.lt
  have low := c.low
  rw [place_natCast_mul c.pos]
  obtain full | lowest := c.full
  · have above : 52 ≤ Nat.log 2 m := Nat.le_log_of_pow_le one_lt_two full
    omega
  · omega

theorem Canonical.unique {m n : ℕ} {e f : ℤ} (c : Canonical m e) (d : Canonical n f)
    (same : (m * 2 ^ e : ℚ) = n * 2 ^ f) : m = n ∧ e = f := by
  have exponents : e = f := by rw [← c.place_eq, ← d.place_eq, same]
  subst exponents
  have power : (2 ^ e : ℚ) ≠ 0 := by positivity
  exact ⟨by exact_mod_cast mul_right_cancel₀ power same, rfl⟩

section Exact

variable {x : Float} {s : Sign} {m : ℕ} {e : ℤ} {pos : 0 < m}

theorem exact_of_finite (h : x.toModel.unpack = .finite s m e pos) :
    exact x = s.apply m * 2 ^ e := by
  unfold exact
  rw [h]
  cases s <;> exact scaled_eq 2 _ e

theorem exact_of_zero (h : x.toModel.unpack = .zero s) : exact x = 0 := by
  unfold exact
  rw [h]

theorem exact_ne_zero (h : x.toModel.unpack = .finite s m e pos) : exact x ≠ 0 := by
  have nonzero := pos.ne'
  rw [exact_of_finite h]
  cases s <;> simp [Sign.apply, nonzero, zpow_ne_zero]

theorem isNegative_iff_finite (h : x.toModel.unpack = .finite s m e pos) :
    isNegative x = true ↔ s = .negative := by
  unfold isNegative
  rw [h]
  cases s <;> simp

theorem isNegative_iff_zero (h : x.toModel.unpack = .zero s) :
    isNegative x = true ↔ s = .negative := by
  unfold isNegative
  rw [h]
  cases s <;> simp

end Exact

theorem isFinite_abs (x : Float) : x.abs.isFinite = x.isFinite := by
  change x.abs.toModel.unpack.isFinite = x.toModel.unpack.isFinite
  rw [unpack_abs]
  cases x.toModel.unpack <;> rfl

theorem isNegative_abs (x : Float) : isNegative x.abs = false := by
  unfold isNegative
  rw [unpack_abs]
  cases x.toModel.unpack <;> rfl

theorem exact_abs (x : Float) : exact x.abs = |exact x| := by
  have unpacked := unpack_abs x
  cases h : x.toModel.unpack with
  | infinity s | notANumber =>
    rw [h] at unpacked
    simp only [exact, h, unpacked, UnpackedFloat.abs, abs_zero]
  | zero s =>
    rw [h] at unpacked
    rw [exact_of_zero h, exact_of_zero unpacked, abs_zero]
  | finite s m e pos =>
    rw [h] at unpacked
    rw [exact_of_finite h, exact_of_finite unpacked]
    cases s <;> simp [Sign.apply, abs_mul]

theorem finite_cases {x : Float} (finite : x.isFinite = true) :
    (∃ s, x.toModel.unpack = .zero s) ∨
      ∃ s m e, ∃ c : Canonical m e, e ≤ 971 ∧ x.toModel.unpack = .finite s m e c.pos := by
  have fits := fits_unpack x
  change x.toModel.unpack.isFinite = true at finite
  cases h : x.toModel.unpack with
  | infinity s => rw [h] at finite; contradiction
  | notANumber => rw [h] at finite; contradiction
  | zero s => exact .inl ⟨s, rfl⟩
  | finite s m e pos =>
    rw [h] at fits
    exact .inr ⟨s, m, e, fits.1, fits.2, rfl⟩

theorem nonneg_cases {x : Float} (finite : x.isFinite = true) (sign : isNegative x = false) :
    x.toModel.unpack = .zero .positive ∨
      ∃ m e, ∃ c : Canonical m e, e ≤ 971 ∧ x.toModel.unpack = .finite .positive m e c.pos := by
  unfold isNegative at sign
  obtain ⟨s, h⟩ | ⟨s, m, e, c, le, h⟩ := finite_cases finite <;> rw [h] at sign <;> cases s
  · contradiction
  · exact .inl h
  · contradiction
  · exact .inr ⟨m, e, c, le, h⟩

theorem eq_of_exact_eq {x y : Float} (finite : x.isFinite = true) (finite' : y.isFinite = true)
    (sign : isNegative x = isNegative y) (same : exact x = exact y) : x = y := by
  rw [← unpack_inj]
  rw [Bool.eq_iff_iff] at sign
  obtain ⟨s, h⟩ | ⟨s, m, e, c, -, h⟩ := finite_cases finite <;>
    obtain ⟨t, k⟩ | ⟨t, n, f, d, -, k⟩ := finite_cases finite'
  · rw [isNegative_iff_zero h, isNegative_iff_zero k] at sign
    cases s <;> cases t <;> simp_all
  · exact absurd (same.symm.trans (exact_of_zero h)) (exact_ne_zero k)
  · exact absurd (same.trans (exact_of_zero k)) (exact_ne_zero h)
  · rw [isNegative_iff_finite h, isNegative_iff_finite k] at sign
    obtain rfl : s = t := by cases s <;> cases t <;> simp_all
    have magnitudes : (m * 2 ^ e : ℚ) = n * 2 ^ f := by
      rw [exact_of_finite h, exact_of_finite k] at same
      cases s <;> simpa [Sign.apply] using same
    obtain ⟨rfl, rfl⟩ := c.unique d magnitudes
    rw [h, k]

end Reckoner.Double
