import Reckoner.Proofs.Rounding

/-! The double that is nearest to a number, told from the doubles alone: no other one is nearer, and
where another is as near, the significand is even. What is rounded to a double is nearest to it and
what a double is nearest to is rounded to it, so that the numbers rounded to one double have no gaps
between them. -/
namespace Reckoner.Double

open Float.Model Float.Model.UnpackedFloat

def significand (x : Float) : ℕ :=
  match x.toModel.unpack with
  | .finite _ m _ _ => m
  | _ => 0

/-- Halfway between the greatest double and `overflow`. From here on infinity is nearest. -/
def limit : ℚ := (2 ^ 53 - 1 / 2) * 2 ^ (971 : ℤ)

/-- `x` is the finite double nearest to `v`, and the even one of two at the same distance. -/
structure Nearest (v : ℚ) (x : Float) : Prop where
  bounded : |v| < limit
  finite : x.isFinite = true
  near : ∀ y : Float, y.isFinite = true → |v - exact x| ≤ |v - exact y|
  even : ∀ y : Float, y.isFinite = true → exact y ≠ exact x → |v - exact x| = |v - exact y| →
    significand x % 2 = 0

section Sides

variable {a b v : ℚ}

theorem abs_sub_le_of_lt (less : a < b) : |v - a| ≤ |v - b| ↔ 2 * v ≤ a + b := by
  rw [← sq_le_sq, ← sub_nonneg]
  have product : (v - b) ^ 2 - (v - a) ^ 2 = (b - a) * (a + b - 2 * v) := by ring
  rw [product, mul_nonneg_iff_of_pos_left (sub_pos.2 less), sub_nonneg]

theorem abs_sub_le_of_gt (less : b < a) : |v - a| ≤ |v - b| ↔ a + b ≤ 2 * v := by
  rw [← sq_le_sq, ← sub_nonneg]
  have product : (v - b) ^ 2 - (v - a) ^ 2 = (a - b) * (2 * v - (a + b)) := by ring
  rw [product, mul_nonneg_iff_of_pos_left (sub_pos.2 less), sub_nonneg]

end Sides

namespace Nearest

variable {u v w : ℚ} {x : Float}

/-- The numbers that a double is nearest to have no gaps between them. -/
theorem between (low : Nearest u x) (high : Nearest w x) (ge : u ≤ v) (le : v ≤ w) :
    Nearest v x := by
  refine ⟨?_, low.finite, fun y finite => ?_, fun y finite distinct tie => ?_⟩
  · exact abs_lt.2 ⟨(abs_lt.1 low.bounded).1.trans_le ge, le.trans_lt (abs_lt.1 high.bounded).2⟩
  · obtain less | same | greater := lt_trichotomy (exact x) (exact y)
    · rw [abs_sub_le_of_lt less]
      linarith [(abs_sub_le_of_lt less).1 (high.near y finite)]
    · rw [same]
    · rw [abs_sub_le_of_gt greater]
      linarith [(abs_sub_le_of_gt greater).1 (low.near y finite)]
  -- A tie with a double on one side is a tie at the end of the interval on that side.
  · obtain less | greater := lt_or_gt_of_ne distinct.symm
    · have above := (abs_sub_le_of_lt less).1 (high.near y finite)
      have here := (abs_sub_le_of_gt less).1 tie.ge
      obtain rfl : v = w := by linarith
      exact high.even y finite distinct tie
    · have below := (abs_sub_le_of_gt greater).1 (low.near y finite)
      have here := (abs_sub_le_of_lt greater).1 tie.ge
      obtain rfl : u = v := by linarith
      exact low.even y finite distinct tie

theorem exact_le_of_lt {y : Float} (low : Nearest v x) (high : Nearest w y) (less : v < w) :
    exact x ≤ exact y := by
  by_contra! crossed
  have above := (abs_sub_le_of_gt crossed).1 (low.near y high.finite)
  have below := (abs_sub_le_of_lt crossed).1 (high.near x low.finite)
  linarith

end Nearest

section Negation

variable (x : Float)

theorem exact_neg : exact (-x) = -exact x := by
  have unpacked := unpack_neg x
  cases h : x.toModel.unpack with
  | infinity s | notANumber =>
    rw [h] at unpacked
    simp only [exact, h, unpacked, UnpackedFloat.neg, neg_zero]
  | zero s =>
    rw [h] at unpacked
    rw [exact_of_zero h, exact_of_zero unpacked, neg_zero]
  | finite s m e pos =>
    rw [h] at unpacked
    rw [exact_of_finite h, exact_of_finite unpacked]
    cases s <;> simp [Sign.apply]

theorem isFinite_neg : (-x).isFinite = x.isFinite := by
  change (-x).toModel.unpack.isFinite = x.toModel.unpack.isFinite
  rw [unpack_neg]
  cases x.toModel.unpack <;> rfl

theorem significand_neg : significand (-x) = significand x := by
  unfold significand
  rw [unpack_neg]
  cases x.toModel.unpack <;> rfl

theorem abs_neg_eq : (-x).abs = x.abs := by
  rw [← unpack_inj, unpack_abs, unpack_abs, unpack_neg]
  cases x.toModel.unpack <;> rfl

variable {x}

theorem isNegative_neg (finite : x.isFinite = true) : isNegative (-x) = !isNegative x := by
  unfold isNegative
  rw [unpack_neg]
  obtain ⟨s, h⟩ | ⟨s, m, e, c, -, h⟩ := finite_cases finite <;> rw [h] <;> cases s <;> rfl

theorem Holds.isNegative_neg {w : ℚ} (held : Holds w x) :
    isNegative x = false ∧ isNegative (-x) = true := by
  cases held with
  | finite _ finite sign => exact ⟨sign, by rw [Double.isNegative_neg finite, sign]; rfl⟩
  | infinite => exact ⟨rfl, rfl⟩

end Negation

theorem Nearest.neg {v : ℚ} {x : Float} (h : Nearest v x) : Nearest (-v) (-x) := by
  have mirror (y : Float) : |-v - exact y| = |v - exact (-y)| := by
    rw [exact_neg, ← abs_neg]
    congr 1
    ring
  have back : exact (- -x) = exact x := by rw [exact_neg, exact_neg, neg_neg]
  refine ⟨by rw [abs_neg]; exact h.bounded, (isFinite_neg x).trans h.finite, ?_, ?_⟩
  · intro y finite
    rw [mirror, mirror, back]
    exact h.near (-y) ((isFinite_neg y).trans finite)
  · intro y finite distinct tie
    rw [mirror, mirror, back] at tie
    rw [significand_neg]
    refine h.even (-y) ((isFinite_neg y).trans finite) ?_ tie
    rw [exact_neg] at distinct ⊢
    exact fun same => distinct (neg_eq_iff_eq_neg.1 same)

section Rounded

variable {v : ℚ}

theorem one_le_abs_sub_add (q : ℚ) {k n : ℤ} (distinct : k ≠ n) : 1 ≤ |q - k| + |q - n| := by
  have apart : (1 : ℚ) ≤ |(k : ℚ) - n| := by
    exact_mod_cast Int.one_le_abs (sub_ne_zero.2 distinct)
  have through : |(k : ℚ) - n| ≤ |k - q| + |q - n| := abs_sub_le _ _ _
  rw [abs_sub_comm (k : ℚ) q] at through
  exact apart.trans through

theorem IsNearest.abs_sub_le_abs_sub {q : ℚ} {n : ℤ} (h : IsNearest q n) (k : ℤ) :
    |q - n| ≤ |q - k| := by
  by_cases same : k = n
  · rw [same]
  · linarith [h.near, one_le_abs_sub_add q same]

theorem IsNearest.lt_iff {q : ℚ} {n k : ℤ} (h : IsNearest q n) (even : k % 2 = 0) :
    n < k ↔ q < k - 1 / 2 := by
  obtain ⟨above, below⟩ := abs_le.1 h.near
  constructor
  · intro less
    by_contra far
    have step : (n : ℚ) ≤ k - 1 := by exact_mod_cast Int.le_sub_one_of_lt less
    have last : (n : ℚ) = k - 1 := by linarith
    have odd := h.even (by rw [abs_of_nonneg] <;> linarith)
    have last : n = k - 1 := by exact_mod_cast last
    omega
  · intro less
    by_contra high
    have step : (k : ℚ) ≤ n := by exact_mod_cast Int.not_lt.1 high
    linarith

theorem abs_sub_place (v : ℚ) (k : ℤ) :
    |v - k * 2 ^ place v| = |v / 2 ^ place v - k| * 2 ^ place v := by
  have power : (0 : ℚ) < 2 ^ place v := by positivity
  rw [← abs_of_pos power, ← abs_mul, abs_of_pos power, sub_mul, div_mul_cancel₀ _ power.ne']

theorem abs_sub_rounded_le (v : ℚ) (k : ℤ) : |v - rounded v| ≤ |v - k * 2 ^ place v| := by
  rw [rounded, abs_sub_place, abs_sub_place]
  exact mul_le_mul_of_nonneg_right ((isNearest_nearestInt _).abs_sub_le_abs_sub k) (by positivity)

theorem exact_eq_mul_or_farther (nonneg : 0 ≤ v) {y : Float} (finite : y.isFinite = true) :
    (∃ k : ℤ, exact y = k * 2 ^ place v) ∨ ∃ k : ℤ, |v - k * 2 ^ place v| < |v - exact y| := by
  obtain ⟨s, h⟩ | ⟨s, m, e, c, -, h⟩ := finite_cases finite
  · exact .inl ⟨0, by rw [exact_of_zero h, Int.cast_zero, zero_mul]⟩
  by_cases fine : place v ≤ e
  · refine .inl ⟨s.apply m * 2 ^ (e - place v).toNat, ?_⟩
    rw [exact_of_finite h]
    push_cast
    rw [mul_assoc, ← zpow_natCast, ← zpow_add₀ two_ne_zero]
    congr 2
    omega
  obtain rfl | positive := nonneg.eq_or_lt
  · exact .inr ⟨0, by simpa using exact_ne_zero h⟩
  · -- The double is below `2 ^ 52 · 2 ^ place v`, which is at most `v`.
    have normal : place v ≠ -1074 := by
      have := c.low
      omega
    have power : (0 : ℚ) < 2 ^ place v := by positivity
    have reached : 2 ^ 52 * 2 ^ place v ≤ v := (le_div_iff₀ power).1 (le_div_place positive normal)
    have below : exact y < 2 ^ 52 * 2 ^ place v := by
      have small : (m : ℚ) < 2 ^ 53 := by exact_mod_cast c.lt
      calc exact y ≤ m * 2 ^ e := by
            rw [exact_of_finite h]
            cases s
            · have : (0 : ℚ) ≤ m * 2 ^ e := by positivity
              simp [Sign.apply]
              linarith
            · simp [Sign.apply]
        _ < 2 ^ 53 * 2 ^ e := by gcongr
        _ = 2 ^ (53 + e) := (zpow_add₀ two_ne_zero 53 e).symm
        _ ≤ 2 ^ (52 + place v) := zpow_le_zpow_right₀ one_le_two (by omega)
        _ = 2 ^ 52 * 2 ^ place v := zpow_add₀ two_ne_zero 52 _
    refine .inr ⟨2 ^ 52, ?_⟩
    rw [abs_of_nonneg (by push_cast; linarith), abs_of_pos (by linarith)]
    push_cast
    linarith

theorem abs_sub_rounded_le_exact (nonneg : 0 ≤ v) {y : Float} (finite : y.isFinite = true) :
    |v - rounded v| ≤ |v - exact y| := by
  obtain ⟨k, multiple⟩ | ⟨k, farther⟩ := exact_eq_mul_or_farther nonneg finite
  · rw [multiple]
    exact abs_sub_rounded_le v k
  · exact (abs_sub_rounded_le v k).trans farther.le

theorem canonical_of_near (nonneg : 0 ≤ v) {k : ℤ} (near : |v / 2 ^ place v - k| ≤ 1 / 2) :
    k = 0 ∨ k = 2 ^ 53 ∨ Canonical k.toNat (place v) := by
  have quotient : 0 ≤ v / 2 ^ place v := by positivity
  have least : 0 ≤ k := ge_of_near near (by exact_mod_cast quotient)
  have most : k ≤ 2 ^ 53 := le_of_near near (by exact_mod_cast (div_place_lt v).le)
  obtain rfl | positive := nonneg.eq_or_lt
  · refine .inl (le_antisymm (le_of_near near ?_) least)
    simp
  by_cases normal : place v = -1074
  · by_contra! other
    exact other.2.2 ⟨by omega, by omega, le_place v, .inr normal⟩
  · have full : 2 ^ 52 ≤ k := ge_of_near near (by exact_mod_cast le_div_place positive normal)
    by_contra! other
    exact other.2.2 ⟨by omega, by omega, le_place v, .inl (by omega)⟩

theorem even_significand_iff (nonneg : 0 ≤ v) {k : ℤ} (near : |v / 2 ^ place v - k| ≤ 1 / 2)
    {x : Float} (finite : x.isFinite = true) (value : exact x = k * 2 ^ place v) :
    significand x % 2 = 0 ↔ k % 2 = 0 := by
  have power : (2 ^ place v : ℚ) ≠ 0 := by positivity
  unfold significand
  obtain ⟨s, h⟩ | ⟨s, m, e, c, -, h⟩ := finite_cases finite
  · rw [exact_of_zero h] at value
    have zero : k = 0 := by simpa [power] using value.symm
    simp [h, zero]
  · have magnitude : (m * 2 ^ e : ℚ) = |(k : ℚ)| * 2 ^ place v := by
      have positive : (0 : ℚ) < 2 ^ place v := by positivity
      rw [← abs_of_pos positive, ← abs_mul, ← value, exact_of_finite h]
      cases s <;> simp [Sign.apply, abs_mul]
    rw [h]
    dsimp only
    obtain rfl | rfl | d := canonical_of_near nonneg near
    · have := exact_ne_zero h
      simp [value] at this
    · have carry : (m * 2 ^ e : ℚ) = (2 ^ 52 : ℕ) * 2 ^ (place v + 1) := by
        rw [magnitude, zpow_add_one₀ two_ne_zero]
        norm_num
        ring
      have d : Canonical (2 ^ 52) (place v + 1) :=
        ⟨by decide, by decide, (le_place v).trans (by omega), .inl le_rfl⟩
      rw [(c.unique d carry).1]
      decide
    · obtain ⟨n, rfl⟩ : ∃ n : ℕ, k = n := ⟨k.toNat, by have := d.pos; omega⟩
      rw [(c.unique d (by simpa using magnitude)).1]
      omega

theorem overflow_le_of_place (nonneg : 0 ≤ v) (large : 971 < place v) : overflow ≤ v := by
  have power : (0 : ℚ) < 2 ^ place v := by positivity
  have positive : 0 < v := by
    obtain rfl | positive := nonneg.eq_or_lt
    · simp [place] at large
    · exact positive
  calc overflow = 2 ^ (52 + 972 : ℤ) := rfl
    _ ≤ 2 ^ (52 + place v) := zpow_le_zpow_right₀ one_le_two (by omega)
    _ = 2 ^ 52 * 2 ^ place v := zpow_add₀ two_ne_zero 52 _
    _ ≤ v := (le_div_iff₀ power).1 (le_div_place positive (by omega))

/-- What is rounded to a finite double: all that is below `limit`. -/
theorem rounded_lt_overflow_iff (nonneg : 0 ≤ v) : rounded v < overflow ↔ v < limit := by
  have top : overflow = 2 ^ 53 * 2 ^ (971 : ℤ) := zpow_add₀ (two_ne_zero' ℚ) 53 971
  have whole : ((2 ^ 53 : ℤ) : ℚ) = 2 ^ 53 := by norm_num
  have power : (0 : ℚ) < 2 ^ place v := by positivity
  have nearest := isNearest_nearestInt (v / 2 ^ place v)
  rw [limit, top, rounded]
  obtain small | same | large := lt_trichotomy (place v) 971
  · have least : v < 2 ^ 53 * 2 ^ place v := (div_lt_iff₀ power).1 (div_place_lt v)
    have most : (nearestInt (v / 2 ^ place v) : ℚ) ≤ 2 ^ 53 := by
      rw [← whole, Int.cast_le]
      exact nearest.le (whole ▸ (div_place_lt v).le)
    have half : (2 ^ place v * 2 : ℚ) ≤ 2 ^ (971 : ℤ) := by
      rw [← zpow_add_one₀ two_ne_zero]
      exact zpow_le_zpow_right₀ one_le_two small
    generalize (2 ^ (971 : ℤ) : ℚ) = unit at half ⊢
    refine iff_of_true ?_ (by linarith)
    calc (nearestInt (v / 2 ^ place v) * 2 ^ place v : ℚ) ≤ 2 ^ 53 * 2 ^ place v := by gcongr
      _ < 2 ^ 53 * unit := by linarith
  · rw [same] at nearest power ⊢
    rw [mul_lt_mul_iff_left₀ power, ← div_lt_iff₀ power]
    rw [← whole, ← nearest.lt_iff (by decide), Int.cast_lt]
  · have beyond := overflow_le_of_place nonneg large
    rw [← top]
    refine iff_of_false (overflow_le_rounded beyond).not_gt ?_
    have unit : (0 : ℚ) < 2 ^ (971 : ℤ) := by positivity
    rw [top] at beyond
    generalize (2 ^ (971 : ℤ) : ℚ) = unit at *
    linarith

theorem Holds.nearest {x : Float} (held : Holds (rounded v) x) (nonneg : 0 ≤ v)
    (finite : x.isFinite = true) : Nearest v x := by
  cases held with
  | infinite => contradiction
  | finite less _ _ value =>
    have nearest := isNearest_nearestInt (v / 2 ^ place v)
    refine ⟨?_, finite, fun y finite' => ?_, fun y finite' distinct tie => ?_⟩
    · rw [abs_of_nonneg nonneg]
      exact (rounded_lt_overflow_iff nonneg).1 less
    · rw [value]
      exact abs_sub_rounded_le_exact nonneg finite'
    · refine (even_significand_iff nonneg nearest.near finite value).2 (nearest.even ?_)
      rw [value] at tie distinct
      obtain ⟨k, multiple⟩ | ⟨k, farther⟩ := exact_eq_mul_or_farther nonneg finite'
      · -- Two multiples that are equally near have the number halfway between them.
        rw [multiple, rounded, abs_sub_place, abs_sub_place] at tie
        have other : k ≠ nearestInt (v / 2 ^ place v) := by
          rintro rfl
          exact distinct multiple
        have same := mul_right_cancel₀ (by positivity) tie
        linarith [nearest.near, one_le_abs_sub_add (v / 2 ^ place v) other]
      · exact absurd tie ((abs_sub_rounded_le v k).trans_lt farther).ne

theorem Nearest.eq_of_holds {x y : Float} (h : Nearest v x) (sign : isNegative x = false)
    (nonneg : 0 ≤ v) (held : Holds (rounded v) y) : y = x := by
  have less : rounded v < overflow :=
    (rounded_lt_overflow_iff nonneg).2 (abs_of_nonneg nonneg ▸ h.bounded)
  obtain ⟨finite, sign', value⟩ := held.of_lt less
  refine eq_of_exact_eq finite h.finite (sign'.trans sign.symm) ?_
  by_contra distinct
  have nearest := isNearest_nearestInt (v / 2 ^ place v)
  have tie : |v - exact x| = |v - exact y| :=
    le_antisymm (h.near y finite) ((held.nearest nonneg finite).near x h.finite)
  have even := h.even y finite distinct tie
  rw [value] at tie
  obtain ⟨k, multiple⟩ | ⟨k, farther⟩ := exact_eq_mul_or_farther nonneg h.finite
  · rw [multiple, rounded, abs_sub_place, abs_sub_place] at tie
    have near : |v / 2 ^ place v - k| ≤ 1 / 2 :=
      (mul_right_cancel₀ (by positivity) tie).trans_le nearest.near
    have also : IsNearest (v / 2 ^ place v) k :=
      ⟨near, fun _ => (even_significand_iff nonneg near h.finite multiple).1 even⟩
    rw [multiple, value, rounded, also.unique nearest] at distinct
    exact distinct rfl
  · exact absurd tie ((abs_sub_rounded_le v k).trans_lt farther).ne'

end Rounded

section Self

variable {x : Float}

theorem exact_nonneg (sign : isNegative x = false) : 0 ≤ exact x := by
  rw [← abs_of_not_negative sign, exact_abs]
  exact abs_nonneg _

theorem nearest_exact (finite : x.isFinite = true) (sign : isNegative x = false) :
    Nearest (exact x) x :=
  (holds_exact finite sign).nearest (exact_nonneg sign) finite

theorem Nearest.exact_eq_zero (h : Nearest 0 x) : exact x = 0 := by
  have near := h.near 0.0 rfl
  have zero : exact 0.0 = 0 := rfl
  rw [zero, sub_zero, abs_zero, zero_sub, abs_neg] at near
  exact abs_nonpos_iff.1 near

end Self

end Reckoner.Double
