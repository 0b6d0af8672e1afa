import Reckoner.Proofs.Editing
import Reckoner.Proofs.Sums

/-! Gamma and factorial of numbers. Left of the line `Re z = 1/2` the gamma function is found from
the image of the point, and rounding does not take the image back across the line, so that no second
reflection follows. The factorial of a natural number is computed exactly and rounded once; what is
taken for infinite without being computed is beyond the doubles. -/
namespace Reckoner

namespace Double

theorem not_one_sub_lt_half {x : Float} (left : x < 0.5) : ¬1.0 - x < 0.5 := by
  have one : exact 1.0 = 1 := by decide +kernel
  have half : exact 0.5 = 1 / 2 := by decide +kernel
  have finiteHalf : (0.5 : Float).isFinite = true := rfl
  by_cases finite : x.isFinite = true
  · -- The exact image is above `1/2`, and as that is a double, rounding does not go past it.
    rw [lt_iff_exact finite finiteHalf, half] at left
    have image : exact 0.5 ≤ exact 1.0 - exact x := by
      rw [one, half]
      linarith
    obtain infinite | ⟨known, least⟩ := (rounds_sub rfl finite).ge_or finiteHalf image
    · rw [infinite]
      exact not_infinity_lt 0.5
    · rw [lt_iff_exact known finiteHalf]
      exact least.not_gt
  · obtain rfl | rfl | rfl := eq_of_not_finite finite
    · exact absurd left (not_nan_lt 0.5)
    · exact absurd left (not_infinity_lt 0.5)
    · exact not_infinity_lt 0.5

theorem limit_eq : limit = overflowBound := by
  have whole : overflowBound = (2 ^ 54 - 1) * 2 ^ 970 := by decide +kernel
  have twice : (2 : ℚ) ^ (971 : ℤ) = 2 * 2 ^ 970 := by
    rw [← pow_succ']
    exact zpow_natCast 2 971
  rw [limit, whole, twice, Nat.cast_mul, Nat.cast_pow, Nat.cast_ofNat]
  generalize (2 : ℚ) ^ 970 = unit
  norm_num
  ring

end Double

namespace Number

open Double

/-- The gamma function by a recursion that may reflect any number of times: at `z` it comes to `w`
after as many reflections as are told. -/
inductive GammaAfter : (reflections : ℕ) → (z w : Number) → Prop where
  | series {z : Number} : ¬z.re < 0.5 → GammaAfter 0 z (z.map Gamma.lanczos)
  | reflect {k : ℕ} {z w : Number} : z.re < 0.5 → GammaAfter k z.reflected w →
    GammaAfter (k + 1) z (zipWith Gamma.reflection z w)

theorem gammaAfter_of_right {k : ℕ} {z w : Number} (right : ¬z.re < 0.5) :
    GammaAfter k z w ↔ k = 0 ∧ w = z.map Gamma.lanczos := by
  constructor
  · intro after
    cases after with
    | series => exact ⟨rfl, rfl⟩
    | reflect left => exact absurd left right
  · rintro ⟨rfl, rfl⟩
    exact .series right

theorem gammaAfter_of_left {k : ℕ} {z w : Number} (left : z.re < 0.5) :
    GammaAfter k z w ↔
      ∃ j image, k = j + 1 ∧ w = zipWith Gamma.reflection z image ∧
        GammaAfter j z.reflected image := by
  constructor
  · intro after
    cases after with
    | series right => exact absurd left right
    | reflect _ rest => exact ⟨_, _, rfl, rfl, rest⟩
  · rintro ⟨j, image, rfl, rfl, rest⟩
    exact .reflect left rest

theorem gammaWithin?_eq_some_iff (n : ℕ) (z w : Number) :
    gammaWithin? n z = some w ↔ ∃ k ≤ n, GammaAfter k z w := by
  induction n generalizing z w with
  | zero =>
    by_cases left : z.re < 0.5
    · simp [gammaWithin?, left, gammaAfter_of_left left]
    · simp [gammaWithin?, left, gammaAfter_of_right left, eq_comm]
  | succ n ih =>
    by_cases left : z.re < 0.5
    · rw [gammaWithin?, if_pos left, Option.map_eq_some_iff]
      simp only [ih, gammaAfter_of_left left]
      constructor
      · rintro ⟨image, ⟨k, le, rest⟩, rfl⟩
        exact ⟨k + 1, Nat.succ_le_succ le, k, image, rfl, rfl, rest⟩
      · rintro ⟨_, le, k, image, rfl, rfl, rest⟩
        exact ⟨image, ⟨k, Nat.le_of_succ_le_succ le, rest⟩, rfl⟩
    · simp [gammaWithin?, left, gammaAfter_of_right left, eq_comm]

theorem gamma_of_right {z : Number} (right : ¬z.re < 0.5) : z.gamma = z.map Gamma.lanczos := by
  simp [gamma, gammaWithin?, right]

theorem gamma_of_left {z : Number} (left : z.re < 0.5) :
    z.gamma = zipWith Gamma.reflection z (z.reflected.map Gamma.lanczos) := by
  have right : ¬z.reflected.re < 0.5 := not_one_sub_lt_half left
  simp [gamma, gammaWithin?, left, right]

theorem gammaAfter_iff (k : ℕ) (z w : Number) :
    GammaAfter k z w ↔ k = (if z.re < 0.5 then 1 else 0) ∧ w = z.gamma := by
  by_cases left : z.re < 0.5
  · have right : ¬z.reflected.re < 0.5 := not_one_sub_lt_half left
    simp [gammaAfter_of_left left, gammaAfter_of_right right, left, gamma_of_left left]
  · rw [gammaAfter_of_right left, if_neg left, gamma_of_right left]

/-- Left of the line `Re z = 1/2` the image of a number is not left of it, and the gamma function is
found from the series there; everywhere else, and where the real part is NaN, the series is used at
the number itself. So a recursion that reflects as often as it has to ends for every number, after
one reflection at most. -/
theorem gamma_reflects_once (z : Number) :
    (z.re < 0.5 → ¬1.0 - z.re < 0.5 ∧
      z.gamma = zipWith Gamma.reflection z (z.reflected.map Gamma.lanczos)) ∧
    (z.re.isNaN = true → ¬z.re < 0.5) ∧
    (¬z.re < 0.5 → z.gamma = z.map Gamma.lanczos) ∧
    (∃ k ≤ 1, GammaAfter k z z.gamma) ∧
    (∀ k w, GammaAfter k z w → k ≤ 1 ∧ w = z.gamma) ∧
    ∀ n w, gammaWithin? n z = some w ↔ ∃ k ≤ n, GammaAfter k z w := by
  have most : (if z.re < 0.5 then 1 else 0) ≤ 1 := by split <;> decide
  refine ⟨fun left => ⟨not_one_sub_lt_half left, gamma_of_left left⟩, fun undefined => ?_,
    gamma_of_right, ⟨_, most, ?_⟩, fun k w after => ?_, fun n w => gammaWithin?_eq_some_iff n z w⟩
  · rw [eq_nan undefined]
    exact not_nan_lt 0.5
  · exact (gammaAfter_iff ..).2 ⟨rfl, rfl⟩
  · obtain ⟨rfl, rfl⟩ := (gammaAfter_iff k z w).1 after
    exact ⟨most, rfl⟩

theorem gamma_reflects_once_below_half :
    let x := Float.ofBits 0x3FDFFFFFFFFFFFFF
    x < 0.5 ∧ ¬1.0 - x < 0.5 ∧ nan.isNaN = true ∧ (real nan).gamma = (real nan).map Gamma.lanczos ∧
      (∃ k ≤ 1, GammaAfter k (real x) (real x).gamma) := by
  intro x
  have left : x < 0.5 := by decide +kernel
  obtain ⟨image, -, -, ends, -⟩ := gamma_reflects_once (real x)
  obtain ⟨-, undefined, series, -⟩ := gamma_reflects_once (real nan)
  exact ⟨left, (image left).1, rfl, series (undefined rfl), ends⟩

theorem natFactorial_eq (n : ℕ) : natFactorial n = Nat.factorial n := by
  induction n with
  | zero => rfl
  | succ n ih => rw [natFactorial, ih, Nat.factorial_succ]

theorem natFactorial_lt_overflowBound_iff (n : ℕ) :
    natFactorial n < overflowBound ↔ n ≤ largestFactorial := by
  have largest : natFactorial largestFactorial < overflowBound := by decide +kernel
  have next : overflowBound ≤ natFactorial (largestFactorial + 1) := by decide +kernel
  constructor
  · intro small
    by_contra large
    have beyond : largestFactorial + 1 ≤ n := Nat.lt_of_not_le large
    exact absurd small (next.trans (natFactorial_le beyond)).not_gt
  · intro le
    exact (natFactorial_le le).trans_lt largest

theorem factorial_lt_limit_iff (n : ℕ) : (n.factorial : ℚ) < limit ↔ n ≤ largestFactorial := by
  rw [← natFactorial_lt_overflowBound_iff, natFactorial_eq, limit_eq, Nat.cast_lt]

theorem isFinite_ofNat_factorial_iff (n : ℕ) :
    (Float.ofNat n.factorial).isFinite = true ↔ n ≤ largestFactorial := by
  have nonneg : (0 : ℚ) ≤ n.factorial := Nat.cast_nonneg _
  rw [(holds_ofNat _).isFinite_iff, rounded_lt_overflow_iff nonneg, factorial_lt_limit_iff]

theorem nearest_ofNat_factorial {n : ℕ} (le : n ≤ largestFactorial) :
    Nearest n.factorial (Float.ofNat n.factorial) :=
  (holds_ofNat _).nearest (Nat.cast_nonneg _) ((isFinite_ofNat_factorial_iff n).2 le)

theorem integerFactorial_eq (n : ℕ) : integerFactorial n = Float.ofNat n.factorial := by
  rw [integerFactorial, natFactorial_eq]
  split
  · next large =>
    have unbounded : ¬(Float.ofNat n.factorial).isFinite = true :=
      mt (isFinite_ofNat_factorial_iff n).1 large.not_ge
    exact ((holds_ofNat _).eq_infinity unbounded).symm
  · rfl

theorem integerFactorial_le {n m : ℕ} (le : n ≤ m) : integerFactorial n ≤ integerFactorial m := by
  rw [integerFactorial_eq, integerFactorial_eq]
  refine (holds_ofNat _).le_of_le (holds_ofNat _) (Nat.cast_nonneg _) ?_
  exact_mod_cast Nat.factorial_le le

end Number

namespace Value

open Double Number

theorem factorial_of_isPosition {v : Value} {n : ℕ} (natural : v.IsPosition n) :
    v.factorial = .ok (.real (integerFactorial n)) := by
  obtain ⟨z, rfl, isReal, finite, same⟩ := natural
  change Except.ok (Value.number z.factorial) = _
  obtain ⟨unit, whole⟩ := (exact_eq_natCast_iff z.re n).1 same
  have integer : isInteger z.re = true := (isInteger_iff z.re).2 ⟨finite, unit⟩
  have positive_iff : 0.0 < z.re ↔ 0 < n := by
    have zero : exact 0.0 = 0 := rfl
    rw [lt_iff_exact rfl finite, zero, same, Nat.cast_pos]
  unfold Number.factorial
  by_cases positive : 0 < n
  · simp [isReal, integer, positive_iff.2 positive, whole, real]
  · -- Neither zero is positive, so both come to the second test.
    obtain rfl : n = 0 := by omega
    have isZero : z.isZero = true := by
      have none : (z.re == 0.0) = true := (beq_zero_iff finite).2 (by simpa using same)
      rw [Number.isZero, none]
      exact isReal
    have one : integerFactorial 0 = 1.0 := rfl
    simp [positive_iff, isZero, real, one]

/-- A factorial has a nearest double up to that of `170`, and from there on it is rounded to
infinity. The factorial of a natural number is this double. Both zeros have the factorial one, and
factorials are in the order of the numbers. -/
theorem factorial_nearest :
    (∀ n : ℕ, ((∃ x, Nearest n.factorial x) ↔ n ≤ 170) ∧
      ((Float.ofNat n.factorial).isFinite = true ↔ n ≤ 170)) ∧
    (∀ (v : Value) (n : ℕ), v.IsPosition n → ∃ x, v.factorial = .ok (.real x) ∧
      x = Float.ofNat n.factorial ∧ (n ≤ 170 → Nearest n.factorial x) ∧
      (170 < n → x = infinity)) ∧
    (∀ v : Value, v.IsPosition 0 → v.factorial = .ok (.real 1.0)) ∧
    ∀ (v w : Value) (n m : ℕ), v.IsPosition n → w.IsPosition m → n ≤ m →
      ∃ x y, v.factorial = .ok (.real x) ∧ w.factorial = .ok (.real y) ∧ x ≤ y := by
  refine ⟨fun n => ⟨⟨?_, fun le => ⟨_, nearest_ofNat_factorial le⟩⟩,
    isFinite_ofNat_factorial_iff n⟩, fun v n natural => ?_, fun v zero => ?_,
    fun v w n m natural natural' le => ?_⟩
  · rintro ⟨x, nearest⟩
    have bounded := nearest.bounded
    rw [abs_of_nonneg (Nat.cast_nonneg _)] at bounded
    exact (factorial_lt_limit_iff n).1 bounded
  · refine ⟨integerFactorial n, factorial_of_isPosition natural, integerFactorial_eq n, ?_, ?_⟩
    · intro le
      rw [integerFactorial_eq]
      exact nearest_ofNat_factorial le
    · exact fun large => if_pos large
  · exact factorial_of_isPosition zero
  · exact ⟨_, _, factorial_of_isPosition natural, factorial_of_isPosition natural',
      integerFactorial_le le⟩

/-- The factorial of `23` is no double, that of `10 ^ 22` is beyond them, and a zero may have a
sign. -/
theorem factorial_nearest_rounded :
    (Value.real 23.0).IsPosition 23 ∧ (Value.real 1e22).IsPosition (10 ^ 22) ∧
      (Value.real (-0.0)).IsPosition 0 ∧
      (∃ x, (Value.real 23.0).factorial = .ok (.real x) ∧ Nearest (Nat.factorial 23) x) ∧
      (Value.real 1e22).factorial = .ok (.real infinity) ∧
      (Value.real (-0.0)).factorial = .ok (.real 1.0) := by
  have natural : (Value.real 23.0).IsPosition 23 :=
    (Value.isPosition_real_iff _ _).2 (by decide +kernel)
  have large : (Value.real 1e22).IsPosition (10 ^ 22) :=
    (Value.isPosition_real_iff _ _).2 (by decide +kernel)
  have zero : (Value.real (-0.0)).IsPosition 0 :=
    (Value.isPosition_real_iff _ _).2 (by decide +kernel)
  obtain ⟨-, factorials, zeros, -⟩ := factorial_nearest
  obtain ⟨x, value, -, nearest, -⟩ := factorials _ _ natural
  obtain ⟨y, value', -, -, infinite⟩ := factorials _ _ large
  rw [infinite (by norm_num)] at value'
  exact ⟨natural, large, zero, ⟨x, value, nearest (by norm_num)⟩, value', zeros _ zero⟩

end Value

end Reckoner
