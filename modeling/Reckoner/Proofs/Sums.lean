import Reckoner.Proofs.Arithmetic
import Reckoner.Proofs.Nearest

/-! Sums, differences and the order of doubles. Finite doubles are ordered as their values are, and
a sum is rounded once: it is the double nearest to the exact sum, of either sign. So a sum is never
on the wrong side of a double, and it does differ from one of its terms if the other term is not too
small beside it. -/
namespace Reckoner.Double

open Float.Model Float.Model.UnpackedFloat

section Order

theorem Canonical.lt_iff {m n : ℕ} {e f : ℤ} (c : Canonical m e) (d : Canonical n f) :
    (m * 2 ^ e : ℚ) < n * 2 ^ f ↔ e < f ∨ e = f ∧ m < n := by
  have lower {m n : ℕ} {e f : ℤ} (c : Canonical m e) (d : Canonical n f) (less : e < f) :
      (m * 2 ^ e : ℚ) < n * 2 ^ f := by
    have small : (m : ℚ) < 2 ^ 53 := by exact_mod_cast c.lt
    have full : (2 ^ 52 : ℚ) ≤ n := by
      have low := c.low
      exact_mod_cast d.full.resolve_right (by omega)
    calc (m * 2 ^ e : ℚ) < 2 ^ 53 * 2 ^ e := by gcongr
      _ = 2 ^ 52 * 2 ^ (e + 1) := by rw [zpow_add_one₀ two_ne_zero]; ring
      _ ≤ 2 ^ 52 * 2 ^ f := by gcongr <;> [norm_num; exact less]
      _ ≤ n * 2 ^ f := by gcongr
  obtain less | rfl | greater := lt_trichotomy e f
  · exact iff_of_true (lower c d less) (.inl less)
  · have power : (0 : ℚ) < 2 ^ e := by positivity
    rw [mul_lt_mul_iff_left₀ power, Nat.cast_lt]
    simp
  · exact iff_of_false (lower d c greater).asymm (by omega)

theorem then_eq_lt_iff (m n : ℕ) (e f : ℤ) :
    (compare e f).then (compare m n) = .lt ↔ e < f ∨ e = f ∧ m < n := by
  rw [Ordering.then_eq_lt, compare_lt_iff_lt, compare_eq_iff_eq, compare_lt_iff_lt]

theorem then_eq_gt_iff (m n : ℕ) (e f : ℤ) :
    (compare e f).then (compare m n) = .gt ↔ f < e ∨ f = e ∧ n < m := by
  rw [Ordering.then_eq_gt, compare_gt_iff_gt, compare_eq_iff_eq, compare_gt_iff_gt, eq_comm]

/-- Finite doubles are ordered as their values are. -/
theorem lt_iff_exact {x y : Float} (finite : x.isFinite = true) (finite' : y.isFinite = true) :
    x < y ↔ exact x < exact y := by
  have unpacked : x < y ↔ x.toModel.unpack.compare y.toModel.unpack = some .lt := by
    change decide (x.toModel.unpack.lt y.toModel.unpack = true) = true ↔ _
    rw [decide_eq_true_iff, UnpackedFloat.lt, beq_iff_eq]
  rw [unpacked]
  obtain ⟨s, h⟩ | ⟨s, m, e, c, -, h⟩ := finite_cases finite <;>
    obtain ⟨t, k⟩ | ⟨t, n, f, d, -, k⟩ := finite_cases finite'
  · simp [h, k, exact_of_zero h, exact_of_zero k, UnpackedFloat.compare]
  · have positive : (0 : ℚ) < n * 2 ^ f := by have := d.pos; positivity
    rw [h, k, exact_of_zero h, exact_of_finite k]
    cases t <;> simp [UnpackedFloat.compare, Sign.apply, positive, positive.le]
  · have positive : (0 : ℚ) < m * 2 ^ e := by have := c.pos; positivity
    rw [h, k, exact_of_finite h, exact_of_zero k]
    cases s <;> simp [UnpackedFloat.compare, Sign.apply, positive, positive.le]
  · have positive : (0 : ℚ) < m * 2 ^ e := by have := c.pos; positivity
    have positive' : (0 : ℚ) < n * 2 ^ f := by have := d.pos; positivity
    have up := c.lt_iff d
    have down := d.lt_iff c
    rw [← then_eq_lt_iff] at up
    rw [← then_eq_gt_iff] at down
    rw [h, k, exact_of_finite h, exact_of_finite k]
    cases s <;> cases t <;> simp only [UnpackedFloat.compare, Sign.apply, Option.some_inj]
    · rw [Ordering.swap_eq_lt, ← down]
      push_cast
      constructor <;> intro <;> linarith
    · refine iff_of_true trivial ?_
      push_cast
      linarith
    · refine iff_of_false (by simp) ?_
      push_cast
      linarith
    · rw [← up]
      push_cast
      rfl

theorem not_lt_self {x : Float} (finite : x.isFinite = true) : ¬x < x := by
  rw [lt_iff_exact finite finite]
  exact lt_irrefl _

theorem le_iff_unpack (x y : Float) :
    x ≤ y ↔ x.toModel.unpack.le y.toModel.unpack = true := by
  change decide (x.toModel.unpack.le y.toModel.unpack = true) = true ↔ _
  rw [decide_eq_true_iff]

theorem le_of_lt {x y : Float} (less : x < y) : x ≤ y := by
  change decide (x.toModel.unpack.lt y.toModel.unpack = true) = true at less
  rw [decide_eq_true_iff, UnpackedFloat.lt, beq_iff_eq] at less
  rw [le_iff_unpack, UnpackedFloat.le, less]
  rfl

theorem le_self {x : Float} (finite : x.isFinite = true) : x ≤ x := by
  rw [le_iff_unpack]
  obtain ⟨s, h⟩ | ⟨s, m, e, c, -, h⟩ := finite_cases finite <;> rw [h]
  · rfl
  · cases s <;> simp [UnpackedFloat.le, UnpackedFloat.compare]

theorem lt_infinity {x : Float} (finite : x.isFinite = true) : x < infinity := by
  change decide (x.toModel.unpack.lt (infinity : Float).toModel.unpack = true) = true
  have unpacked : (infinity : Float).toModel.unpack = .infinity .positive := rfl
  rw [unpacked]
  obtain ⟨s, h⟩ | ⟨s, m, e, c, -, h⟩ := finite_cases finite <;> rw [h] <;> cases s <;> rfl

theorem Holds.le_infinity {w : ℚ} {x : Float} (held : Holds w x) : x ≤ infinity := by
  cases held with
  | finite _ finite => exact le_of_lt (lt_infinity finite)
  | infinite => decide

theorem Holds.le_of_le {v w : ℚ} {x y : Float} (low : Holds (rounded v) x)
    (high : Holds (rounded w) y) (nonneg : 0 ≤ v) (le : v ≤ w) : x ≤ y := by
  by_cases small : rounded w < overflow
  · have below : w < limit := (rounded_lt_overflow_iff (nonneg.trans le)).1 small
    have small' : rounded v < overflow := (rounded_lt_overflow_iff nonneg).2 (le.trans_lt below)
    obtain ⟨finite, sign, value⟩ := low.of_lt small'
    obtain ⟨finite', sign', value'⟩ := high.of_lt small
    obtain less | rfl := le.lt_or_eq
    · have ordered := (low.nearest nonneg finite).exact_le_of_lt
        (high.nearest (nonneg.trans le) finite') less
      obtain less | same := ordered.lt_or_eq
      · exact le_of_lt ((lt_iff_exact finite finite').2 less)
      · rw [eq_of_exact_eq finite finite' (sign.trans sign'.symm) same]
        exact le_self finite'
    · rw [low.unique high]
      exact le_self finite'
  · cases high with
    | finite small' => exact absurd small' small
    | infinite => exact low.le_infinity

theorem beq_zero_iff {x : Float} (finite : x.isFinite = true) :
    (x == 0.0) = true ↔ exact x = 0 := by
  have zero : (0.0 : Float).toModel.unpack = .zero .positive := rfl
  change (x.toModel.unpack.compare (0.0 : Float).toModel.unpack == some .eq) = true ↔ _
  rw [zero]
  obtain ⟨s, h⟩ | ⟨s, m, e, c, -, h⟩ := finite_cases finite <;> rw [h]
  · exact iff_of_true rfl (exact_of_zero h)
  · exact iff_of_false (by cases s <;> simp [UnpackedFloat.compare]) (exact_ne_zero h)

end Order

theorem Represents.holds_neg {u : UnpackedFloat} {w : ℚ} (h : Represents .negative u w) :
    Holds w (-(.ofModel (.pack u))) := by
  cases h with
  | zero => exact .finite (by unfold overflow; positivity) rfl rfl (exact_of_zero rfl)
  | @finite m e c =>
    by_cases le : e ≤ 971
    · refine .of_canonical c le ?_
      rw [unpack_neg]
      exact congrArg UnpackedFloat.neg (unpack_pack (u := .finite .negative m e c.pos) ⟨c, le⟩)
    · rw [pack_large .negative c.pos (by omega)]
      exact .infinite (not_lt.1 (mt c.lt_overflow_iff.1 le))

/-- `x` is `v` rounded, with the sign of `v`; the sign of a zero is left open. -/
inductive Rounds (v : ℚ) (x : Float) : Prop where
  | above : 0 < v → Holds (rounded v) x → Rounds v x
  | zero : v = 0 → x.isFinite = true → exact x = 0 → Rounds v x
  | below : v < 0 → Holds (rounded (-v)) (-x) → Rounds v x

theorem Rounds.neg {v : ℚ} {x : Float} (h : Rounds v x) : Rounds (-v) (-x) := by
  cases h with
  | above positive held =>
    refine .below (neg_lt_zero.2 positive) ?_
    have back : - -x = x := negation_involutive x
    rwa [neg_neg, back]
  | zero zero finite value =>
    exact .zero (by rw [zero, neg_zero]) ((isFinite_neg x).trans finite)
      (by rw [exact_neg, value, neg_zero])
  | below negative held => exact .above (neg_pos.2 negative) held

theorem rounds_exact {x : Float} (finite : x.isFinite = true) : Rounds (exact x) x := by
  by_cases zero : exact x = 0
  · exact .zero zero finite zero
  · cases sign : isNegative x with
    | false =>
      exact .above (lt_of_le_of_ne (exact_nonneg sign) (Ne.symm zero)) (holds_exact finite sign)
    | true =>
      have finite' : (-x).isFinite = true := (isFinite_neg x).trans finite
      have sign' : isNegative (-x) = false := by rw [isNegative_neg finite, sign]; rfl
      have held := holds_exact finite' sign'
      have nonneg := exact_nonneg sign'
      rw [exact_neg] at held nonneg
      exact .below (lt_of_le_of_ne (by linarith) zero) held

theorem normalize_zero (e : ℤ) :
    normalize Format.binary64 0 e .positive = .zero .positive := by
  have order : compare (0 : ℤ) 0 = .eq := Int.compare_eq_eq.2 rfl
  unfold UnpackedFloat.normalize
  rw [order]

theorem rounds_normalize (k e : ℤ) :
    Rounds (k * 2 ^ e) (.ofModel (.pack (normalize Format.binary64 k e .positive))) := by
  have power : (0 : ℚ) < 2 ^ e := by positivity
  obtain negative | rfl | positive := lt_trichotomy k 0
  · obtain ⟨m, rfl⟩ : ∃ m : ℕ, k = -m := ⟨(-k).toNat, by omega⟩
    have pos : 0 < m := by omega
    have order : compare (-m : ℤ) 0 = .lt := Int.compare_eq_lt.2 negative
    have rounds := (represents_round .negative pos e).holds_neg
    unfold UnpackedFloat.normalize
    rw [order]
    refine .below (mul_neg_of_neg_of_pos (by exact_mod_cast negative) power) ?_
    simpa using rounds
  · rw [normalize_zero]
    exact .zero (by simp) rfl (exact_of_zero rfl)
  · obtain ⟨m, rfl⟩ : ∃ m : ℕ, k = m := ⟨k.toNat, by omega⟩
    have pos : 0 < m := by omega
    have order : compare (m : ℤ) 0 = .gt := Int.compare_eq_gt.2 positive
    have rounds := (represents_round .positive pos e).holds
    unfold UnpackedFloat.normalize
    rw [order]
    refine .above (mul_pos (by exact_mod_cast positive) power) ?_
    simpa using rounds

theorem apply_decreaseExponent (s : Sign) (m : ℕ) {e target : ℤ} (le : target ≤ e) :
    ((s.apply (decreaseExponent m e target).1 : ℤ) : ℚ) * 2 ^ target = s.apply m * 2 ^ e := by
  have shift : ((e - target).toNat : ℤ) = e - target := by omega
  have value : (((m <<< (e - target).toNat : ℕ) : ℤ) : ℚ) * 2 ^ target = m * 2 ^ e := by
    rw [Nat.shiftLeft_eq]
    push_cast
    rw [mul_assoc, ← zpow_natCast, shift, ← zpow_add₀ two_ne_zero, sub_add_cancel]
  cases s with
  | positive => simpa [decreaseExponent, Sign.apply] using value
  | negative => simpa [decreaseExponent, Sign.apply] using value

theorem pack_unpack (x : Float) : .ofModel (.pack x.toModel.unpack) = x :=
  unpack_inj.1 (unpack_pack (fits_unpack x))

theorem add_eq_normalize {x y : Float} {s t : Sign} {m n : ℕ} {e f : ℤ} {pos : 0 < m}
    {pos' : 0 < n} (h : x.toModel.unpack = .finite s m e pos)
    (k : y.toModel.unpack = .finite t n f pos') :
    ∃ i e : ℤ, exact x + exact y = i * 2 ^ e ∧
      x + y = .ofModel (.pack (normalize Format.binary64 i e .positive)) := by
  refine ⟨s.apply (decreaseExponent m e (min e f)).1 + t.apply (decreaseExponent n f (min e f)).1,
    min e f, ?_, ?_⟩
  · rw [Int.cast_add, add_mul, apply_decreaseExponent s m (min_le_left e f),
      apply_decreaseExponent t n (min_le_right e f), exact_of_finite h, exact_of_finite k]
  · change Float.ofModel (.pack (add Format.binary64 x.toModel.unpack y.toModel.unpack)) = _
    rw [h, k]
    rfl

/-- A sum of finite doubles is the exact sum rounded. -/
theorem rounds_add {x y : Float} (finite : x.isFinite = true) (finite' : y.isFinite = true) :
    Rounds (exact x + exact y) (x + y) := by
  change Rounds _ (.ofModel (.pack (add Format.binary64 x.toModel.unpack y.toModel.unpack)))
  obtain ⟨s, h⟩ | ⟨s, m, e, c, -, h⟩ := finite_cases finite <;>
    obtain ⟨t, k⟩ | ⟨t, n, f, d, -, k⟩ := finite_cases finite'
  · rw [exact_of_zero h, exact_of_zero k, h, k]
    cases s <;> cases t <;> exact .zero (add_zero 0) rfl (exact_of_zero rfl)
  · have same : add Format.binary64 x.toModel.unpack y.toModel.unpack = y.toModel.unpack := by
      rw [h, k]
      rfl
    rw [exact_of_zero h, zero_add, same, pack_unpack]
    exact rounds_exact finite'
  · have same : add Format.binary64 x.toModel.unpack y.toModel.unpack = x.toModel.unpack := by
      rw [h, k]
      rfl
    rw [exact_of_zero k, add_zero, same, pack_unpack]
    exact rounds_exact finite
  · obtain ⟨i, e, value, sum⟩ := add_eq_normalize h k
    change Rounds _ (x + y)
    rw [value, sum]
    exact rounds_normalize i e

theorem unpacked_sub_eq (a b : UnpackedFloat) :
    sub Format.binary64 a b = add Format.binary64 a b.neg := by
  cases a with
  | notANumber => rfl
  | infinity s => cases b <;> rfl
  | zero s => cases b <;> rfl
  | finite s m e pos =>
    cases b with
    | notANumber | infinity t | zero t => rfl
    | finite t n f pos' =>
      have opposite (k : ℤ) : s.apply (decreaseExponent m e (min e f)).1 - t.apply k =
          s.apply (decreaseExponent m e (min e f)).1 + (-t).apply k := by
        cases t <;> simp [Sign.apply, sub_eq_add_neg]
      exact congrArg (normalize Format.binary64 · (min e f) .positive) (opposite _)

theorem sub_eq (x y : Float) : x - y = x + -y := by
  change Float.ofModel (.pack (sub Format.binary64 x.toModel.unpack y.toModel.unpack)) =
    .ofModel (.pack (add Format.binary64 x.toModel.unpack (-y).toModel.unpack))
  rw [unpacked_sub_eq, unpack_neg]

theorem rounds_sub {x y : Float} (finite : x.isFinite = true) (finite' : y.isFinite = true) :
    Rounds (exact x - exact y) (x - y) := by
  have rounds := rounds_add finite ((isFinite_neg y).trans finite')
  rwa [exact_neg, ← sub_eq_add_neg, ← sub_eq] at rounds

section Sides

variable {v : ℚ} {x y : Float}

theorem exact_lt_overflow (finite : x.isFinite = true) : exact x < overflow := by
  obtain ⟨s, h⟩ | ⟨s, m, e, c, le, h⟩ := finite_cases finite
  · rw [exact_of_zero h]
    unfold overflow
    positivity
  · have nonneg : (0 : ℚ) ≤ m * 2 ^ e := by positivity
    refine lt_of_le_of_lt ?_ (c.lt_overflow_iff.2 le)
    rw [exact_of_finite h]
    cases s
    · simp only [Sign.apply]
      push_cast
      linarith
    · simp [Sign.apply]

theorem exact_le_rounded (nonneg : 0 ≤ v) (finite : y.isFinite = true) (le : exact y ≤ v) :
    exact y ≤ rounded v := by
  have near := abs_sub_rounded_le_exact nonneg finite
  rw [abs_of_nonneg (sub_nonneg.2 le)] at near
  linarith [le_abs_self (v - rounded v)]

theorem rounded_le_exact (nonneg : 0 ≤ v) (finite : y.isFinite = true) (le : v ≤ exact y) :
    rounded v ≤ exact y := by
  have near := abs_sub_rounded_le_exact nonneg finite
  rw [abs_of_nonpos (sub_nonpos.2 le)] at near
  linarith [neg_abs_le (v - rounded v)]

theorem Rounds.ge_or (h : Rounds v x) (finite : y.isFinite = true) (le : exact y ≤ v) :
    x = infinity ∨ x.isFinite = true ∧ exact y ≤ exact x := by
  cases h with
  | above positive held =>
    cases held with
    | finite _ known _ value =>
      exact .inr ⟨known, value ▸ exact_le_rounded positive.le finite le⟩
    | infinite => exact .inl rfl
  | zero zero known value => exact .inr ⟨known, by rw [value, ← zero]; exact le⟩
  | below negative held =>
    have finite' : (-y).isFinite = true := (isFinite_neg y).trans finite
    have most : rounded (-v) ≤ exact (-y) :=
      rounded_le_exact (neg_nonneg.2 negative.le) finite' (by rw [exact_neg]; linarith)
    obtain ⟨known, -, value⟩ := held.of_lt (most.trans_lt (exact_lt_overflow finite'))
    rw [isFinite_neg] at known
    rw [exact_neg] at value most
    exact .inr ⟨known, by linarith⟩

theorem Rounds.le_or (h : Rounds v x) (finite : y.isFinite = true) (le : v ≤ exact y) :
    x = -infinity ∨ x.isFinite = true ∧ exact x ≤ exact y := by
  have finite' : (-y).isFinite = true := (isFinite_neg y).trans finite
  obtain infinite | ⟨known, most⟩ := h.neg.ge_or finite' (by rw [exact_neg]; linarith)
  · have back : - -x = x := negation_involutive x
    exact .inl (by rw [← back, infinite])
  · rw [isFinite_neg] at known
    rw [exact_neg, exact_neg] at most
    exact .inr ⟨known, by linarith⟩

theorem Rounds.exact_eq (h : Rounds (exact y) x) (finite : y.isFinite = true) :
    x.isFinite = true ∧ exact x = exact y := by
  obtain rfl | ⟨known, least⟩ := h.ge_or finite le_rfl
  · obtain same | ⟨known, -⟩ := h.le_or finite le_rfl
    · exact absurd same (by decide)
    · contradiction
  · obtain rfl | ⟨-, most⟩ := h.le_or finite le_rfl
    · contradiction
    · exact ⟨known, le_antisymm most least⟩

theorem eq_of_exact_eq_of_ne (finite : x.isFinite = true) (finite' : y.isFinite = true)
    (same : exact x = exact y) (nonzero : exact y ≠ 0) : x = y := by
  have negative {z : Float} (known : z.isFinite = true) (sign : isNegative z = true) :
      exact z ≤ 0 := by
    have nonneg := exact_nonneg (x := -z) (by rw [isNegative_neg known, sign]; rfl)
    rw [exact_neg] at nonneg
    linarith
  refine eq_of_exact_eq finite finite' ?_ same
  cases sign : isNegative x <;> cases sign' : isNegative y
  · rfl
  · have := exact_nonneg sign
    have := negative finite' sign'
    exact absurd (by linarith) nonzero
  · have := negative finite sign
    have := exact_nonneg sign'
    exact absurd (by linarith) nonzero
  · rfl

theorem not_infinity_lt (y : Float) : ¬infinity < y := by
  change ¬decide ((infinity : Float).toModel.unpack.lt y.toModel.unpack = true) = true
  have unpacked : (infinity : Float).toModel.unpack = .infinity .positive := rfl
  rw [unpacked]
  cases y.toModel.unpack with
  | infinity s => cases s <;> decide
  | notANumber | zero | finite => simp [UnpackedFloat.lt, UnpackedFloat.compare]

theorem not_lt_neg_infinity (y : Float) : ¬y < -infinity := by
  change ¬decide (y.toModel.unpack.lt (-infinity : Float).toModel.unpack = true) = true
  have unpacked : (-infinity : Float).toModel.unpack = .infinity .negative := rfl
  rw [unpacked]
  cases y.toModel.unpack with
  | infinity s => cases s <;> decide
  | notANumber | zero | finite => simp [UnpackedFloat.lt, UnpackedFloat.compare]

theorem not_nan_lt (x : Float) : ¬nan < x := by
  change ¬decide ((nan : Float).toModel.unpack.lt x.toModel.unpack = true) = true
  have unpacked : (nan : Float).toModel.unpack = .notANumber := rfl
  rw [unpacked]
  simp [UnpackedFloat.lt, UnpackedFloat.compare]

theorem not_lt_neg_nan (x : Float) : ¬x < -nan := by
  change ¬decide (x.toModel.unpack.lt (-nan : Float).toModel.unpack = true) = true
  have unpacked : (-nan : Float).toModel.unpack = .notANumber := rfl
  rw [unpacked]
  cases x.toModel.unpack <;> simp [UnpackedFloat.lt, UnpackedFloat.compare]

end Sides

section Movement

variable {u v : ℚ}

theorem abs_sub_rounded_le_half (v : ℚ) : |v - rounded v| ≤ 2 ^ place v / 2 := by
  have power : (0 : ℚ) < 2 ^ place v := by positivity
  rw [rounded, abs_sub_place]
  have near := (isNearest_nearestInt (v / 2 ^ place v)).near
  calc |v / 2 ^ place v - nearestInt (v / 2 ^ place v)| * 2 ^ place v ≤ 1 / 2 * 2 ^ place v := by
        gcongr
    _ = 2 ^ place v / 2 := by ring

theorem rounded_ne (positive : 0 < v) (least : 2 ^ (-1074 : ℤ) ≤ |v - u|)
    (large : |u| < 2 ^ 53 * |v - u|) : rounded v ≠ u := by
  rintro rfl
  have half := abs_sub_rounded_le_half v
  by_cases normal : place v = -1074
  · have power : (0 : ℚ) < 2 ^ (-1074 : ℤ) := by positivity
    rw [normal] at half
    linarith
  · have full := le_rounded positive normal
    linarith [le_abs_self (rounded v)]

theorem Holds.exact_ne {x : Float} (held : Holds (rounded v) x) (positive : 0 < v)
    (finite : x.isFinite = true) (least : 2 ^ (-1074 : ℤ) ≤ |v - u|)
    (large : |u| < 2 ^ 53 * |v - u|) : exact x ≠ u := by
  cases held with
  | finite _ _ _ value => exact value ▸ rounded_ne positive least large
  | infinite => contradiction

theorem Rounds.exact_ne {x : Float} (h : Rounds v x) (finite : x.isFinite = true)
    (least : 2 ^ (-1074 : ℤ) ≤ |v - u|) (large : |u| < 2 ^ 53 * |v - u|) : exact x ≠ u := by
  cases h with
  | above positive held => exact held.exact_ne positive finite least large
  | zero zero _ value =>
    rintro rfl
    rw [zero, value, sub_zero, abs_zero] at least
    have power : (0 : ℚ) < 2 ^ (-1074 : ℤ) := by positivity
    exact absurd least power.not_ge
  | below negative held =>
    have mirror : |-v - -u| = |v - u| := by rw [neg_sub_neg, abs_sub_comm]
    rw [← mirror] at least large
    rw [← abs_neg u] at large
    have apart := held.exact_ne (neg_pos.2 negative) ((isFinite_neg x).trans finite) least large
    exact fun same => apart (by rw [exact_neg, same])

end Movement

end Reckoner.Double
