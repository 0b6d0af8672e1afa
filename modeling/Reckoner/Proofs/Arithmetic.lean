import Reckoner.Proofs.Rounding

/-! Products, quotients and decimals. Each is rounded once: the double is the one nearest to the
exact result. A decimal of few digits is computed as one product or quotient of two doubles, and any
other one from its digits, with the same outcome. -/
namespace Reckoner.Double

open Float.Model Float.Model.UnpackedFloat

theorem cut_exact (m : ℕ) (e : ℤ) :
    Cut (.ofMantissaAndAccuracy m .exact) (m * 2 ^ e / 2 ^ e : ℚ) :=
  .whole (mul_div_cancel_right₀ _ (by positivity))

theorem cut_div (a : ℕ) {b : ℕ} (pos : 0 < b) :
    Cut (.ofMantissaAndAccuracy (a / b) (accuracyOfFraction (a % b) b)) (a / b : ℚ) := by
  have positive : (0 : ℚ) < b := by exact_mod_cast pos
  have split : (a / b : ℚ) = (a / b : ℕ) + (a % b : ℕ) / b := by
    rw [div_eq_iff positive.ne', add_mul, div_mul_cancel₀ _ positive.ne', mul_comm]
    exact_mod_cast (Nat.div_add_mod a b).symm
  have less : ((a % b : ℕ) : ℚ) / b < 1 := by
    rw [div_lt_one positive]
    exact_mod_cast Nat.mod_lt a pos
  unfold accuracyOfFraction
  split
  · next none =>
    refine .whole ?_
    rw [split, none, Nat.cast_zero, zero_div, add_zero]
  · next some =>
    have more : (0 : ℚ) < (a % b : ℕ) / b := by
      have : (0 : ℚ) < (a % b : ℕ) := by exact_mod_cast Nat.pos_of_ne_zero some
      positivity
    have twice (c : ℕ) : (2 * c : ℚ) / b = 2 * ((c : ℚ) / b) := mul_div_assoc 2 _ _
    rw [split]
    cases order : compare (2 * (a % b)) b with
    | lt =>
      have below : (2 * (a % b : ℕ) : ℚ) / b < 1 := by
        rw [div_lt_one positive]
        exact_mod_cast Nat.compare_eq_lt.1 order
      exact .low (by linarith) (by linarith [twice (a % b)])
    | eq =>
      have equal : (2 * (a % b : ℕ) : ℚ) / b = 1 := by
        rw [div_eq_one_iff_eq positive.ne']
        exact_mod_cast Nat.compare_eq_eq.1 order
      exact .half (by linarith [twice (a % b)])
    | gt =>
      have above : 1 < (2 * (a % b : ℕ) : ℚ) / b := by
        rw [one_lt_div positive]
        exact_mod_cast Nat.compare_eq_gt.1 order
      exact .high (by linarith [twice (a % b)]) (by linarith)

theorem represents_mul (s t : Sign) {m n : ℕ} {e f : ℤ} (pos : 0 < m) (pos' : 0 < n)
    (le : e + f ≤ place ((m * n : ℕ) * 2 ^ (e + f))) :
    Represents (s * t) (mul Format.binary64 (.finite s m e pos) (.finite t n f pos'))
      (rounded (m * 2 ^ e * (n * 2 ^ f))) := by
  have value : (m * 2 ^ e * (n * 2 ^ f) : ℚ) = (m * n : ℕ) * 2 ^ (e + f) := by
    rw [zpow_add₀ two_ne_zero, Nat.cast_mul]
    ring
  have positive : (0 : ℚ) < (m * n : ℕ) * 2 ^ (e + f) := by positivity
  rw [value]
  exact represents_roundWithAccuracy (s * t) positive (cut_exact _ _) le

theorem represents_div (s t : Sign) {m n : ℕ} {e f : ℤ} (pos : 0 < m) (pos' : 0 < n) :
    Represents (s / t) (div Format.binary64 (.finite s m e pos) (.finite t n f pos'))
      (rounded (m * 2 ^ e / (n * 2 ^ f))) := by
  set v : ℚ := m * 2 ^ e / (n * 2 ^ f) with quotient
  set target := min (e - f)
    (Format.binary64.targetExponent (totalExponent m e - totalExponent n f)) with cutAt
  have positive : 0 < v := by positivity
  -- The lengths of the operands leave one bit of the length of the quotient open.
  have log : m.log2 + e - (n.log2 + 1 + f) ≤ Int.log 2 v := by
    have dividend : (2 ^ (m.log2 : ℤ) : ℚ) ≤ m := by
      exact_mod_cast Nat.log2_self_le pos.ne'
    have divisor : (n : ℚ) ≤ 2 ^ (n.log2 + 1 : ℤ) := by
      exact_mod_cast (Nat.lt_log2_self (n := n)).le
    rw [← Int.zpow_le_iff_le_log one_lt_two positive, Nat.cast_ofNat, zpow_sub₀ two_ne_zero,
      zpow_add₀ two_ne_zero, zpow_add₀ two_ne_zero (_ + 1), quotient]
    gcongr
  have le : target ≤ place v := by
    rw [cutAt, binary64_targetExponent, totalExponent, totalExponent, place]
    omega
  have shifted : v / 2 ^ target = (m <<< (e - f - target).toNat : ℕ) / n := by
    have exponents : ((e - f - target).toNat : ℤ) = e - f - target := by omega
    rw [Nat.shiftLeft_eq, Nat.cast_mul, Nat.cast_pow, Nat.cast_ofNat, ← zpow_natCast, exponents,
      zpow_sub₀ two_ne_zero, zpow_sub₀ two_ne_zero, quotient]
    field_simp
  have cut : Cut _ (v / 2 ^ target) := shifted ▸ cut_div (m <<< (e - f - target).toNat) pos'
  exact represents_roundWithAccuracy (s / t) positive cut le

theorem represents_round (s : Sign) {m : ℕ} (pos : 0 < m) (e : ℤ) :
    Represents s (round Format.binary64 s m e) (rounded (m * 2 ^ e)) := by
  have target : Format.binary64.targetExponent (totalExponent m e) = place (m * 2 ^ e) := by
    rw [place_natCast_mul pos, binary64_targetExponent, totalExponent, Nat.log2_eq_log_two]
    omega
  set shift := (e - place (m * 2 ^ e)).toNat with shiftBy
  have value : (m * 2 ^ e : ℚ) = (m <<< shift : ℕ) * 2 ^ (e - shift) := by
    rw [Nat.shiftLeft_eq, Nat.cast_mul, Nat.cast_pow, Nat.cast_ofNat, mul_assoc, ← zpow_natCast,
      ← zpow_add₀ two_ne_zero, add_sub_cancel]
  have cut : Cut (.ofMantissaAndAccuracy (m <<< shift) .exact) (m * 2 ^ e / 2 ^ (e - shift)) := by
    rw [value]
    exact cut_exact _ _
  unfold UnpackedFloat.round decreaseExponent
  rw [target]
  exact represents_roundWithAccuracy s (by positivity) cut (by omega)

theorem holds_mul {x y : Float} (finite : x.isFinite = true) (finite' : y.isFinite = true)
    (sign : isNegative x = false) (sign' : isNegative y = false) :
    Holds (rounded (exact x * exact y)) (x * y) := by
  change Holds _ (.ofModel (.pack (mul Format.binary64 x.toModel.unpack y.toModel.unpack)))
  obtain h | ⟨m, e, c, -, h⟩ := nonneg_cases finite sign
  · rw [exact_of_zero h, zero_mul, h]
    obtain k | ⟨n, f, d, -, k⟩ := nonneg_cases finite' sign' <;> rw [k] <;> exact holds_zero
  obtain k | ⟨n, f, d, -, k⟩ := nonneg_cases finite' sign'
  · rw [exact_of_zero k, mul_zero, h, k]
    exact holds_zero
  · rw [exact_of_finite h, exact_of_finite k, h, k]
    refine (represents_mul .positive .positive c.pos d.pos ?_).holds
    -- Either the product has its `53` bits, or both factors have the least exponent there is.
    have product : 0 < m * n := Nat.mul_pos c.pos d.pos
    rw [place_natCast_mul product]
    by_cases full : 2 ^ 52 ≤ m * n
    · have log : 52 ≤ Nat.log 2 (m * n) := Nat.le_log_of_pow_le one_lt_two full
      omega
    · have lowest : e = -1074 := c.full.resolve_left fun full' =>
        full (full'.trans (Nat.le_mul_of_pos_right m d.pos))
      have lowest' : f = -1074 := d.full.resolve_left fun full' =>
        full (full'.trans (Nat.le_mul_of_pos_left n c.pos))
      omega

theorem holds_div {x y : Float} (finite : x.isFinite = true) (finite' : y.isFinite = true)
    (sign : isNegative x = false) (sign' : isNegative y = false) (nonzero : exact y ≠ 0) :
    Holds (rounded (exact x / exact y)) (x / y) := by
  change Holds _ (.ofModel (.pack (div Format.binary64 x.toModel.unpack y.toModel.unpack)))
  obtain k | ⟨n, f, d, -, k⟩ := nonneg_cases finite' sign'
  · exact absurd (exact_of_zero k) nonzero
  obtain h | ⟨m, e, c, -, h⟩ := nonneg_cases finite sign
  · rw [exact_of_zero h, zero_div, h, k]
    exact holds_zero
  · rw [exact_of_finite h, exact_of_finite k, h, k]
    exact (represents_div .positive .positive c.pos d.pos).holds

theorem rounded_natCast {m : ℕ} (small : m ≤ 2 ^ 53) : rounded m = m := by
  obtain less | rfl := small.lt_or_eq
  · refine rounded_eq_self (n := m) (e := 0) (by simp) ?_
    obtain rfl | pos := Nat.eq_zero_or_pos m
    · simp [place]
    · have log : Nat.log 2 m < 53 := Nat.log_lt_of_lt_pow pos.ne' less
      have exponent := place_natCast_mul pos 0
      rw [zpow_zero, mul_one] at exponent
      omega
  · refine rounded_eq_self (n := 2 ^ 52) (e := 1) (by norm_num) ?_
    have exponent := place_natCast_mul (m := 2 ^ 53) (by positivity) 0
    rw [zpow_zero, mul_one, Nat.log_pow one_lt_two] at exponent
    omega

theorem holds_natCast {m : ℕ} (lt : m < 2 ^ 53) : Holds m m.toUInt64.toFloat := by
  have word : m.toUInt64.toNat = m := Nat.mod_eq_of_lt (by omega)
  change Holds m (.ofModel (.pack (normalize Format.binary64 m.toUInt64.toNat 0 .positive)))
  rw [word]
  obtain rfl | pos := Nat.eq_zero_or_pos m
  · exact_mod_cast Represents.zero.holds
  · have greater : compare (m : ℤ) 0 = .gt := Int.compare_eq_gt.2 (by exact_mod_cast pos)
    have rounds := (represents_round .positive pos 0).holds
    rw [zpow_zero, mul_one, rounded_natCast lt.le] at rounds
    unfold UnpackedFloat.normalize
    rw [greater]
    exact rounds

section Scientific

variable {m : ℕ} (pos : 0 < m) {e : ℤ}

include pos

theorem overflow_le_scientific (large : 1024 ≤ e) : overflow ≤ m * 10 ^ e := by
  have one : (1 : ℚ) ≤ m := by exact_mod_cast pos
  calc overflow ≤ 2 ^ e := zpow_le_zpow_right₀ one_le_two large
    _ ≤ 10 ^ e := zpow_le_zpow_left₀ (by omega) zero_le_two (by norm_num)
    _ ≤ m * 10 ^ e := le_mul_of_one_le_left (by positivity) one

theorem scientific_lt_half (small : e < -(1075 + m.log2)) :
    (m * 10 ^ e : ℚ) < 2 ^ (-1074 : ℤ) / 2 := by
  have digits : (m : ℚ) < 2 ^ (m.log2 + 1 : ℤ) := by exact_mod_cast Nat.lt_log2_self (n := m)
  have powers : (10 ^ e : ℚ) ≤ 2 ^ e := by
    rw [← neg_neg e, zpow_neg, zpow_neg 2]
    exact inv_anti₀ (by positivity) (zpow_le_zpow_left₀ (by omega) zero_le_two (by norm_num))
  calc (m * 10 ^ e : ℚ) ≤ m * 2 ^ e := by gcongr
    _ < 2 ^ (m.log2 + 1 : ℤ) * 2 ^ e := by gcongr
    _ = 2 ^ (m.log2 + 1 + e : ℤ) := (zpow_add₀ two_ne_zero _ _).symm
    _ ≤ 2 ^ (-1074 - 1 : ℤ) := zpow_le_zpow_right₀ one_le_two (by omega)
    _ = 2 ^ (-1074 : ℤ) / 2 := zpow_sub_one₀ two_ne_zero _

end Scientific

theorem scientific_eq_mul (m : ℕ) {e : ℤ} (nonneg : 0 ≤ e) : (m * 10 ^ e : ℚ) =
    (m <<< 53 : ℕ) * 2 ^ (-53 : ℤ) * ((10 ^ e.toNat : ℕ) * 2 ^ (0 : ℤ)) := by
  have shifted : ((m <<< 53 : ℕ) * 2 ^ (-53 : ℤ) : ℚ) = m := by
    rw [Nat.shiftLeft_eq, Nat.cast_mul, mul_assoc]
    norm_num
  rw [shifted, zpow_zero, mul_one, Nat.cast_pow, Nat.cast_ofNat, ← zpow_natCast,
    Int.toNat_of_nonneg nonneg]

theorem scientific_eq_div (m : ℕ) {e : ℤ} (nonpos : e ≤ 0) : (m * 10 ^ e : ℚ) =
    m * 2 ^ (0 : ℤ) / ((10 ^ (-e).toNat : ℕ) * 2 ^ (0 : ℤ)) := by
  obtain ⟨n, rfl⟩ : ∃ n : ℕ, e = -n := ⟨(-e).toNat, by omega⟩
  rw [neg_neg, Int.toNat_natCast, zpow_neg, zpow_natCast, zpow_zero, mul_one, mul_one,
    div_eq_mul_inv, Nat.cast_pow, Nat.cast_ofNat]

theorem holds_model_ofScientific (m : ℕ) (e : ℤ) :
    Holds (rounded (m * 10 ^ e)) (.ofModel (.ofScientific m e)) := by
  change Holds _ (.ofModel (.pack (UnpackedFloat.ofScientific Format.binary64 m e)))
  have exponents : (2 ^ Format.binary64.exponentBits : ℤ) = 2048 := rfl
  unfold UnpackedFloat.ofScientific
  simp only [exponents]
  split_ifs with none large small nonneg
  · rw [none, Nat.cast_zero, zero_mul]
    exact holds_zero
  · have pos := Nat.pos_of_ne_zero none
    exact .infinite (overflow_le_rounded (overflow_le_scientific pos (by omega)))
  · have pos := Nat.pos_of_ne_zero none
    rw [rounded_eq_zero (by positivity) (scientific_lt_half pos (by omega))]
    exact Represents.zero.holds
  · have pos := Nat.pos_of_ne_zero none
    have power : 0 < 10 ^ e.toNat := by positivity
    have long : 2 ^ 52 ≤ m <<< 53 * 10 ^ e.toNat := by
      rw [Nat.shiftLeft_eq, mul_right_comm]
      exact le_mul_of_one_le_of_le (Nat.mul_pos pos power) (by norm_num)
    have le : (-53 + 0 : ℤ) ≤ place ((m <<< 53 * 10 ^ e.toNat : ℕ) * 2 ^ (-53 + 0 : ℤ)) := by
      rw [place_natCast_mul (lt_of_lt_of_le (by norm_num) long)]
      have log := Nat.le_log_of_pow_le one_lt_two long
      omega
    rw [scientific_eq_mul m nonneg]
    exact (represents_mul .positive .positive _ _ le).holds
  · rw [scientific_eq_div m (not_le.1 nonneg).le]
    exact (represents_div .positive .positive _ _).holds

theorem exact_powerOfTen (e : Fin 23) :
    let power := Float.exactlyRepresentablePowersOfTen[e.val]
    power.isFinite = true ∧ isNegative power = false ∧ exact power = 10 ^ e.val := by
  decide +revert +kernel

theorem natCast_lt_overflow {m : ℕ} (lt : m < 2 ^ 53) : (m : ℚ) < overflow := by
  calc (m : ℚ) < 2 ^ (53 : ℤ) := by exact_mod_cast lt
    _ ≤ overflow := zpow_le_zpow_right₀ one_le_two (by norm_num)

/-- A decimal is rounded once, whichever way it is computed: where the digits and the power of ten
are doubles themselves, one product or quotient of doubles is enough. -/
theorem holds_ofScientific (m : ℕ) (s : Bool) (e : ℕ) :
    Holds (rounded (m * 10 ^ (if s then -e else e : ℤ))) (Float.ofScientific m s e) := by
  unfold Float.ofScientific
  by_cases small : m < 2 ^ 53 ∧ e ≤ 22
  · rw [dif_pos small]
    obtain ⟨finite, sign, digits⟩ := (holds_natCast small.1).of_lt (natCast_lt_overflow small.1)
    obtain ⟨finite', sign', power⟩ := exact_powerOfTen ⟨e, by omega⟩
    cases s with
    | true =>
      have rounds := holds_div finite finite' sign sign' (by rw [power]; positivity)
      rw [digits, power, div_eq_mul_inv, ← zpow_natCast, ← zpow_neg] at rounds
      exact rounds
    | false =>
      have rounds := holds_mul finite finite' sign sign'
      rw [digits, power, ← zpow_natCast] at rounds
      exact rounds
  · rw [dif_neg small]
    cases s with
    | true => exact Int.negOfNat_eq ▸ holds_model_ofScientific m (Int.negOfNat e)
    | false => exact holds_model_ofScientific m (Int.ofNat e)

theorem holds_ofNat (n : ℕ) : Holds (rounded n) (Float.ofNat n) := by
  have held := holds_ofScientific n false 0
  rwa [if_neg Bool.false_ne_true, Nat.cast_zero, zpow_zero, mul_one] at held

end Reckoner.Double
