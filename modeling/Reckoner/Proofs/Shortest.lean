import Reckoner.Proofs.Nearest
import Reckoner.Proofs.Reading

/-! The decimal that a double is written as. A decimal is read as the double that is nearest to its
value, so that the decimals read as one double have no gaps between them. The search for the
shortest one therefore looks only at the two neighbours of the double on each grid, and where it
stops, no decimal on a coarser grid is read as the double, nor is any decimal with fewer digits. -/
namespace Reckoner

namespace Decimal

open Double

def value (d : Decimal) : ℚ := if d.negative then -d.magnitude else d.magnitude

/-- `d` is read as the finite double `x`: they have the same sign, and of all doubles `x` is the
nearest to the value of `d`. -/
def Reads (d : Decimal) (x : Float) : Prop := isNegative x = d.negative ∧ Nearest d.value x

section Sign

variable {d : Decimal} {x : Float}

theorem toFloat_unsigned_iff {digits : ℕ} {exponent : ℤ} (finite : x.isFinite = true)
    (sign : isNegative x = false) :
    toFloat ⟨false, digits, exponent⟩ = x ↔ Nearest (digits * 10 ^ exponent) x := by
  have nonneg : (0 : ℚ) ≤ digits * 10 ^ exponent := by positivity
  have held : Holds (rounded (digits * 10 ^ exponent)) _ := holds_toFloat digits exponent
  constructor
  · intro read
    rw [read] at held
    exact held.nearest nonneg finite
  · intro nearest
    exact nearest.eq_of_holds sign nonneg held

theorem toFloat_eq_iff_abs : d.toFloat = x ↔
    isNegative x = d.negative ∧ toFloat ⟨false, d.digits, d.exponent⟩ = x.abs := by
  obtain ⟨unsigned, signed⟩ := (holds_toFloat d.digits d.exponent).isNegative_neg
  rw [toFloat_eq]
  generalize toFloat ⟨false, d.digits, d.exponent⟩ = y at unsigned signed
  cases d.negative with
  | false =>
    constructor
    · rintro rfl
      exact ⟨unsigned, (abs_of_not_negative unsigned).symm⟩
    · rintro ⟨sign, rfl⟩
      exact abs_of_not_negative sign
  | true =>
    constructor
    · rintro rfl
      exact ⟨signed, by rw [if_pos rfl, abs_neg_eq, abs_of_not_negative unsigned]⟩
    · rintro ⟨sign, rfl⟩
      exact neg_abs_of_negative sign

theorem reads_iff_abs : d.Reads x ↔ isNegative x = d.negative ∧ Nearest d.magnitude x.abs := by
  refine and_congr_right fun sign => ?_
  unfold value
  cases negative : d.negative with
  | false => rw [abs_of_not_negative (sign.trans negative), if_neg (by simp)]
  | true =>
    have back := neg_abs_of_negative (sign.trans negative)
    have other : -x = x.abs := by
      conv_lhs => rw [← back]
      exact negation_involutive x.abs
    rw [if_pos rfl]
    constructor
    · intro nearest
      simpa [other] using nearest.neg
    · intro nearest
      simpa [back] using nearest.neg

theorem toFloat_eq_iff_reads (finite : x.isFinite = true) : d.toFloat = x ↔ d.Reads x := by
  rw [toFloat_eq_iff_abs, reads_iff_abs,
    toFloat_unsigned_iff ((isFinite_abs x).trans finite) (isNegative_abs x), magnitude]

end Sign

theorem floor_units {q : ℚ} (nonneg : 0 ≤ q) (place : ℤ) :
    ((units q place).floor.toNat : ℚ) * 10 ^ place ≤ q ∧
      q < ((units q place).floor.toNat + 1 : ℕ) * 10 ^ place := by
  have power : (0 : ℚ) < 10 ^ place := by positivity
  have floor : (((units q place).floor.toNat : ℕ) : ℚ) = ⌊q / 10 ^ place⌋ := by
    have least : 0 ≤ ⌊q / 10 ^ place⌋ := Int.floor_nonneg.2 (by positivity)
    rw [units_eq, ← Int.cast_natCast]
    exact congrArg Int.cast (Int.toNat_of_nonneg least)
  rw [Nat.cast_succ, floor, ← le_div_iff₀ power, ← div_lt_iff₀ power]
  exact ⟨Int.floor_le _, Int.lt_floor_add_one _⟩

theorem le_of_readsBackAt? {x : Float} {q : ℚ} {place : ℤ} {n : ℕ}
    (found : readsBackAt? x q place = some n) : n ≤ (units q place).floor.toNat + 1 := by
  have nearest : (nearestInt (units q place)).toNat ≤ (units q place).floor.toNat + 1 := by
    change _ ≤ ⌊units q place⌋.toNat + 1
    have := nearestInt_floor_or (units q place)
    omega
  simp only [readsBackAt?] at found
  split_ifs at found <;> cases found <;> omega

theorem search_cases (x : Float) (q : ℚ) (steps : ℕ) (place : ℤ) :
    ∃ (n : ℕ) (last : ℤ), search x q steps place = ⟨false, n, last⟩ ∧ last ≤ place ∧
      (∀ k, last < k → k ≤ place → readsBackAt? x q k = none) ∧
      (readsBackAt? x q last = some n ∨ n = (units q last).floor.toNat) := by
  induction steps generalizing place with
  | zero => exact ⟨_, place, rfl, le_rfl, fun k above below => by omega, .inr rfl⟩
  | succ steps ih =>
    rw [search]
    cases found : readsBackAt? x q place with
    | some n => exact ⟨n, place, rfl, le_rfl, fun k above below => by omega, .inl found⟩
    | none =>
      obtain ⟨n, last, here, le, passed, ends⟩ := ih (place - 1)
      refine ⟨n, last, here, by omega, fun k above below => ?_, ends⟩
      obtain rfl | less := below.eq_or_lt
      · exact found
      · exact passed k above (by omega)

/-- Where the search finds nothing, there is nothing to find: between the double and a decimal that
is read as it lies a neighbour of the double, or the decimal is a neighbour itself. -/
theorem not_nearest_of_readsBackAt? {x : Float} (finite : x.isFinite = true)
    (sign : isNegative x = false) {place : ℤ} (none : readsBackAt? x (exact x) place = none)
    (n : ℕ) : ¬Nearest (n * 10 ^ place) x := by
  intro nearest
  obtain ⟨low, high⟩ := floor_units (exact_nonneg sign) place
  have here := nearest_exact finite sign
  simp only [readsBackAt?, decide_eq_true_eq] at none
  split_ifs at none with below both above
  rw [toFloat_unsigned_iff finite sign] at below above
  obtain less | le := Nat.lt_or_ge (units (exact x) place).floor.toNat n
  · refine above (here.between nearest high.le ?_)
    gcongr
    exact less
  · refine below (nearest.between here ?_ low)
    gcongr

theorem lt_pow_digitCount (n : ℕ) : n < 10 ^ digitCount n := by
  fun_induction digitCount n with
  | case1 => decide
  | case2 n nonzero ih =>
    rw [pow_succ]
    omega

theorem pow_digitCount_le {n : ℕ} (nonzero : n ≠ 0) : 10 ^ digitCount n ≤ 10 * n := by
  fun_induction digitCount n with
  | case1 => contradiction
  | case2 n nonzero ih =>
    rw [pow_succ]
    by_cases last : n / 10 = 0
    · have none : digitCount 0 = 0 := by rw [digitCount, if_pos rfl]
      rw [last, none, pow_zero]
      omega
    · have := ih last
      omega

theorem lt_pow_leadingPlace {q : ℚ} (positive : 0 < q) : q < 10 ^ (leadingPlace q + 1) := by
  have num : 0 < q.num.natAbs := Int.natAbs_pos.2 (Rat.num_pos.2 positive).ne'
  have den := q.den_pos
  have fraction : q = q.num.natAbs / q.den := by
    rw [Nat.cast_natAbs, abs_of_pos (Rat.num_pos.2 positive), Rat.num_div_den]
  unfold leadingPlace
  dsimp only
  generalize q.num.natAbs = m at *
  generalize q.den = n at *
  have divisor : (0 : ℚ) < n := by exact_mod_cast den
  rw [fraction, div_lt_iff₀ divisor]
  split
  · rw [sub_add_cancel, Int.ofNat_eq_natCast, zpow_natCast]
    have whole := lt_pow_digitCount (m / n)
    rw [Nat.div_lt_iff_lt_mul den] at whole
    exact_mod_cast whole
  · next less =>
    have some : (n - 1) / m ≠ 0 := by
      rw [Nat.div_ne_zero_iff]
      omega
    have inverse : 10 ^ digitCount ((n - 1) / m) * m < 10 * n := calc
      10 ^ digitCount ((n - 1) / m) * m ≤ 10 * ((n - 1) / m) * m :=
        Nat.mul_le_mul_right m (pow_digitCount_le some)
      _ = 10 * ((n - 1) / m * m) := Nat.mul_assoc _ _ _
      _ ≤ 10 * (n - 1) := Nat.mul_le_mul_left 10 (Nat.div_mul_le_self _ _)
      _ < 10 * n := by omega
    have inverse : (10 ^ digitCount ((n - 1) / m) * m : ℚ) < 10 * n := by exact_mod_cast inverse
    rw [zpow_add_one₀ (by norm_num), zpow_neg, Int.ofNat_eq_natCast, zpow_natCast, mul_assoc,
      ← div_eq_inv_mul, lt_div_iff₀ (by positivity), mul_comm (m : ℚ)]
    exact inverse

/-- No digit of the decimals `m · 10 ^ k` is in vain for `x`: the last one is no zero, and decimals
that are read as `x` have no fewer digits. -/
structure Minimal (x : Float) (m : ℕ) : Prop where
  last : ¬10 ∣ m
  least : ∀ (n : ℕ) (k : ℤ), n ≠ 0 → Nearest (n * 10 ^ k) x →
    (Nat.digits 10 m).length ≤ (Nat.digits 10 n).length

theorem Minimal.of_coarsest {x : Float} {m : ℕ} {place : ℤ} (read : Nearest (m * 10 ^ place) x)
    (coarsest : ∀ k, place < k → ∀ n : ℕ, ¬Nearest (n * 10 ^ k) x) : Minimal x m := by
  constructor
  · -- With a zero at its end the decimal would lie on a coarser grid.
    rintro ⟨n, rfl⟩
    refine coarsest (place + 1) (by omega) n ?_
    rw [zpow_add_one₀ (by norm_num)]
    convert read using 1
    push_cast
    ring
  · intro n k nonzero other
    by_contra! fewer
    obtain ⟨c, length⟩ : ∃ c, (Nat.digits 10 m).length = c + 1 := Nat.exists_eq_add_one.2 (by omega)
    have most : n < 10 ^ c := (Nat.digits_length_le_iff (by decide) n).1 (by omega)
    have least : 10 ^ c ≤ m := (Nat.lt_digits_length_iff (by decide) m).1 (by omega)
    -- A power of ten lies between the two, is read as `x` as they are, and is on a coarser grid.
    have finer : k ≤ place := not_lt.1 fun coarser => coarsest k coarser n other
    have some : c ≠ 0 := by
      rintro rfl
      omega
    refine coarsest (place + c) (by omega) 1 ?_
    have power : ((1 : ℕ) * 10 ^ (place + c) : ℚ) = 10 ^ c * 10 ^ place := by
      rw [Nat.cast_one, one_mul, zpow_add₀ (by norm_num), zpow_natCast, mul_comm]
    rw [power]
    refine other.between read ?_ ?_
    · gcongr
      · exact_mod_cast most.le
      · norm_num
    · gcongr
      exact_mod_cast least

section Shortest

variable {x : Float}

theorem Minimal.of_search (finite : x.isFinite = true) (sign : isNegative x = false)
    (nonzero : exact x ≠ 0) {steps : ℕ} {found : Decimal}
    (search_eq : search x (exact x) steps (leadingPlace (exact x) + 1) = found)
    (read : Nearest (found.digits * 10 ^ found.exponent) x) : Minimal x found.digits := by
  set start := leadingPlace (exact x) + 1
  have positive : 0 < exact x := (exact_nonneg sign).lt_of_ne' nonzero
  obtain ⟨m, last, here, top, passed, ends⟩ := search_cases x (exact x) steps start
  rw [here] at search_eq
  subst search_eq
  obtain rfl | later := top.eq_or_lt
  · -- Above the leading place the neighbours are zero and one.
    have below : (units (exact x) start).floor.toNat = 0 := by
      have power : (0 : ℚ) < 10 ^ start := by positivity
      have less := (floor_units positive.le start).1.trans_lt (lt_pow_leadingPlace positive)
      rw [mul_lt_iff_lt_one_left power] at less
      exact Nat.lt_one_iff.1 (by exact_mod_cast less)
    have one : m = 1 := by
      have most : m ≤ (units (exact x) start).floor.toNat + 1 :=
        ends.elim le_of_readsBackAt? fun exactly => exactly ▸ Nat.le_succ _
      have some : m ≠ 0 := by
        rintro rfl
        rw [Nat.cast_zero, zero_mul] at read
        exact nonzero read.exact_eq_zero
      omega
    exact ⟨by dsimp only; omega, fun n k some _ => Nat.le_length_digits_le 10 m n (by omega)⟩
  · refine .of_coarsest read fun k above n other => ?_
    obtain le | high := le_or_gt k start
    · exact not_nearest_of_readsBackAt? finite sign (passed k above le) n other
    · -- A decimal on a grid coarser than the first lies on the first.
      have none := passed start later le_rfl
      refine not_nearest_of_readsBackAt? finite sign none (n * 10 ^ (k - start).toNat) ?_
      convert other using 1
      rw [Nat.cast_mul, mul_assoc, Nat.cast_pow, Nat.cast_ofNat, ← zpow_natCast,
        ← zpow_add₀ (by norm_num)]
      congr 2
      omega

def significant (d : Decimal) : ℕ := ((Nat.digits 10 d.digits).dropWhile (· = 0)).length

theorem dropWhile_digits (n k : ℕ) : (Nat.digits 10 (10 ^ k * n)).dropWhile (· = 0) =
    (Nat.digits 10 n).dropWhile (· = 0) := by
  obtain rfl | positive := Nat.eq_zero_or_pos n
  · rw [Nat.mul_zero]
  · rw [Nat.digits_base_pow_mul (by decide) positive]
    exact List.dropWhile_append_of_pos (by simp)

theorem dropWhile_digits_of_not_dvd {n : ℕ} (last : ¬10 ∣ n) :
    (Nat.digits 10 n).dropWhile (· = 0) = Nat.digits 10 n := by
  have positive : 0 < n := Nat.pos_of_ne_zero fun zero => last (zero ▸ dvd_zero 10)
  rw [Nat.digits_def' (by decide) positive]
  exact List.dropWhile_cons_of_neg (by simpa [Nat.dvd_iff_mod_eq_zero] using last)

theorem significant_congr {c d : Decimal} (same : c.magnitude = d.magnitude) :
    c.significant = d.significant := by
  wlog le : c.exponent ≤ d.exponent generalizing c d
  · exact (this same.symm (not_le.1 le).le).symm
  have digits : c.digits = 10 ^ (d.exponent - c.exponent).toNat * d.digits := by
    have power : (10 ^ c.exponent : ℚ) ≠ 0 := by positivity
    have shift : (10 ^ d.exponent : ℚ) =
        10 ^ (d.exponent - c.exponent).toNat * 10 ^ c.exponent := by
      rw [← zpow_natCast, ← zpow_add₀ (by norm_num)]
      congr 1
      omega
    rw [magnitude, magnitude, shift, ← mul_assoc] at same
    have same := mul_right_cancel₀ power same
    rw [mul_comm (d.digits : ℚ)] at same
    exact_mod_cast same
  rw [significant, significant, digits, dropWhile_digits]

theorem shortest_of_exact_eq_zero (zero : exact x.abs = 0) :
    shortest x = ⟨isNegative x, 0, 0⟩ := by
  rw [shortest, if_pos (Rat.num_eq_zero.2 zero)]

theorem minimal_shortest (finite : x.isFinite = true) (nonzero : exact x.abs ≠ 0) :
    Minimal x.abs (shortest x).digits := by
  have read := (reads_iff_abs.1 ((toFloat_eq_iff_reads finite).1 (toFloat_shortest finite))).2
  have zero : ¬(exact x.abs).num = 0 := fun zero => nonzero (Rat.num_eq_zero.1 zero)
  simp only [shortest, if_neg zero, magnitude] at read ⊢
  exact .of_search ((isFinite_abs x).trans finite) (isNegative_abs x) nonzero rfl read

/-- No decimal that is read as a double has fewer significant digits than its shortest one. -/
theorem significant_shortest_le (finite : x.isFinite = true) {d : Decimal} (read : d.Reads x) :
    (shortest x).significant ≤ d.significant := by
  by_cases zero : exact x.abs = 0
  · rw [shortest_of_exact_eq_zero zero]
    simp [significant]
  · have nearest := (reads_iff_abs.1 read).2
    have some : d.digits ≠ 0 := by
      intro none
      rw [magnitude, none, Nat.cast_zero, zero_mul] at nearest
      exact zero nearest.exact_eq_zero
    obtain ⟨last, least⟩ := minimal_shortest finite zero
    obtain ⟨k, n, last', digits⟩ := Nat.exists_eq_pow_mul_and_not_dvd some 10 (by decide)
    have positive : n ≠ 0 := fun none => last' (none ▸ dvd_zero 10)
    rw [significant, significant, digits, dropWhile_digits, dropWhile_digits_of_not_dvd last,
      dropWhile_digits_of_not_dvd last']
    refine least n (k + d.exponent) positive ?_
    convert nearest using 1
    rw [magnitude, digits, zpow_add₀ (by norm_num), zpow_natCast]
    push_cast
    ring

end Shortest

theorem digitChar_ne {n : ℕ} (digit : n < 10) (nonzero : n ≠ 0) : n.digitChar ≠ '0' := by
  decide +revert

theorem head?_toDigits_ne {n : ℕ} (nonzero : n ≠ 0) : (Nat.toDigits 10 n).head? ≠ some '0' := by
  induction n using Nat.strong_induction_on with
  | _ n ih =>
    rw [Nat.toDigits_eq_if (by decide)]
    split
    · next small => simpa using digitChar_ne small nonzero
    · rw [List.head?_append_of_ne_nil _ Nat.toDigits_ne_nil]
      exact ih (n / 10) (by omega) (by omega)

theorem getLast?_toDigits_ne {n : ℕ} (last : ¬10 ∣ n) :
    (Nat.toDigits 10 n).getLast? ≠ some '0' := by
  have shown : (n % 10).digitChar ≠ '0' := digitChar_ne (Nat.mod_lt n (by decide)) (by omega)
  rw [Nat.toDigits_eq_if (by decide)]
  split
  · next small =>
    rw [Nat.mod_eq_of_lt small] at shown
    simpa using shown
  · simpa using shown

theorem positional_shortest {x : Float} (finite : x.isFinite = true) :
    ∃ whole fraction, Positional (isNegative x) whole fraction (shortest x).layout ∧
      (ofDigits (whole ++ fraction) : ℚ) / 10 ^ fraction.length = (shortest x).magnitude ∧
      (whole = ['0'] ∨ whole.head? ≠ some '0') ∧ fraction.getLast? ≠ some '0' := by
  by_cases zero : exact x.abs = 0
  · rw [shortest_of_exact_eq_zero zero]
    refine ⟨['0'], [], ⟨?_, by simp, by simp, by simp⟩, ?_, .inl rfl, by simp⟩
    · cases isNegative x <;> rfl
    · have none : ofDigits ['0'] = 0 := rfl
      simp [magnitude, none]
  · have last := (minimal_shortest finite zero).last
    have nonzero : (shortest x).digits ≠ 0 := fun none => last (none ▸ dvd_zero 10)
    have sign : (shortest x).negative = isNegative x :=
      (toFloat_eq_iff_abs.1 (toFloat_shortest finite)).1.symm
    obtain ⟨whole, fraction, positional, same, starts, ends⟩ := writes_layout (shortest x)
    refine ⟨whole, fraction, sign ▸ positional, same, ?_, ?_⟩
    · obtain zero | head := starts
      · exact .inl zero
      · exact .inr (head ▸ head?_toDigits_ne nonzero)
    · obtain rfl | tail := ends
      · simp
      · exact tail ▸ getLast?_toDigits_ne last

end Decimal

namespace Double

theorem render_of_finite {x : Float} (finite : x.isFinite = true) :
    render x = (Decimal.shortest x).layout := by
  have kinds : x.isNaN = false ∧ x.isInf = false := by
    change x.toModel.unpack.isNaN = false ∧ x.toModel.unpack.isInf = false
    obtain ⟨s, h⟩ | ⟨s, m, e, c, -, h⟩ := finite_cases finite <;> rw [h] <;> exact ⟨rfl, rfl⟩
  rw [render, if_neg (Bool.eq_false_iff.1 kinds.1), if_neg (Bool.eq_false_iff.1 kinds.2)]

/-- The text of a finite double is a decimal without an exponent: a minus sign if the double has
one, a whole part without needless zeros, and a fraction that does not end in a zero or no fraction
at all. It is read as the double, the nearest one to its value, and no decimal with fewer
significant digits is. What is not finite has a word as its text. -/
theorem text_shortest (x : Float) :
    (x.isFinite = true →
      ∃ (whole fraction : List Char) (d : Decimal),
        Decimal.Positional (isNegative x) whole fraction (text x).toList ∧
        (whole = ['0'] ∨ whole.head? ≠ some '0') ∧ fraction.getLast? ≠ some '0' ∧
        Decimal.read? (text x).toList = some d ∧ d.Reads x ∧
        ∀ e : Decimal, (e.toFloat = x ↔ e.Reads x) ∧
          (e.Reads x → d.significant ≤ e.significant)) ∧
    (x.isInf = true → text x = if isNegative x then "-inf" else "inf") ∧
    (x.isNaN = true → text x = "NaN") := by
  have characters : (text x).toList = render x := String.toList_ofList
  refine ⟨fun finite => ?_, fun infinite => ?_, fun undefined => ?_⟩
  · obtain ⟨whole, fraction, positional, same, starts, ends⟩ := Decimal.positional_shortest finite
    rw [characters, render_of_finite finite]
    set d : Decimal := ⟨isNegative x, Decimal.ofDigits (whole ++ fraction), -fraction.length⟩
    have same : d.magnitude = (Decimal.shortest x).magnitude := by
      rw [← same, Decimal.magnitude, zpow_neg, zpow_natCast, div_eq_mul_inv]
    have sign : d.negative = (Decimal.shortest x).negative :=
      (Decimal.toFloat_eq_iff_abs.1 (Decimal.toFloat_shortest finite)).1
    have read : d.Reads x := by
      rw [← Decimal.toFloat_eq_iff_reads finite, Decimal.toFloat_congr sign same]
      exact Decimal.toFloat_shortest finite
    refine ⟨whole, fraction, d, positional, starts, ends, positional.read?_eq, read, fun e => ?_⟩
    refine ⟨Decimal.toFloat_eq_iff_reads finite, fun read => ?_⟩
    rw [Decimal.significant_congr same]
    exact Decimal.significant_shortest_le finite read
  · have number : ¬x.isNaN = true := by
      rw [eq_infinity infinite]
      split <;> decide
    rw [text, render, if_neg number, if_pos infinite]
    split <;> rfl
  · rw [text, render, if_pos undefined]

theorem text_shortest_midpoint :
    let x : Float := 1e23
    x.isFinite = true ∧ text x = "100000000000000000000000" ∧
      Decimal.Reads ⟨false, 10 ^ 23, 0⟩ x ∧ (∀ e : Decimal, e.Reads x → 1 ≤ e.significant) ∧
      (-infinity).isInf = true ∧ text (-infinity) = "-inf" ∧
      nan.isNaN = true ∧ text nan = "NaN" := by
  intro x
  have finite : x.isFinite = true := by decide +kernel
  have shown : text x = "100000000000000000000000" := by decide +kernel
  have digits : Decimal.significant ⟨false, 10 ^ 23, 0⟩ = 1 := by decide +kernel
  obtain ⟨whole, fraction, d, -, -, -, read, reads, least⟩ := (text_shortest x).1 finite
  obtain rfl : ⟨false, 10 ^ 23, 0⟩ = d := by
    rw [shown] at read
    exact Option.some.inj read
  exact ⟨finite, shown, reads, fun e reads => digits ▸ (least e).2 reads, rfl,
    (text_shortest (-infinity)).2.1 rfl, rfl, (text_shortest nan).2.2 rfl⟩

end Double

end Reckoner
