import Reckoner.Double.Text
import Reckoner.Proofs.Arithmetic

/-! The text of a double is read as that double. The digits of a finite double are found by a search
that tries shorter decimals before longer ones: it either stops at a decimal that is read as the
double, or goes on to the place where the exact value ends. Writing a decimal with its point in
place changes its digits and its exponent but not its value, and only the value matters in reading
it. -/
namespace Reckoner

namespace Decimal

open Double

def magnitude (d : Decimal) : ℚ := d.digits * 10 ^ d.exponent

theorem holds_toFloat (digits : ℕ) (exponent : ℤ) :
    Holds (rounded (magnitude ⟨false, digits, exponent⟩)) (toFloat ⟨false, digits, exponent⟩) := by
  cases exponent with
  | ofNat n => exact holds_ofScientific digits false n
  | negSucc n => exact holds_ofScientific digits true (n + 1)

theorem toFloat_eq (d : Decimal) : d.toFloat =
    if d.negative then -toFloat ⟨false, d.digits, d.exponent⟩
    else toFloat ⟨false, d.digits, d.exponent⟩ := rfl

theorem toFloat_congr {c d : Decimal} (sign : c.negative = d.negative)
    (same : c.magnitude = d.magnitude) : c.toFloat = d.toFloat := by
  have left : Holds (rounded c.magnitude) _ := holds_toFloat c.digits c.exponent
  have right : Holds (rounded d.magnitude) _ := holds_toFloat d.digits d.exponent
  rw [same] at left
  simp only [toFloat_eq c, toFloat_eq d, sign, left.unique right]

theorem units_eq (q : ℚ) (place : ℤ) : units q place = q / 10 ^ place := by
  rw [units, scaled_eq, Int.cast_one, one_mul, zpow_neg, div_eq_mul_inv]
  rfl

theorem toFloat_of_readsBackAt? {x : Float} {q : ℚ} {place : ℤ} {n : ℕ} (nonneg : 0 ≤ q)
    (found : readsBackAt? x q place = some n) : toFloat ⟨false, n, place⟩ = x := by
  have floor : 0 ≤ ⌊units q place⌋ := by
    rw [units_eq, Int.floor_nonneg]
    positivity
  have nearest : (nearestInt (units q place)).toNat = (units q place).floor.toNat ∨
      (nearestInt (units q place)).toNat = (units q place).floor.toNat + 1 := by
    change _ = ⌊units q place⌋.toNat ∨ _ = ⌊units q place⌋.toNat + 1
    have := nearestInt_floor_or (units q place)
    omega
  simp only [readsBackAt?, decide_eq_true_eq] at found
  split_ifs at found with low both high
  · cases found
    obtain here | here := nearest <;> rw [here] <;> assumption
  · cases found
    exact low
  · cases found
    exact high

/-- The search ends at a decimal that is read as the double, if the last place it may go to has the
exact value on its grid. -/
theorem toFloat_search {x : Float} {q : ℚ} (rounds : Holds (rounded q) x) {n : ℕ} (steps : ℕ)
    (place : ℤ) (grid : q = n * 10 ^ (place - steps)) :
    toFloat { search x q steps place with negative := false } = x := by
  induction steps generalizing place with
  | zero =>
    rw [Nat.cast_zero, sub_zero] at grid
    have count : (units q place).floor.toNat = n := by
      change ⌊units q place⌋.toNat = n
      rw [units_eq, grid, mul_div_cancel_right₀ _ (by positivity), Int.floor_natCast,
        Int.toNat_natCast]
    have value : magnitude ⟨false, (units q place).floor.toNat, place⟩ = q := by
      rw [magnitude, count, grid]
    have read := holds_toFloat (units q place).floor.toNat place
    rw [value] at read
    exact read.unique rounds
  | succ steps ih =>
    have nonneg : 0 ≤ q := by
      rw [grid]
      positivity
    rw [search]
    cases found : readsBackAt? x q place with
    | some n => exact toFloat_of_readsBackAt? nonneg found
    | none =>
      refine ih (place - 1) ?_
      rw [grid]
      congr 2
      push_cast
      ring

theorem digitCount_le {n k : ℕ} (lt : n < 10 ^ k) : digitCount n ≤ k := by
  induction k generalizing n with
  | zero =>
    obtain rfl : n = 0 := by simpa using lt
    simp [digitCount]
  | succ k ih =>
    rw [digitCount]
    split
    · omega
    · have shorter : n / 10 < 10 ^ k := by
        rw [Nat.div_lt_iff_lt_mul (by decide)]
        exact lt.trans_eq (pow_succ 10 k)
      exact Nat.succ_le_succ (ih shorter)

theorem neg_le_leadingPlace {q : ℚ} {j : ℕ} (den : q.den = 2 ^ j) : -j ≤ leadingPlace q + 1 := by
  rw [leadingPlace]
  split
  · rw [Int.ofNat_eq_natCast]
    omega
  · have lt : (q.den - 1) / q.num.natAbs < 10 ^ j := by
      calc (q.den - 1) / q.num.natAbs ≤ q.den - 1 := Nat.div_le_self _ _
        _ < 2 ^ j := by rw [den]; exact Nat.sub_one_lt (by positivity)
        _ ≤ 10 ^ j := Nat.pow_le_pow_left (by decide) j
    have := digitCount_le lt
    rw [Int.ofNat_eq_natCast]
    omega

theorem eq_mul_of_den {q : ℚ} {j : ℕ} (nonneg : 0 ≤ q) (den : q.den = 2 ^ j) :
    q = (q.num.toNat * 5 ^ j : ℕ) * 10 ^ (-j : ℤ) := by
  have num : ((q.num.toNat : ℕ) : ℚ) = q.num := by
    exact_mod_cast Int.toNat_of_nonneg (Rat.num_nonneg.2 nonneg)
  have ten : (10 : ℚ) ^ j = 2 ^ j * 5 ^ j := by rw [← mul_pow]; norm_num
  conv_lhs => rw [← Rat.num_div_den q, den]
  rw [Nat.cast_mul, num, zpow_neg, zpow_natCast, ten]
  push_cast
  field_simp

theorem exists_den_eq {x : Float} (finite : x.isFinite = true) : ∃ j, (exact x).den = 2 ^ j := by
  obtain ⟨s, h⟩ | ⟨s, m, e, c, -, h⟩ := finite_cases finite
  · exact ⟨0, by rw [exact_of_zero h]; rfl⟩
  · rw [exact_of_finite h]
    cases e with
    | ofNat n =>
      refine ⟨0, ?_⟩
      rw [Int.ofNat_eq_natCast, zpow_natCast]
      exact_mod_cast Rat.den_intCast (s.apply m * 2 ^ n)
    | negSucc n =>
      have divides : ((s.apply m / (2 ^ (n + 1) : ℤ) : ℚ).den : ℤ) ∣ 2 ^ (n + 1) := by
        exact_mod_cast Rat.den_dvd (s.apply m) (2 ^ (n + 1))
      obtain ⟨j, -, den⟩ := (Nat.dvd_prime_pow Nat.prime_two).1 (by exact_mod_cast divides)
      refine ⟨j, ?_⟩
      rw [zpow_negSucc, ← div_eq_mul_inv]
      exact_mod_cast den

theorem shortest_eq {x : Float} (finite : x.isFinite = true) :
    ∃ d : Decimal, shortest x = { d with negative := isNegative x } ∧
      toFloat { d with negative := false } = x.abs := by
  have finiteAbs : x.abs.isFinite = true := (isFinite_abs x).trans finite
  have rounds : Holds (rounded (exact x.abs)) x.abs := holds_exact finiteAbs (isNegative_abs x)
  have nonneg : 0 ≤ exact x.abs := (exact_abs x).symm ▸ abs_nonneg _
  unfold shortest
  dsimp only
  split
  · next zero =>
    have value : magnitude ⟨false, 0, 0⟩ = exact x.abs := by
      rw [Rat.num_eq_zero.1 zero]
      simp [magnitude]
    rw [← value] at rounds
    exact ⟨⟨false, 0, 0⟩, rfl, (holds_toFloat 0 0).unique rounds⟩
  · obtain ⟨j, den⟩ := exists_den_eq finiteAbs
    have low := neg_le_leadingPlace den
    have last : leadingPlace (exact x.abs) + 1 -
        (leadingPlace (exact x.abs) + 1 + Int.ofNat (exact x.abs).den.log2).toNat = -j := by
      rw [den, Nat.log2_two_pow, Int.ofNat_eq_natCast]
      omega
    exact ⟨_, rfl, toFloat_search rounds _ _ (last.symm ▸ eq_mul_of_den nonneg den)⟩

theorem toFloat_shortest {x : Float} (finite : x.isFinite = true) : (shortest x).toFloat = x := by
  obtain ⟨d, short, unsigned⟩ := shortest_eq finite
  rw [short, toFloat_eq, unsigned]
  dsimp only
  split
  · next negative => exact neg_abs_of_negative negative
  · next positive => exact abs_of_not_negative (Bool.eq_false_iff.2 positive)

structure Positional (negative : Bool) (whole fraction text : List Char) : Prop where
  layout : text = (if negative then ['-'] else []) ++ whole ++
    if fraction = [] then [] else '.' :: fraction
  nonempty : whole ≠ []
  whole_digits : ∀ c ∈ whole, c.isDigit = true
  fraction_digits : ∀ c ∈ fraction, c.isDigit = true

theorem isDigit_toDigits (n : ℕ) : ∀ c ∈ Nat.toDigits 10 n, c.isDigit = true :=
  fun _ member => Nat.isDigit_of_mem_toDigits (by decide) (by decide) member

theorem isDigit_replicate_zero (n : ℕ) : ∀ c ∈ List.replicate n '0', c.isDigit = true := by
  intro c member
  rw [List.eq_of_mem_replicate member]
  rfl

/-- The text is that of the decimal: its digits with the point in place. No zeros stand before the
first digit but the one that a point needs, and none after the last digit behind a point. -/
def Writes (d : Decimal) (text : List Char) : Prop :=
  ∃ whole fraction, Positional d.negative whole fraction text ∧
    (ofDigits (whole ++ fraction) : ℚ) / 10 ^ fraction.length = d.magnitude ∧
    (whole = ['0'] ∨ whole.head? = (Nat.toDigits 10 d.digits).head?) ∧
    (fraction = [] ∨ fraction.getLast? = (Nat.toDigits 10 d.digits).getLast?)

theorem writes_layout_nonneg (negative : Bool) (digits n : ℕ) :
    Writes ⟨negative, digits, .ofNat n⟩ (layout ⟨negative, digits, .ofNat n⟩) := by
  refine ⟨Nat.toDigits 10 digits ++ List.replicate n '0', [], ⟨?_, ?_, ?_, ?_⟩, ?_, .inr ?_,
    .inl rfl⟩
  · cases negative <;> simp [layout]
  · simp [Nat.toDigits_ne_nil]
  · exact List.forall_mem_append.2 ⟨isDigit_toDigits digits, isDigit_replicate_zero n⟩
  · simp
  · simp [ofDigits, magnitude, Nat.ofDigitChars_append, mul_comm]
  · exact List.head?_append_of_ne_nil _ Nat.toDigits_ne_nil

theorem writes_layout_neg (negative : Bool) (digits n : ℕ) :
    Writes ⟨negative, digits, .negSucc n⟩ (layout ⟨negative, digits, .negSucc n⟩) := by
  have value (whole fraction : List Char) (read : ofDigits (whole ++ fraction) = digits)
      (length : fraction.length = n + 1) : (ofDigits (whole ++ fraction) : ℚ) /
        10 ^ fraction.length = magnitude ⟨negative, digits, .negSucc n⟩ := by
    rw [read, length, magnitude, zpow_negSucc, div_eq_mul_inv]
  have read : ofDigits (Nat.toDigits 10 digits) = digits := Nat.ofDigitChars_ten_toDigits
  have all := isDigit_toDigits digits
  have nonempty : Nat.toDigits 10 digits ≠ [] := Nat.toDigits_ne_nil
  simp only [layout, Writes]
  generalize Nat.toDigits 10 digits = ds at read all nonempty
  by_cases none : ds.length - (n + 1) = 0
  · -- The point stands before all digits, with zeros between them.
    refine ⟨['0'], List.replicate (n + 1 - ds.length) '0' ++ ds, ⟨?_, ?_, ?_, ?_⟩, value _ _ ?_ ?_,
      .inl rfl, .inr (List.getLast?_append_of_ne_nil _ nonempty)⟩
    · cases negative <;> simp [none, nonempty]
    · simp
    · simp
    · exact List.forall_mem_append.2 ⟨isDigit_replicate_zero _, all⟩
    · simpa [ofDigits, Nat.ofDigitChars_append, Nat.ofDigitChars_cons] using read
    · simp only [List.length_append, List.length_replicate]
      omega
  · have length : (ds.drop (ds.length - (n + 1))).length = n + 1 := by
      rw [List.length_drop]
      omega
    have fraction : ds.drop (ds.length - (n + 1)) ≠ [] := by
      intro empty
      simp [empty] at length
    refine ⟨ds.take (ds.length - (n + 1)), ds.drop (ds.length - (n + 1)), ⟨?_, ?_, ?_, ?_⟩,
      value _ _ ?_ length, .inr ?_, .inr ?_⟩
    · cases negative <;> simp [none, fraction]
    · simp [none, nonempty]
    · exact fun c member => all c (List.mem_of_mem_take member)
    · exact fun c member => all c (List.mem_of_mem_drop member)
    · rw [List.take_append_drop, read]
    · rw [List.head?_take, if_neg none]
    · rw [List.getLast?_drop, if_neg (by omega)]

theorem writes_layout (d : Decimal) : Writes d d.layout := by
  obtain ⟨negative, digits, n | n⟩ := d
  · exact writes_layout_nonneg negative digits n
  · exact writes_layout_neg negative digits n

theorem splitSign_of_isDigit {c : Char} (digit : c.isDigit = true) (rest : List Char) :
    splitSign (c :: rest) = (false, c :: rest) := by
  unfold splitSign
  split
  · next here => cases here; contradiction
  · next here => cases here; contradiction
  · rfl

namespace Positional

variable {negative : Bool} {whole fraction text : List Char}

theorem splitSign_eq (h : Positional negative whole fraction text) : splitSign text =
    (negative, whole ++ if fraction = [] then [] else '.' :: fraction) := by
  obtain ⟨c, rest, rfl⟩ := List.exists_cons_of_ne_nil h.nonempty
  rw [h.layout]
  cases negative
  · exact splitSign_of_isDigit (h.whole_digits c (by simp)) _
  · rfl

theorem readPlaces_eq (h : Positional negative whole fraction text) :
    readPlaces (whole ++ if fraction = [] then [] else '.' :: fraction) =
      (whole, fraction, []) := by
  unfold readPlaces
  split_ifs with none
  · have digits := h.whole_digits
    rw [List.append_nil, List.takeWhile_eq_self_iff.2 digits, List.dropWhile_eq_nil_iff.2 digits,
      none]
  · rw [List.takeWhile_append_of_pos h.whole_digits, List.dropWhile_append_of_pos h.whole_digits]
    simp [List.takeWhile_eq_self_iff.2 h.fraction_digits,
      List.dropWhile_eq_nil_iff.2 h.fraction_digits]

theorem read?_eq (h : Positional negative whole fraction text) :
    read? text = some ⟨negative, ofDigits (whole ++ fraction), -fraction.length⟩ := by
  have nonempty := h.nonempty
  simp only [read?, h.splitSign_eq, h.readPlaces_eq]
  simp [nonempty, readExponent?]

theorem splitSign_ne (h : Positional negative whole fraction text) {c : Char}
    (letter : c.isDigit = false) (rest : List Char) :
    String.ofList ((splitSign text).2.map Char.toLower) ≠ String.ofList (c :: rest) := by
  obtain ⟨d, others, rfl⟩ := List.exists_cons_of_ne_nil h.nonempty
  have digit := h.whole_digits d (by simp)
  have lower : d.toLower = d := by
    have most : d.val ≤ 57 := by simp_all [Char.isDigit]
    unfold Char.toLower
    split
    · next upper => exact absurd (UInt32.le_trans upper.1 most) (by decide)
    · rfl
  rw [h.splitSign_eq]
  intro same
  have heads := String.ofList_inj.1 same
  simp only [List.cons_append, List.map_cons, List.cons.injEq, lower] at heads
  rw [heads.1, letter] at digit
  contradiction

end Positional

theorem map_toFloat_read?_layout (d : Decimal) : (read? d.layout).map toFloat = some d.toFloat := by
  obtain ⟨whole, fraction, positional, value, -⟩ := writes_layout d
  rw [positional.read?_eq, Option.map_some]
  congr 1
  refine toFloat_congr rfl ?_
  rw [← value, magnitude, zpow_neg, zpow_natCast, div_eq_mul_inv]

end Decimal

namespace Double

theorem read?_layout (d : Decimal) : read? d.layout = some d.toFloat := by
  obtain ⟨whole, fraction, positional, -⟩ := Decimal.writes_layout d
  have nan : _ ≠ "nan" := positional.splitSign_ne (c := 'n') rfl ['a', 'n']
  have inf : _ ≠ "inf" := positional.splitSign_ne (c := 'i') rfl ['n', 'f']
  have infinity : _ ≠ "infinity" :=
    positional.splitSign_ne (c := 'i') rfl ['n', 'f', 'i', 'n', 'i', 't', 'y']
  simp only [read?, nan, inf, infinity, if_false, Bool.or_false, decide_false, Bool.false_eq_true]
  exact Decimal.map_toFloat_read?_layout d

/-- Every double has a text that is read as the double. -/
theorem read?_render (x : Float) : read? (render x) = some x := by
  unfold render
  split_ifs with undefined infinite negative
  · rw [eq_nan undefined]
    rfl
  · rw [eq_infinity infinite, if_pos negative]
    rfl
  · rw [eq_infinity infinite, if_neg negative]
    rfl
  · rw [read?_layout, Decimal.toFloat_shortest (isFinite_of_not undefined infinite)]

theorem render_injective : Function.Injective render := by
  intro x y same
  have read := read?_render x
  rw [same, read?_render y] at read
  exact (Option.some.inj read).symm

end Double

end Reckoner
