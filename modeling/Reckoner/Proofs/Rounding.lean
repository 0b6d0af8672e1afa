import Reckoner.Proofs.Canonical

/-! How a value is rounded to a double. A mantissa with its round bit and its sticky bit says where
a value was cut off, and every shift keeps this true; so the two shifts of a rounding end at the
nearest multiple of a power of two that the size of the value alone determines, the even one of two
at the same distance. Below `overflow` that is a double; from there on infinity stands for it. -/
namespace Reckoner.Double

open Float.Model Float.Model.UnpackedFloat

structure IsNearest (q : ℚ) (n : ℤ) : Prop where
  near : |q - n| ≤ 1 / 2
  even : |q - n| = 1 / 2 → n % 2 = 0

theorem IsNearest.unique {q : ℚ} {m n : ℤ} (h : IsNearest q m) (k : IsNearest q n) : m = n := by
  -- Two integers that are both nearest are neighbours of a midpoint, and not both even.
  by_contra distinct
  wlog less : m < n generalizing m n
  · exact this k h (Ne.symm distinct) (by omega)
  have step : (m : ℚ) + 1 ≤ n := by exact_mod_cast less
  obtain ⟨-, above⟩ := abs_le.1 h.near
  obtain ⟨below, -⟩ := abs_le.1 k.near
  have next : (n : ℚ) = m + 1 := by linarith
  have evenBelow := h.even (by rw [abs_of_nonneg] <;> linarith)
  have evenAbove := k.even (by rw [abs_of_nonpos] <;> linarith)
  have next : n = m + 1 := by exact_mod_cast next
  omega

section Near

variable {q : ℚ} {n k : ℤ} (near : |q - n| ≤ 1 / 2)

include near

theorem le_of_near (le : q ≤ k) : n ≤ k := by
  by_contra above
  have step : (k : ℚ) + 1 ≤ n := by exact_mod_cast Int.lt_of_not_ge above
  linarith [(abs_le.1 near).1]

theorem ge_of_near (ge : k ≤ q) : k ≤ n := by
  by_contra below
  have step : (n : ℚ) + 1 ≤ k := by exact_mod_cast Int.lt_of_not_ge below
  linarith [(abs_le.1 near).2]

end Near

theorem IsNearest.le {q : ℚ} {n k : ℤ} (h : IsNearest q n) (le : q ≤ k) : n ≤ k :=
  le_of_near h.near le

theorem IsNearest.ge {q : ℚ} {n k : ℤ} (h : IsNearest q n) (ge : k ≤ q) : k ≤ n :=
  ge_of_near h.near ge

theorem nearestInt_eq (q : ℚ) : nearestInt q =
    if Int.fract q < 1 / 2 then ⌊q⌋
    else if 1 / 2 < Int.fract q then ⌊q⌋ + 1
    else if ⌊q⌋ % 2 = 0 then ⌊q⌋ else ⌊q⌋ + 1 := by
  have den : (0 : ℚ) < q.den := by exact_mod_cast q.den_pos
  have whole : q.num / Int.ofNat q.den = ⌊q⌋ := Rat.floor_def'.symm
  have rest : ((q.num % Int.ofNat q.den).toNat : ℚ) = Int.fract q * q.den := by
    have nonneg : 0 ≤ q.num % Int.ofNat q.den := Int.emod_nonneg _ (by simp)
    rw [← Int.cast_natCast, Int.toNat_of_nonneg nonneg, Int.emod_def, whole, Int.fract, sub_mul,
      Rat.mul_den_eq_num]
    simp [mul_comm]
  have isBelow : 2 * (q.num % Int.ofNat q.den).toNat < q.den ↔ Int.fract q < 1 / 2 := by
    rw [← Nat.cast_lt (α := ℚ), Nat.cast_mul, rest, Nat.cast_ofNat, ← mul_assoc,
      mul_lt_iff_lt_one_left den, lt_div_iff₀ two_pos, mul_comm]
  have isAbove : q.den < 2 * (q.num % Int.ofNat q.den).toNat ↔ 1 / 2 < Int.fract q := by
    rw [← Nat.cast_lt (α := ℚ), Nat.cast_mul, rest, Nat.cast_ofNat, ← mul_assoc,
      lt_mul_iff_one_lt_left den, div_lt_iff₀ two_pos, mul_comm]
  simp only [nearestInt, whole, isBelow, isAbove]

theorem isNearest_nearestInt (q : ℚ) : IsNearest q (nearestInt q) := by
  have nonneg := Int.fract_nonneg q
  have less := Int.fract_lt_one q
  have down : |q - ⌊q⌋| = Int.fract q := by
    rw [Int.self_sub_floor, abs_of_nonneg nonneg]
  have up : |q - (⌊q⌋ + 1 : ℤ)| = 1 - Int.fract q := by
    rw [Int.cast_add, Int.cast_one, ← sub_sub, Int.self_sub_floor, abs_of_nonpos] <;> linarith
  rw [nearestInt_eq]
  split_ifs with low high even
  · exact ⟨by linarith, fun tie => by linarith⟩
  · exact ⟨by linarith, fun tie => by linarith⟩
  · exact ⟨by linarith, fun _ => even⟩
  · exact ⟨by linarith, fun _ => by omega⟩

theorem nearestInt_eq_of_isNearest {q : ℚ} {n : ℤ} (h : IsNearest q n) : nearestInt q = n :=
  (isNearest_nearestInt q).unique h

theorem nearestInt_floor_or (q : ℚ) : nearestInt q = ⌊q⌋ ∨ nearestInt q = ⌊q⌋ + 1 := by
  rw [nearestInt_eq]
  split_ifs <;> tauto

/-- The mantissa is the integer part of `v`, and the bits after it say whether the rest is nothing,
less than one half, one half or more. -/
inductive Cut : ExtendedMantissa → ℚ → Prop where
  | whole {m : ℕ} {v : ℚ} : v = m → Cut ⟨m, false, false⟩ v
  | low {m : ℕ} {v : ℚ} : m < v → v < m + 1 / 2 → Cut ⟨m, false, true⟩ v
  | half {m : ℕ} {v : ℚ} : v = m + 1 / 2 → Cut ⟨m, true, false⟩ v
  | high {m : ℕ} {v : ℚ} : m + 1 / 2 < v → v < m + 1 → Cut ⟨m, true, true⟩ v

namespace Cut

theorem bounds {em : ExtendedMantissa} {v : ℚ} (cut : Cut em v) :
    em.mantissa ≤ v ∧ v < em.mantissa + 1 := by
  cases cut <;> constructor <;> dsimp only <;> linarith

theorem isNearest {em : ExtendedMantissa} {v : ℚ} (cut : Cut em v) :
    IsNearest v em.roundedMantissa := by
  cases cut with
  | @whole m v here =>
    change IsNearest v (m : ℕ)
    refine ⟨?_, ?_⟩ <;> simp [here]
  | @low m v above below =>
    change IsNearest v (m : ℕ)
    have distance : |v - (m : ℤ)| = v - m := by rw [Int.cast_natCast, abs_of_pos (by linarith)]
    exact ⟨by linarith, fun tie => by linarith⟩
  | @half m v here =>
    change IsNearest v (m + m % 2 : ℕ)
    have distance : |v - ((m + m % 2 : ℕ) : ℤ)| = 1 / 2 := by
      rw [here]
      obtain even | odd := Nat.mod_two_eq_zero_or_one m
      · rw [even]
        norm_num
      · rw [odd]
        norm_num
    exact ⟨distance.le, fun _ => by omega⟩
  | @high m v above below =>
    change IsNearest v (m + 1 : ℕ)
    have distance : |v - ((m + 1 : ℕ) : ℤ)| = m + 1 - v := by
      rw [Int.cast_natCast, Nat.cast_succ, abs_of_neg (by linarith), neg_sub]
    exact ⟨by linarith, fun tie => by linarith⟩

/-- One shift halves the value: the last bit of the mantissa becomes the round bit, and what the
two bits were is left in the sticky bit. -/
theorem shiftRightOne {em : ExtendedMantissa} {v : ℚ} (cut : Cut em v) :
    Cut em.shiftRightOne (v / 2) := by
  obtain ⟨m, roundBit, stickyBit⟩ := em
  obtain ⟨k, rfl | rfl⟩ : ∃ k, m = 2 * k ∨ m = 2 * k + 1 := ⟨m / 2, by omega⟩
  · have halved : ExtendedMantissa.shiftRightOne ⟨2 * k, roundBit, stickyBit⟩ =
        ⟨k, false, roundBit || stickyBit⟩ := by simp [ExtendedMantissa.shiftRightOne]
    rw [halved]
    cases cut with
    | whole here => exact .whole (by rw [here]; push_cast; ring)
    | low above below => push_cast at *; exact .low (by linarith) (by linarith)
    | half here => push_cast at *; exact .low (by linarith) (by linarith)
    | high above below => push_cast at *; exact .low (by linarith) (by linarith)
  · have halved : ExtendedMantissa.shiftRightOne ⟨2 * k + 1, roundBit, stickyBit⟩ =
        ⟨k, true, roundBit || stickyBit⟩ := by
      have quotient : (2 * k + 1) / 2 = k := by omega
      simp [ExtendedMantissa.shiftRightOne, quotient, Nat.add_mod]
    rw [halved]
    cases cut with
    | whole here => exact .half (by rw [here]; push_cast; ring)
    | low above below => push_cast at *; exact .high (by linarith) (by linarith)
    | half here => push_cast at *; exact .high (by linarith) (by linarith)
    | high above below => push_cast at *; exact .high (by linarith) (by linarith)

theorem shiftRight {em : ExtendedMantissa} {v : ℚ} (cut : Cut em v) (n : ℕ) :
    Cut (em >>> n) (v / 2 ^ n) := by
  change Cut (n.repeat ExtendedMantissa.shiftRightOne em) _
  induction n with
  | zero => simpa [Nat.repeat] using cut
  | succ n ih =>
    rw [pow_succ, div_mul_eq_div_div]
    exact ih.shiftRightOne

end Cut

/-- `v` rounded to the doubles about as great as it: to the nearest multiple of `2 ^ place v`, and
of two at the same distance to the even one. -/
def rounded (v : ℚ) : ℚ := nearestInt (v / 2 ^ place v) * 2 ^ place v

theorem le_place (v : ℚ) : -1074 ≤ place v := le_max_right _ _

theorem div_place_lt (v : ℚ) : v / 2 ^ place v < 2 ^ 53 := by
  have power : (0 : ℚ) < 2 ^ place v := by positivity
  have leading : v < 2 ^ (Int.log 2 v + 1) := Int.lt_zpow_succ_log_self one_lt_two v
  rw [div_lt_iff₀ power]
  calc v < 2 ^ (Int.log 2 v + 1) := leading
    _ ≤ 2 ^ (53 + place v) := zpow_le_zpow_right₀ one_le_two (by unfold place; omega)
    _ = 2 ^ 53 * 2 ^ place v := zpow_add₀ two_ne_zero _ _

theorem le_div_place {v : ℚ} (pos : 0 < v) (normal : place v ≠ -1074) :
    2 ^ 52 ≤ v / 2 ^ place v := by
  have power : (0 : ℚ) < 2 ^ place v := by positivity
  have leading : 2 ^ Int.log 2 v ≤ v := Int.zpow_log_le_self one_lt_two pos
  rw [le_div_iff₀ power]
  calc (2 ^ 52 * 2 ^ place v : ℚ) = 2 ^ (52 + place v) := (zpow_add₀ two_ne_zero _ _).symm
    _ = 2 ^ Int.log 2 v := by
      congr 1
      unfold place at *
      omega
    _ ≤ v := leading

theorem binary64_targetExponent (e : ℤ) :
    Format.binary64.targetExponent e = max (e - 53) (-1074) := by
  simp only [Format.targetExponent, Format.mantissaBits, Format.minExponent]
  omega

theorem Cut.targetExponent_eq {em : ExtendedMantissa} {v : ℚ} {e : ℤ} (pos : 0 < v)
    (cut : Cut em (v / 2 ^ e)) (le : e ≤ place v) :
    Format.binary64.targetExponent (totalExponent em.mantissa e) = place v := by
  have target : Format.binary64.targetExponent (totalExponent em.mantissa e) =
      max (em.mantissa.log2 + e - 52) (-1074) := by
    rw [binary64_targetExponent, totalExponent]
    omega
  obtain ⟨below, above⟩ := cut.bounds
  have power : (0 : ℚ) < 2 ^ e := by positivity
  have moved : Int.log 2 v = Int.log 2 (v / 2 ^ e) + e := by
    rw [← log_mul_zpow (by positivity), div_mul_cancel₀ _ power.ne']
  rw [target]
  by_cases zero : em.mantissa = 0
  · -- The value is below `2 ^ e`, so that only the end of the format can have set the exponent.
    have small : v < ((2 : ℕ) : ℚ) ^ e := by
      rw [zero, Nat.cast_zero, zero_add, div_lt_one power] at above
      exact above
    have log : Int.log 2 v < e := (Int.lt_zpow_iff_log_lt one_lt_two pos).1 small
    rw [zero, Nat.log2_zero]
    unfold place at *
    omega
  · have one : 1 ≤ v / 2 ^ e := le_trans (by exact_mod_cast Nat.one_le_iff_ne_zero.2 zero) below
    have floor : ⌊v / 2 ^ e⌋₊ = em.mantissa := by
      rw [Nat.floor_eq_iff (by positivity)]
      exact ⟨below, above⟩
    rw [place, moved, Int.log_of_one_le_right 2 one, floor, Nat.log2_eq_log_two]

theorem mantissa_ofMantissaAndAccuracy (m : ℕ) (accuracy : Accuracy) :
    (ExtendedMantissa.ofMantissaAndAccuracy m accuracy).mantissa = m := by
  cases accuracy with
  | exact => rfl
  | inexact order => cases order <;> rfl

theorem shiftToTargetExponent_cut {m : ℕ} {e : ℤ} {accuracy : Accuracy} {v : ℚ} (pos : 0 < v)
    (cut : Cut (.ofMantissaAndAccuracy m accuracy) (v / 2 ^ e)) (le : e ≤ place v) :
    ∃ em, shiftToTargetExponent Format.binary64 m e accuracy = (em, place v) ∧
      Cut em (v / 2 ^ place v) := by
  have target := cut.targetExponent_eq pos le
  rw [mantissa_ofMantissaAndAccuracy] at target
  have shift : e + (place v - e).toNat = place v := by omega
  refine ⟨ExtendedMantissa.ofMantissaAndAccuracy m accuracy >>> (place v - e).toNat, ?_, ?_⟩
  · simp only [shiftToTargetExponent, shiftToExponent, target, shift]
  · have shifted := cut.shiftRight (place v - e).toNat
    have scaled : v / 2 ^ e / 2 ^ (place v - e).toNat = v / 2 ^ place v := by
      rw [div_div, ← zpow_natCast, ← zpow_add₀ two_ne_zero, shift]
    rwa [scaled] at shifted

theorem shiftToTargetExponent_small {n : ℕ} {e : ℤ} (small : n < 2 ^ 53) (low : -1074 ≤ e) :
    shiftToTargetExponent Format.binary64 n e .exact = (⟨n, false, false⟩, e) := by
  have log : n.log2 < 53 := by
    by_cases zero : n = 0
    · rw [zero, Nat.log2_zero]
      decide
    · exact (Nat.log2_lt zero).2 small
  have none : (Format.binary64.targetExponent (totalExponent n e) - e).toNat = 0 := by
    rw [binary64_targetExponent, totalExponent]
    omega
  simp only [shiftToTargetExponent, shiftToExponent, none]
  simp [HShiftRight.hShiftRight, Nat.repeat, ExtendedMantissa.ofMantissaAndAccuracy]

theorem shiftToTargetExponent_carry {e : ℤ} (low : -1074 ≤ e) :
    shiftToTargetExponent Format.binary64 (2 ^ 53) e .exact = (⟨2 ^ 52, false, false⟩, e + 1) := by
  have one : (Format.binary64.targetExponent (totalExponent (2 ^ 53) e) - e).toNat = 1 := by
    rw [binary64_targetExponent, totalExponent, Nat.log2_two_pow]
    omega
  simp only [shiftToTargetExponent, shiftToExponent, one]
  rfl

inductive Represents (s : Sign) : UnpackedFloat → ℚ → Prop where
  | zero : Represents s (.zero s) 0
  | finite {m : ℕ} {e : ℤ} (c : Canonical m e) : Represents s (.finite s m e c.pos) (m * 2 ^ e)

theorem represents_settled (s : Sign) {n : ℕ} {e : ℤ} (most : n ≤ 2 ^ 53) (low : -1074 ≤ e)
    (least : e ≠ -1074 → 2 ^ 52 ≤ n) :
    let settled := shiftToTargetExponent Format.binary64 n e .exact
    Represents s (if h : settled.1.mantissa = 0 then .zero s
      else .finite s settled.1.mantissa settled.2 (Nat.pos_of_ne_zero h)) (n * 2 ^ e) := by
  intro settled
  -- The second shift has work to do only if the first one rounded up to `2 ^ 53`.
  obtain rfl | small := most.eq_or_lt
  · have carry : settled = (⟨2 ^ 52, false, false⟩, e + 1) := shiftToTargetExponent_carry low
    have c : Canonical (2 ^ 52) (e + 1) := ⟨by decide, by decide, by omega, .inl le_rfl⟩
    have value : ((2 ^ 53 : ℕ) * 2 ^ e : ℚ) = (2 ^ 52 : ℕ) * 2 ^ (e + 1) := by
      rw [zpow_add_one₀ two_ne_zero]
      push_cast
      ring
    rw [carry, value]
    exact .finite c
  · have same : settled = (⟨n, false, false⟩, e) := shiftToTargetExponent_small small low
    rw [same]
    dsimp only
    split
    · next zero =>
      rw [zero, Nat.cast_zero, zero_mul]
      exact .zero
    · next nonzero =>
      exact .finite ⟨Nat.pos_of_ne_zero nonzero, small, low, by tauto⟩

/-- A mantissa that was cut from a value no finer than its place is rounded as the value is. -/
theorem represents_roundWithAccuracy (s : Sign) {m : ℕ} {e : ℤ} {accuracy : Accuracy} {v : ℚ}
    (pos : 0 < v) (cut : Cut (.ofMantissaAndAccuracy m accuracy) (v / 2 ^ e)) (le : e ≤ place v) :
    Represents s (roundWithAccuracy Format.binary64 s m e accuracy) (rounded v) := by
  obtain ⟨em, first, cut⟩ := shiftToTargetExponent_cut pos cut le
  have nearest := cut.isNearest
  have value : rounded v = em.roundedMantissa * 2 ^ place v := by
    rw [rounded, nearestInt_eq_of_isNearest nearest, Int.cast_natCast]
  have most : (em.roundedMantissa : ℤ) ≤ (2 ^ 53 : ℕ) :=
    nearest.le (by exact_mod_cast (div_place_lt v).le)
  have least (normal : place v ≠ -1074) : ((2 ^ 52 : ℕ) : ℤ) ≤ em.roundedMantissa :=
    nearest.ge (by exact_mod_cast le_div_place pos normal)
  rw [value]
  unfold roundWithAccuracy
  rw [first]
  exact represents_settled s (Int.ofNat_le.1 most) (le_place v) fun normal =>
    Int.ofNat_le.1 (least normal)

theorem rounded_eq_self {v : ℚ} {n e : ℤ} (multiple : v = n * 2 ^ e) (le : place v ≤ e) :
    rounded v = v := by
  have power : (2 ^ place v : ℚ) ≠ 0 := by positivity
  have whole : v / 2 ^ place v = (n * 2 ^ (e - place v).toNat : ℤ) := by
    rw [div_eq_iff power]
    conv_lhs => rw [multiple]
    push_cast
    rw [mul_assoc, ← zpow_natCast, ← zpow_add₀ two_ne_zero]
    congr 2
    omega
  have nearest : IsNearest (v / 2 ^ place v) (n * 2 ^ (e - place v).toNat) := by
    constructor <;> simp [whole]
  rw [rounded, nearestInt_eq_of_isNearest nearest, ← whole, div_mul_cancel₀ _ power]

def overflow : ℚ := 2 ^ (1024 : ℤ)

theorem Canonical.lt_overflow_iff {m : ℕ} {e : ℤ} (c : Canonical m e) :
    (m * 2 ^ e : ℚ) < overflow ↔ e ≤ 971 := by
  have positive : (0 : ℚ) < 2 ^ e := by positivity
  constructor
  · intro less
    by_contra large
    have full : (2 ^ 52 : ℚ) ≤ m := by exact_mod_cast c.full.resolve_right (by omega)
    have reached : overflow ≤ m * 2 ^ e := calc
      overflow = 2 ^ 52 * 2 ^ (972 : ℤ) := zpow_add₀ (two_ne_zero' ℚ) 52 972
      _ ≤ 2 ^ 52 * 2 ^ e :=
        mul_le_mul_of_nonneg_left (zpow_le_zpow_right₀ one_le_two (by omega)) (by positivity)
      _ ≤ m * 2 ^ e := mul_le_mul_of_nonneg_right full positive.le
    exact reached.not_gt less
  · intro le
    have small : (m : ℚ) < 2 ^ 53 := by exact_mod_cast c.lt
    calc (m * 2 ^ e : ℚ) < 2 ^ 53 * 2 ^ e := by gcongr
      _ ≤ 2 ^ 53 * 2 ^ (971 : ℤ) := by gcongr; norm_num
      _ = overflow := (zpow_add₀ two_ne_zero 53 971).symm

/-- `x` is the double with the value `w`; from `overflow` on that is infinity. -/
inductive Holds (w : ℚ) : Float → Prop where
  | finite {x : Float} : w < overflow → x.isFinite = true → isNegative x = false → exact x = w →
    Holds w x
  | infinite : overflow ≤ w → Holds w infinity

theorem Holds.unique {w : ℚ} {x y : Float} (h : Holds w x) (k : Holds w y) : x = y := by
  cases h with
  | finite less finite sign value =>
    cases k with
    | finite _ finite' sign' value' =>
      exact eq_of_exact_eq finite finite' (sign.trans sign'.symm) (value.trans value'.symm)
    | infinite large => exact absurd large less.not_ge
  | infinite large =>
    cases k with
    | finite less => exact absurd large less.not_ge
    | infinite => rfl

theorem Holds.of_canonical {x : Float} {m : ℕ} {e : ℤ} (c : Canonical m e) (le : e ≤ 971)
    (h : x.toModel.unpack = .finite .positive m e c.pos) : Holds (m * 2 ^ e) x := by
  refine .finite (c.lt_overflow_iff.2 le) ?_ ?_ (by simp [exact_of_finite h, Sign.apply])
  · change x.toModel.unpack.isFinite = true
    rw [h]
    rfl
  · unfold isNegative
    rw [h]

theorem Represents.holds {u : UnpackedFloat} {w : ℚ} (h : Represents .positive u w) :
    Holds w (.ofModel (.pack u)) := by
  cases h with
  | zero => exact .finite (by unfold overflow; positivity) rfl rfl (exact_of_zero rfl)
  | @finite m e c =>
    by_cases le : e ≤ 971
    · exact .of_canonical c le (unpack_pack ⟨c, le⟩)
    · rw [pack_large .positive c.pos (by omega)]
      exact .infinite (not_lt.1 (mt c.lt_overflow_iff.1 le))

theorem holds_zero : Holds (rounded 0) (.ofModel (.pack (.zero .positive))) := by
  rw [rounded_eq_self (n := 0) (e := place 0) (by simp) le_rfl]
  exact Represents.zero.holds

theorem Holds.of_lt {w : ℚ} {x : Float} (h : Holds w x) (less : w < overflow) :
    x.isFinite = true ∧ isNegative x = false ∧ exact x = w := by
  cases h with
  | finite _ finite sign value => exact ⟨finite, sign, value⟩
  | infinite large => exact absurd large less.not_ge

theorem Holds.isFinite_iff {w : ℚ} {x : Float} (h : Holds w x) :
    x.isFinite = true ↔ w < overflow := by
  cases h with
  | finite less finite => exact iff_of_true finite less
  | infinite large => exact iff_of_false (by decide) large.not_gt

theorem Holds.eq_infinity {w : ℚ} {x : Float} (h : Holds w x) (unbounded : ¬x.isFinite = true) :
    x = infinity := by
  cases h with
  | finite _ finite => exact absurd finite unbounded
  | infinite => rfl

theorem le_rounded {v : ℚ} (pos : 0 < v) (normal : place v ≠ -1074) :
    2 ^ 52 * 2 ^ place v ≤ rounded v := by
  have full : ((2 ^ 52 : ℤ) : ℚ) ≤ nearestInt (v / 2 ^ place v) := by
    exact_mod_cast (isNearest_nearestInt _).ge (by exact_mod_cast le_div_place pos normal)
  unfold rounded
  gcongr
  exact_mod_cast full

theorem overflow_le_rounded {v : ℚ} (large : overflow ≤ v) : overflow ≤ rounded v := by
  have positive : 0 < v := lt_of_lt_of_le (by unfold overflow; positivity) large
  have log : 1024 ≤ Int.log 2 v := (Int.zpow_le_iff_le_log one_lt_two positive).1 large
  have high : 972 ≤ place v := by
    unfold place
    omega
  calc overflow = 2 ^ 52 * 2 ^ (972 : ℤ) := zpow_add₀ (two_ne_zero' ℚ) 52 972
    _ ≤ 2 ^ 52 * 2 ^ place v :=
      mul_le_mul_of_nonneg_left (zpow_le_zpow_right₀ one_le_two high) (by positivity)
    _ ≤ rounded v := le_rounded positive (by omega)

theorem rounded_eq_zero {v : ℚ} (positive : 0 < v) (small : v < 2 ^ (-1074 : ℤ) / 2) :
    rounded v = 0 := by
  have power : (0 : ℚ) < 2 ^ (-1074 : ℤ) := by positivity
  have log : Int.log 2 v < -1074 :=
    (Int.lt_zpow_iff_log_lt one_lt_two positive).1 (small.trans (half_lt_self power))
  have lowest : place v = -1074 := by
    unfold place
    omega
  have distance : |v / 2 ^ (-1074 : ℤ) - (0 : ℤ)| = v / 2 ^ (-1074 : ℤ) := by
    rw [Int.cast_zero, sub_zero, abs_of_pos (by positivity)]
  have near : v / 2 ^ (-1074 : ℤ) ≤ 1 / 2 := by
    rw [div_le_iff₀ power]
    linarith
  have nearest : IsNearest (v / 2 ^ (-1074 : ℤ)) 0 := ⟨distance.trans_le near, fun _ => rfl⟩
  rw [rounded, lowest, nearestInt_eq_of_isNearest nearest, Int.cast_zero, zero_mul]

theorem holds_exact {x : Float} (finite : x.isFinite = true) (sign : isNegative x = false) :
    Holds (rounded (exact x)) x := by
  obtain h | ⟨m, e, c, le, h⟩ := nonneg_cases finite sign
  · have unpacked : x = .ofModel (.pack (.zero .positive)) := unpack_inj.1 h
    rw [exact_of_zero h, unpacked]
    exact holds_zero
  · have value : exact x = (m : ℤ) * 2 ^ e := exact_of_finite h
    rw [rounded_eq_self value (by rw [value, Int.cast_natCast, c.place_eq]), value]
    exact .of_canonical c le h

end Reckoner.Double
