import Reckoner.Operator
import Reckoner.Proofs.Sums

/-! Totals. Values are added up from the left, onto the number zero. As long as they are numbers the
total is a number, each part of which is a sum of doubles that flushes subnormals. A vector cannot
be added to it; an array takes it as its new last item, and from then on the total is an array that
takes every further value as one item more. -/
namespace Reckoner

namespace Double

def Subnormal (x : Float) : Prop := exact x ≠ 0 ∧ |exact x| < 2 ^ (-1022 : ℤ)

instance (x : Float) : Decidable (Subnormal x) := inferInstanceAs (Decidable (_ ∧ _))

/-- The double, or the zero of its sign if it is subnormal. -/
def normal (x : Float) : Float :=
  if Subnormal x then if isNegative x then -0.0 else 0.0 else x

theorem exact_leastNormal : exact leastNormal = 2 ^ (-1022 : ℤ) := by
  have unpacked : leastNormal.toModel.unpack = .finite .positive (2 ^ 52) (-1074) (by decide) := rfl
  calc exact leastNormal = (2 ^ 52 : ℕ) * 2 ^ (-1074 : ℤ) := exact_of_finite unpacked
    _ = 2 ^ (52 : ℤ) * 2 ^ (-1074 : ℤ) := by norm_num
    _ = 2 ^ (-1022 : ℤ) := by rw [← zpow_add₀ two_ne_zero]; rfl

theorem abs_lt_leastNormal_iff (x : Float) :
    x.abs < leastNormal ↔ x.isFinite = true ∧ |exact x| < 2 ^ (-1022 : ℤ) := by
  by_cases finite : x.isFinite = true
  · rw [lt_iff_exact ((isFinite_abs x).trans finite) rfl, exact_abs, exact_leastNormal]
    exact (and_iff_right finite).symm
  · refine iff_of_false ?_ fun small => finite small.1
    obtain rfl | rfl | rfl := eq_of_not_finite finite <;> decide

theorem finite_of_exact_ne_zero {x : Float} (nonzero : exact x ≠ 0) : x.isFinite = true := by
  by_contra unbounded
  obtain rfl | rfl | rfl := eq_of_not_finite unbounded <;> exact nonzero rfl

theorem copySign_zero_of_exact {x : Float} (finite : x.isFinite = true) (zero : exact x = 0) :
    copySign 0.0 x = x := by
  obtain ⟨s, h⟩ | ⟨s, m, e, c, -, h⟩ := finite_cases finite
  · rw [← unpack_inj, h, copySign, isNegative, h]
    cases s <;> rfl
  · exact absurd zero (exact_ne_zero h)

theorem flush_eq_normal (x : Float) : flush x = normal x := by
  rw [flush, normal]
  by_cases small : x.abs < leastNormal
  · obtain ⟨finite, below⟩ := (abs_lt_leastNormal_iff x).1 small
    rw [if_pos small]
    by_cases zero : exact x = 0
    · rw [if_neg fun subnormal => subnormal.1 zero, copySign_zero_of_exact finite zero]
    · rw [if_pos ⟨zero, below⟩]
      rfl
  · have regular : ¬Subnormal x := fun subnormal =>
      small ((abs_lt_leastNormal_iff x).2 ⟨finite_of_exact_ne_zero subnormal.1, subnormal.2⟩)
    rw [if_neg small, if_neg regular]

theorem normal_of_not_subnormal {x : Float} (regular : ¬Subnormal x) : normal x = x :=
  if_neg regular

theorem normal_normal (x : Float) : normal (normal x) = normal x := by
  refine normal_of_not_subnormal fun subnormal => ?_
  unfold normal at subnormal
  split at subnormal
  · split at subnormal <;> exact subnormal.1 rfl
  · contradiction

def addFlushed (sum term : Float) : Float := normal (sum + normal term)

theorem normal_addFlushed (sum term : Float) :
    normal (addFlushed sum term) = addFlushed sum term := normal_normal _

/-- Doubles added up from the left, onto zero, with subnormal terms and sums flushed. -/
def flushedSum (terms : List Float) : Float := terms.foldl addFlushed 0.0

def plainSum (terms : List Float) : Float := terms.foldl (· + ·) 0.0

theorem flushedSum_eq_plainSum {terms : List Float} (regular : ∀ term ∈ terms, ¬Subnormal term)
    (sums : ∀ first, first <+: terms → ¬Subnormal (plainSum first)) :
    flushedSum terms = plainSum terms := by
  -- From the right, since the sum of the terms before the last one is what it is added to.
  induction terms using List.reverseRecOn with
  | nil => rfl
  | append_singleton before term ih =>
    have same : flushedSum before = plainSum before :=
      ih (fun other member => regular other (List.mem_append_left _ member))
        fun first shorter => sums first (shorter.trans (List.prefix_append _ _))
    have last : normal term = term :=
      normal_of_not_subnormal (regular term (List.mem_append_right _ (List.mem_singleton_self _)))
    have whole : plainSum (before ++ [term]) = plainSum before + term := List.foldl_append
    calc flushedSum (before ++ [term])
        = addFlushed (flushedSum before) term := List.foldl_append
      _ = normal (plainSum (before ++ [term])) := by rw [addFlushed, same, last, whole]
      _ = plainSum (before ++ [term]) := normal_of_not_subnormal (sums _ (List.prefix_refl _))

end Double

namespace Number

open Double

def flushedSum (numbers : List Number) : Number :=
  ⟨Double.flushedSum (numbers.map re), Double.flushedSum (numbers.map im)⟩

def plainSum (numbers : List Number) : Number :=
  ⟨Double.plainSum (numbers.map re), Double.plainSum (numbers.map im)⟩

def HasSubnormal (n : Number) : Prop := Subnormal n.re ∨ Subnormal n.im

instance (n : Number) : Decidable n.HasSubnormal := inferInstanceAs (Decidable (_ ∨ _))

theorem flushedSum_eq_plainSum {numbers : List Number} (regular : ∀ n ∈ numbers, ¬n.HasSubnormal)
    (sums : ∀ first, first <+: numbers → ¬(plainSum first).HasSubnormal) :
    flushedSum numbers = plainSum numbers := by
  have part (f : Number → Float) (regular : ∀ n ∈ numbers, ¬Subnormal (f n))
      (sums : ∀ first, first <+: numbers → ¬Subnormal (Double.plainSum (first.map f))) :
      Double.flushedSum (numbers.map f) = Double.plainSum (numbers.map f) := by
    refine Double.flushedSum_eq_plainSum (List.forall_mem_map.2 regular) fun first shorter => ?_
    obtain ⟨before, within, rfl⟩ := List.prefix_map_iff.1 shorter
    exact sums before within
  rw [flushedSum, plainSum,
    part re (fun n member subnormal => regular n member (.inl subnormal))
      fun first shorter subnormal => sums first shorter (.inl subnormal),
    part im (fun n member subnormal => regular n member (.inr subnormal))
      fun first shorter subnormal => sums first shorter (.inr subnormal)]

theorem zipWith_add_eq (a b : Number) :
    zipWith (· + ·) a b =
      ⟨normal (normal a.re + normal b.re), normal (normal a.im + normal b.im)⟩ := by
  have part (x y : Float) : ((⟨x⟩ + ⟨y⟩ : Scalar)).read = normal (normal x + normal y) := by
    change flush (flush (flush x + flush y)) = _
    simp only [flush_eq_normal, normal_normal]
  exact congr (congrArg Number.mk (part a.re b.re)) (part a.im b.im)

end Number

namespace Value

open Double

def totalOnto (start : Value) (values : List Value) : Except RuntimeError Value :=
  values.foldlM Operator.add.apply start

def total (values : List Value) : Except RuntimeError Value := totalOnto zero values

@[simp] theorem totalOnto_nil (start : Value) : totalOnto start [] = .ok start := rfl

theorem totalOnto_cons (start value : Value) (rest : List Value) :
    totalOnto start (value :: rest) =
      Operator.add.apply start value >>= fun total => totalOnto total rest := rfl

theorem totalOnto_append (start : Value) (values rest : List Value) :
    totalOnto start (values ++ rest) =
      totalOnto start values >>= fun total => totalOnto total rest :=
  List.foldlM_append

theorem totalOnto_numbers {x y : Float} (regular : normal x = x) (regular' : normal y = y)
    (numbers : List Number) :
    totalOnto (.number ⟨x, y⟩) (numbers.map .number) =
      .ok (.number ⟨(numbers.map Number.re).foldl addFlushed x,
        (numbers.map Number.im).foldl addFlushed y⟩) := by
  -- Every sum on the way has been flushed, so flushing it once more changes nothing.
  induction numbers generalizing x y with
  | nil => rfl
  | cons n rest ih =>
    have sum : Number.zipWith (· + ·) ⟨x, y⟩ n = ⟨addFlushed x n.re, addFlushed y n.im⟩ := by
      rw [Number.zipWith_add_eq, regular, regular', addFlushed, addFlushed]
    calc totalOnto (.number ⟨x, y⟩) ((n :: rest).map .number)
        = totalOnto (.number (Number.zipWith (· + ·) ⟨x, y⟩ n)) (rest.map .number) := rfl
      _ = _ := by rw [sum, ih (normal_addFlushed x n.re) (normal_addFlushed y n.im)]; rfl

theorem totalOnto_array (items values : List Value) :
    totalOnto (.array items) values = .ok (.array (items ++ values)) := by
  induction values generalizing items with
  | nil => rw [totalOnto_nil, List.append_nil]
  | cons value rest ih =>
    calc totalOnto (.array items) (value :: rest)
        = totalOnto (.array (items ++ [value])) rest := rfl
      _ = .ok (.array (items ++ value :: rest)) := by rw [ih, List.append_assoc]; rfl

theorem exists_numbers_append (values : List Value) : ∃ (numbers : List Number) (rest : List Value),
    values = numbers.map .number ++ rest ∧ ∀ first ∈ rest.head?, first.kind ≠ .number := by
  induction values with
  | nil => exact ⟨[], [], rfl, by simp⟩
  | cons value others ih =>
    cases value with
    | number n =>
      obtain ⟨numbers, rest, split, other⟩ := ih
      exact ⟨n :: numbers, rest, by rw [split]; rfl, other⟩
    | vector v => exact ⟨[], .vector v :: others, rfl, by simp [kind]⟩
    | array items => exact ⟨[], .array items :: others, rfl, by simp [kind]⟩

theorem total_numbers_append (numbers : List Number) (rest : List Value) :
    total (numbers.map .number ++ rest) =
      totalOnto (.number (Number.flushedSum numbers)) rest := by
  have zero_eq : zero = .number ⟨0.0, 0.0⟩ := rfl
  have regular : normal 0.0 = 0.0 := normal_of_not_subnormal fun subnormal => subnormal.1 rfl
  rw [total, totalOnto_append, zero_eq, totalOnto_numbers regular regular]
  rfl

theorem total_numbers (numbers : List Number) :
    total (numbers.map .number) = .ok (.number (Number.flushedSum numbers)) := by
  simpa using total_numbers_append numbers []

/-- Values are numbers, and then their total is the sum from the left, in which subnormal terms and
subnormal sums count as zeros; or they have a first value that is none. If it is a vector, the total
of the numbers before it is there and the vector cannot be added to it, whatever follows. If it is
an array, its items are the first of the total, then comes the sum of the numbers before it, and
then each value after it as one item. Where no number and no sum on the way has a subnormal part,
the sum of numbers is the plain one. -/
theorem total_cases :
    (∀ values : List Value,
      (∃ numbers : List Number, values = numbers.map .number ∧
        total values = .ok (.number (Number.flushedSum numbers))) ∨
      (∃ (numbers : List Number) (v : Vec) (rest : List Value),
        values = numbers.map .number ++ .vector v :: rest ∧
        total (numbers.map .number) = .ok (.number (Number.flushedSum numbers)) ∧
        total (numbers.map .number ++ [.vector v]) =
          .error (.operatorType "+" "number" "vector" false) ∧
        total values = .error (.operatorType "+" "number" "vector" false)) ∨
      (∃ (numbers : List Number) (items rest : List Value),
        values = numbers.map .number ++ .array items :: rest ∧
        total values = .ok (.array (items ++ .number (Number.flushedSum numbers) :: rest)) ∧
        (items ++ .number (Number.flushedSum numbers) :: rest).length =
          items.length + 1 + (values.length - (numbers.length + 1)))) ∧
    (∀ numbers : List Number, (∀ n ∈ numbers, ¬n.HasSubnormal) →
      (∀ first, first <+: numbers → ¬(Number.plainSum first).HasSubnormal) →
      total (numbers.map .number) = .ok (.number (Number.plainSum numbers))) := by
  refine ⟨fun values => ?_, fun numbers regular sums => ?_⟩
  · obtain ⟨numbers, rest, rfl, other⟩ := exists_numbers_append values
    have whole := total_numbers numbers
    cases rest with
    | nil => exact .inl ⟨numbers, List.append_nil _, by rw [List.append_nil, whole]⟩
    | cons first rest =>
      cases first with
      | number n => exact absurd rfl (other (.number n) rfl)
      | vector v =>
        have fails (rest : List Value) : total (numbers.map .number ++ .vector v :: rest) =
            .error (.operatorType "+" "number" "vector" false) := by
          rw [total_numbers_append]
          rfl
        exact .inr (.inl ⟨numbers, v, rest, rfl, whole, fails [], fails rest⟩)
      | array items =>
        refine .inr (.inr ⟨numbers, items, rest, rfl, ?_, ?_⟩)
        · have onto : totalOnto (.number (Number.flushedSum numbers)) (.array items :: rest) =
              totalOnto (.array (items ++ [.number (Number.flushedSum numbers)])) rest := rfl
          rw [total_numbers_append, onto, totalOnto_array, List.append_assoc]
          rfl
        · simp
          omega
  · rw [total_numbers, Number.flushedSum_eq_plainSum regular sums]

theorem total_cases_plain :
    let numbers : List Number := [⟨1.5, 2.0⟩, ⟨-0.25, 3.0⟩]
    (∀ n ∈ numbers, ¬n.HasSubnormal) ∧
      (∀ first, first <+: numbers → ¬(Number.plainSum first).HasSubnormal) ∧
      total (numbers.map .number) = .ok (.number ⟨1.25, 5.0⟩) := by
  intro numbers
  have regular : ∀ n ∈ numbers, ¬n.HasSubnormal := by decide +kernel
  have sums : ∀ first ∈ numbers.inits, ¬(Number.plainSum first).HasSubnormal := by decide +kernel
  have sums' : ∀ first, first <+: numbers → ¬(Number.plainSum first).HasSubnormal :=
    fun first shorter => sums first ((List.mem_inits first numbers).2 shorter)
  have sum : Number.plainSum numbers = ⟨1.25, 5.0⟩ := by decide +kernel
  exact ⟨regular, sums', sum ▸ total_cases.2 numbers regular sums'⟩

/-- The least double is lost, as a term and as a sum. -/
theorem total_subnormal :
    let tiny : Number := .real 5e-324
    total ([tiny, tiny].map .number) = .ok (.number (.real 0.0)) ∧
      Number.plainSum [tiny, tiny] = .real 1e-323 ∧ Number.real 1e-323 ≠ .real 0.0 := by
  intro tiny
  have flushed : Number.flushedSum [tiny, tiny] = .real 0.0 := by decide +kernel
  exact ⟨by rw [total_numbers, flushed], by decide +kernel, by decide +kernel⟩

end Value

end Reckoner
