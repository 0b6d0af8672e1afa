import Reckoner.Operator

/-! Which operands an operator has a meaning on, what kind of value comes of them, and what is said
of the others. Under few operators a number can stand beside a vector, and then it has to be real;
the failure tells a number that is not real from kinds that never go together. -/
namespace Reckoner

namespace Value

def areNumbers (left right : Value) : Bool := left.kind = .number && right.kind = .number

def areVectors (left right : Value) : Bool := left.kind = .vector && right.kind = .vector

def isScaledBy : (vector number : Value) → Bool
  | .vector _, .number s => s.isReal
  | _, _ => false

end Value

def Kind.sample : Kind → Value
  | .number => .zero
  | .vector => .vector ⟨0.0, 0.0⟩
  | .array => .array []

theorem Kind.kind_sample (kind : Kind) : kind.sample.kind = kind := by
  cases kind <;> rfl

namespace Operator

/-- An operator has a meaning on its operands. -/
def isDefined (operator : Operator) (left right : Value) : Bool :=
  match operator with
  | equal => true
  | add =>
    !(left.kind = .number && right.kind = .vector || left.kind = .vector && right.kind = .number)
  | subtract => left.areNumbers right || left.areVectors right
  | multiply | divide => left.areNumbers right || left.isScaledBy right || right.isScaledBy left
  | power => left.areNumbers right || left.isScaledBy right
  | remainder | greater | less | greaterOrEqual | lessOrEqual => left.areNumbers right

def supports : Operator → (left right : Kind) → Bool
  | equal, _, _ => true
  | add, .number, .vector => false
  | add, .vector, .number => false
  | add, _, _ => true
  | subtract, .vector, .vector => true
  | multiply, .number, .vector => true
  | multiply, .vector, .number => true
  | divide, .number, .vector => true
  | divide, .vector, .number => true
  | power, .vector, .number => true
  | _, left, right => left = .number && right = .number

/-- The kind of the value: an array if something was added to one, a vector if there was one in an
arithmetic operation, and otherwise a number. -/
def resultKind (operator : Operator) (left right : Kind) : Kind :=
  if operator = add ∧ (left = .array ∨ right = .array) then .array
  else if operator ∈ [add, subtract, multiply, divide, power] ∧
      (left = .vector ∨ right = .vector) then .vector
  else .number

def isTest : Operator → Bool
  | equal | greater | less | greaterOrEqual | lessOrEqual => true
  | _ => false

/-- What comes of an operator: a value, or one of two failures that name both kinds. -/
inductive Outcome (operator : Operator) (left right : Value) :
    Except RuntimeError Value → Prop where
  | value {value : Value} (defined : operator.isDefined left right = true)
      (kind : value.kind = operator.resultKind left.kind right.kind)
      (test : operator.isTest = true → value = .real 0.0 ∨ value = .real 1.0) :
      Outcome operator left right (.ok value)
  | kinds (unsupported : operator.supports left.kind right.kind = false) :
      Outcome operator left right (.error (operator.mismatch left right false))
  | complex {s : Number} (supported : operator.supports left.kind right.kind = true)
      (undefined : operator.isDefined left right = false)
      (operand : left = .number s ∨ right = .number s) (complex : s.isReal = false) :
      Outcome operator left right (.error (operator.mismatch left right true))

section Cases

variable {operator : Operator}

theorem outcome_scale {left right : Value} {v : Vec} {s : Number} (f : Scalar → Scalar → Scalar)
    (operand : left = .number s ∨ right = .number s)
    (supported : operator.supports left.kind right.kind = true)
    (kind : operator.resultKind left.kind right.kind = .vector)
    (arithmetic : operator.isTest = false)
    (defined : operator.isDefined left right = s.isReal) :
    operator.Outcome left right (operator.scale f v s left right) := by
  unfold scale
  cases real : s.isReal with
  | true => exact .value (defined.trans real) kind.symm (by simp [arithmetic])
  | false => exact .complex supported (defined.trans real) operand real

theorem outcome_add : ∀ left right, add.Outcome left right (applyAdd left right)
  | .array _, .number _ | .array _, .vector _ | .array _, .array _ | .number _, .array _
  | .vector _, .array _ | .number _, .number _ | .vector _, .vector _ => .value rfl rfl nofun
  | .number _, .vector _ | .vector _, .number _ => .kinds rfl

theorem outcome_subtract : ∀ left right, subtract.Outcome left right (applySubtract left right)
  | .number _, .number _ | .vector _, .vector _ => .value rfl rfl nofun
  | .number _, .vector _ | .vector _, .number _ | .array _, _ | .number _, .array _
  | .vector _, .array _ => .kinds rfl

theorem outcome_product (product : operator = multiply ∨ operator = divide) :
    ∀ left right, operator.Outcome left right (operator.apply left right)
  | .number _, .number _ => by
    obtain rfl | rfl := product <;> exact .value rfl rfl nofun
  | .number _, .vector _ => by
    obtain rfl | rfl := product <;> exact outcome_scale _ (.inl rfl) rfl rfl rfl rfl
  | .vector _, .number _ => by
    obtain rfl | rfl := product <;>
      exact outcome_scale _ (.inr rfl) rfl rfl rfl (Bool.or_false _)
  | .vector _, .vector _ | .array _, _ | .number _, .array _ | .vector _, .array _ => by
    obtain rfl | rfl := product <;> exact .kinds rfl

theorem outcome_power : ∀ left right, power.Outcome left right (applyPower left right)
  | .number _, .number _ => .value rfl rfl nofun
  | .vector _, .number _ => outcome_scale _ (.inr rfl) rfl rfl rfl rfl
  | .number _, .vector _ | .number _, .array _ | .vector _, .vector _ | .vector _, .array _
  | .array _, _ => .kinds rfl

theorem outcome_remainder :
    ∀ left right, remainder.Outcome left right (applyRemainder left right)
  | .number _, .number _ => .value rfl rfl nofun
  | .number _, .vector _ | .number _, .array _ | .vector _, _ | .array _, _ => .kinds rfl

theorem ofBool_cases (flag : Bool) :
    Value.number (.ofBool flag) = .real 0.0 ∨ Value.number (.ofBool flag) = .real 1.0 := by
  cases flag with
  | false => exact .inl rfl
  | true => exact .inr rfl

theorem outcome_compare (comparison : operator = greater ∨ operator = less ∨
      operator = greaterOrEqual ∨ operator = lessOrEqual) :
    ∀ left right, operator.Outcome left right (operator.apply left right)
  | .number _, .number _ => by
    obtain rfl | rfl | rfl | rfl := comparison <;>
      exact .value rfl rfl fun _ => ofBool_cases _
  | .number _, .vector _ | .number _, .array _ | .vector _, _ | .array _, _ => by
    obtain rfl | rfl | rfl | rfl := comparison <;> exact .kinds rfl

end Cases

theorem outcome_apply (operator : Operator) (left right : Value) :
    operator.Outcome left right (operator.apply left right) := by
  cases operator with
  | add => exact outcome_add left right
  | subtract => exact outcome_subtract left right
  | multiply | divide => exact outcome_product (by simp) left right
  | remainder => exact outcome_remainder left right
  | power => exact outcome_power left right
  | equal => exact .value rfl rfl fun _ => ofBool_cases _
  | greater | less | greaterOrEqual | lessOrEqual => exact outcome_compare (by simp) left right

theorem supports_iff (operator : Operator) (left right : Kind) :
    operator.supports left right = true ↔
      ∃ a b : Value, a.kind = left ∧ b.kind = right ∧ operator.isDefined a b = true := by
  constructor
  · intro supported
    refine ⟨left.sample, right.sample, left.kind_sample, right.kind_sample, ?_⟩
    -- The sample number is real, so that it can stand beside a vector.
    revert supported
    cases operator <;> cases left <;> cases right <;> decide
  · rintro ⟨a, b, rfl, rfl, defined⟩
    cases operator <;> cases a <;> cases b <;> first | rfl | contradiction

namespace Outcome

variable {operator : Operator} {left right : Value} {result : Except RuntimeError Value}

theorem exists_value_iff (outcome : operator.Outcome left right result) :
    (∃ value, result = .ok value) ↔ operator.isDefined left right = true := by
  cases outcome with
  | value defined => exact iff_of_true ⟨_, rfl⟩ defined
  | kinds unsupported =>
    refine iff_of_false nofun fun defined => ?_
    rw [(supports_iff ..).2 ⟨left, right, rfl, rfl, defined⟩] at unsupported
    contradiction
  | complex _ undefined => exact iff_of_false nofun (by simp [undefined])

theorem exists_flag {error : RuntimeError} (outcome : operator.Outcome left right (.error error)) :
    ∃ flag, error = .operatorType operator.symbol left.kind.name right.kind.name flag ∧
      (flag = true ↔ operator.supports left.kind right.kind = true ∧
        ∃ s : Number, (left = .number s ∨ right = .number s) ∧ s.isReal = false) := by
  cases outcome with
  | kinds unsupported => exact ⟨false, rfl, by simp [unsupported]⟩
  | complex supported _ operand complex =>
    exact ⟨true, rfl, iff_of_true rfl ⟨supported, _, operand, complex⟩⟩

end Outcome

theorem apply_scaling_comm {operator : Operator} (product : operator = multiply ∨ operator = divide)
    {s : Number} (real : s.isReal = true) (v : Vec) :
    ∃ w, operator.apply (.number s) (.vector v) = .ok (.vector w) ∧
      operator.apply (.vector v) (.number s) = .ok (.vector w) := by
  obtain rfl | rfl := product
  · exact ⟨v.scaleWith (· * ·) s.re, if_pos real, if_pos real⟩
  · exact ⟨v.scaleWith Scalar.timesReciprocal s.re, if_pos real, if_pos real⟩

/-- An operator yields a value on the operands that it has a meaning on and on no others. The kinds
of the operands decide the kind of the value, and a test yields zero or one. Any other operands give
a failure that names the operator and both kinds in the order in which they were written; it is put
down to a complex operand if a real number in its place would have a meaning. A vector can be
multiplied and divided by a real number from either side, with the same result. -/
theorem apply_domain (operator : Operator) (left right : Value) :
    ((∃ value, operator.apply left right = .ok value) ↔ operator.isDefined left right = true) ∧
    (∀ value, operator.apply left right = .ok value →
      value.kind = operator.resultKind left.kind right.kind ∧
      (operator.isTest = true → value = .real 0.0 ∨ value = .real 1.0)) ∧
    (∀ error, operator.apply left right = .error error →
      ∃ flag, error = .operatorType operator.symbol left.kind.name right.kind.name flag ∧
        (flag = true ↔
          (∃ a b : Value, a.kind = left.kind ∧ b.kind = right.kind ∧
            operator.isDefined a b = true) ∧
          ∃ s : Number, (left = .number s ∨ right = .number s) ∧ s.isReal = false)) ∧
    (operator = multiply ∨ operator = divide →
      ∀ (s : Number) (v : Vec), s.isReal = true →
        ∃ w, operator.apply (.number s) (.vector v) = .ok (.vector w) ∧
          operator.apply (.vector v) (.number s) = .ok (.vector w)) := by
  have outcome := outcome_apply operator left right
  refine ⟨outcome.exists_value_iff, fun value applied => ?_, fun error failed => ?_,
    fun product s v real => apply_scaling_comm product real v⟩
  · rw [applied] at outcome
    cases outcome with
    | value _ kind test => exact ⟨kind, test⟩
  · rw [failed] at outcome
    rw [← supports_iff]
    exact outcome.exists_flag

theorem apply_domain_quotient :
    let z : Value := .number ⟨1.0, 2.0⟩
    let v : Vec := ⟨3.0, 4.0⟩
    divide.apply z (.vector v) = .error (.operatorType "/" "number" "vector" true) ∧
      (∃ a b : Value, a.kind = .number ∧ b.kind = .vector ∧ divide.isDefined a b = true) ∧
      ∃ w, divide.apply (.real 2.0) (.vector v) = .ok (.vector w) ∧
        divide.apply (.vector v) (.real 2.0) = .ok (.vector w) := by
  intro z v
  have failed : divide.apply z (.vector v) =
      .error (.operatorType "/" "number" "vector" true) := rfl
  obtain ⟨-, -, failure, scaled⟩ := apply_domain divide z (.vector v)
  obtain ⟨flag, named, complex_iff⟩ := failure _ failed
  cases named
  exact ⟨failed, (complex_iff.1 rfl).1, scaled (.inr rfl) (.real 2.0) v rfl⟩

end Operator

end Reckoner
