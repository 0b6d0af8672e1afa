import Reckoner.Loop
import Reckoner.Proofs.Operands

/-! What a computation on values can fail with: a value of the wrong kind, operands without a
meaning, an index or a step. Such a failure names no variable. -/
namespace Reckoner

def FailsOnly {α : Type} (sort : RuntimeError → Prop) (x : Except RuntimeError α) : Prop :=
  ∀ error, x = .error error → sort error

namespace FailsOnly

variable {α β : Type} {sort : RuntimeError → Prop}

theorem ok (value : α) : FailsOnly sort (.ok value) := nofun

theorem error {error : RuntimeError} (known : sort error) :
    FailsOnly sort (.error error : Except RuntimeError α) := by
  intro other same
  cases same
  exact known

theorem mono {x : Except RuntimeError α} {weaker : RuntimeError → Prop} (fails : FailsOnly sort x)
    (weaken : ∀ error, sort error → weaker error) : FailsOnly weaker x :=
  fun error failed => weaken error (fails error failed)

theorem bind {x : Except RuntimeError α} {f : α → Except RuntimeError β}
    (first : FailsOnly sort x) (rest : ∀ value, FailsOnly sort (f value)) :
    FailsOnly sort (x >>= f) := by
  cases x with
  | ok value => exact rest value
  | error failure => exact error (first failure rfl)

theorem map {x : Except RuntimeError α} (fails : FailsOnly sort x) (f : α → β) :
    FailsOnly sort (x.map f) := by
  cases x with
  | ok value => exact ok _
  | error failure => exact error (fails failure rfl)

section Kinds

variable (kinds : ∀ message, sort (.valueKind message))

include kinds

theorem expectReal (v : Value) (message : String) : FailsOnly sort (v.expectReal message) := by
  unfold Value.expectReal
  split
  · split
    · exact ok _
    · exact error (kinds message)
  · exact error (kinds message)

theorem expectNumber (v : Value) (message : String) : FailsOnly sort (v.expectNumber message) := by
  cases v with
  | number n => exact ok n
  | vector v => exact error (kinds message)
  | array items => exact error (kinds message)

theorem expectVector (v : Value) (message : String) : FailsOnly sort (v.expectVector message) := by
  cases v with
  | number n => exact error (kinds message)
  | vector v => exact ok v
  | array items => exact error (kinds message)

theorem expectArray (v : Value) (message : String) : FailsOnly sort (v.expectArray message) := by
  cases v with
  | number n => exact error (kinds message)
  | vector v => exact error (kinds message)
  | array items => exact ok items

variable (indices : ∀ signature index, sort (.builtinIndex signature index))

omit kinds in
include indices in
theorem position (signature : String) (items : List Value) (index : Float) :
    FailsOnly sort (Builtin.position signature items index) := by
  unfold Builtin.position
  split
  · exact ok _
  · exact error (indices signature index)

include indices

theorem apply {builtin : Builtin} {arguments : List Value} (elapsed : Float)
    (sized : arguments.length = builtin.arity) :
    FailsOnly sort (builtin.apply elapsed arguments) := by
  have real := expectReal kinds
  have number := expectNumber kinds
  have vector := expectVector kinds
  have array := expectArray kinds
  match builtin, arguments, sized with
  | .vec, [a, b], _ => exact (real a _).bind fun _ => (real b _).bind fun _ => ok _
  | .x, [v], _ => exact (vector v _).bind fun _ => ok _
  | .y, [v], _ => exact (vector v _).bind fun _ => ok _
  | .sin, [v], _ => exact (number v _).bind fun _ => ok _
  | .cos, [v], _ => exact (number v _).bind fun _ => ok _
  | .tan, [v], _ => exact (number v _).bind fun _ => ok _
  | .log, [v], _ => exact (number v _).bind fun _ => ok _
  | .logn, [b, v], _ => exact (real b _).bind fun _ => (number v _).bind fun _ => ok _
  | .ln, [v], _ => exact (number v _).bind fun _ => ok _
  | .print, [v], _ => exact ok v
  | .conjugate, [v], _ => exact (number v _).bind fun _ => ok _
  | .re, [v], _ => exact (number v _).bind fun _ => ok _
  | .im, [v], _ => exact (number v _).bind fun _ => ok _
  | .len, [v], _ => exact (array v _).bind fun _ => ok _
  | .rm, [items, index], _ =>
    exact (array items _).bind fun _ => (real index _).bind fun _ =>
      (position indices _ _ _).bind fun _ => ok _
  | .ins, [items, index, item], _ =>
    exact (array items _).bind fun _ => (real index _).bind fun _ =>
      (position indices _ _ _).bind fun _ => ok _
  | .mem, [v], _ => exact ok _
  | .clock, [v], _ => exact (real v _).bind fun _ => ok _

end Kinds

end FailsOnly

namespace Operator

/-- An operator fails only on operands that it has no meaning on, and its failure names their kinds
in the order in which they were written. -/
theorem fails_apply (operator : Operator) (left right : Value) :
    FailsOnly (fun error => ∃ flag, error = operator.mismatch left right flag)
      (operator.apply left right) := by
  intro error failed
  have outcome := operator.outcome_apply left right
  rw [failed] at outcome
  obtain ⟨flag, named, -⟩ := outcome.exists_flag
  exact ⟨flag, named⟩

end Operator

def RuntimeError.variable? : RuntimeError → Option String
  | unknownVariable name => some name
  | undefinedAssignment name => some name
  | variableRedeclared name => some name
  | externalMutation name => some name
  | _ => none

abbrev Nameless {α : Type} (x : Except RuntimeError α) : Prop :=
  FailsOnly (fun error => error.variable? = none) x

namespace Nameless

theorem operator (operator : Operator) (left right : Value) :
    Nameless (operator.apply left right) :=
  (operator.fails_apply left right).mono fun error mismatched => by
    obtain ⟨flag, rfl⟩ := mismatched
    rfl

theorem factorial (v : Value) : Nameless v.factorial :=
  (FailsOnly.expectNumber (fun _ => rfl) v _).map _

theorem itemAt (items : List Value) (index : Float) : Nameless (Value.itemAt items index) := by
  unfold Value.itemAt
  split
  · split
    · exact .ok _
    · exact .error rfl
  · exact .error rfl

theorem bounds (first second step : Float) : Nameless (Bounds.ofStep first second step) := by
  unfold Bounds.ofStep
  split
  · exact .error rfl
  · exact .ok _

theorem builtin (builtin : Builtin) (elapsed : Float) (arguments : List Value) :
    Nameless (builtin.apply elapsed arguments) := by
  by_cases sized : arguments.length = builtin.arity
  · exact .apply (fun _ => rfl) (fun _ _ => rfl) elapsed sized
  · unfold Builtin.apply
    split <;> first | exact absurd rfl sized | exact .error rfl

end Nameless

end Reckoner
