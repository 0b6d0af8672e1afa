import Reckoner.Proofs.Definedness

/-! The laws of the store. A name stands for its innermost local, or else for the global of that
name. Declaring asks that it stands for nothing, assigning that it stands for something that may be
changed here; both then change what this one name stands for, and either fails before it has
changed anything. -/
namespace Reckoner

namespace Table

variable {α : Type}

theorem insert_of_not_mem {t : Table α} {key : String} (absent : key ∉ t.keys) (value : α) :
    t.insert key value = ⟨t.entries ++ [(key, value)]⟩ := by
  rw [insert, if_neg (mt (t.contains_iff_mem key).1 absent)]

end Table

namespace State

theorem binding?_eq (s : State) (name : String) :
    s.binding? name = (s.locals.get? name).or (s.globals.get? name) := by
  rw [binding?]
  cases s.locals.get? name <;> rfl

theorem binding?_eq_none_iff (s : State) (name : String) :
    s.binding? name = none ↔ name ∉ s.locals.keys ∧ name ∉ s.globals.keys := by
  rw [binding?_eq, Option.or_eq_none_iff, Table.get?_eq_none_iff, Scope.mem_keys,
    ← Scope.isSome_get?]
  simp

theorem lookup_eq_of_binding?_eq {s t : State} {name : String}
    (same : t.binding? name = s.binding? name) : t.lookup name = s.lookup name := by
  rw [lookup, lookup, same]

theorem lookup_of_binding? {s : State} {name : String} {value : Value}
    (bound : s.binding? name = some value) : s.lookup name = .ok value := by
  rw [lookup, bound]

theorem exists_lookup_error_iff (s : State) (name : String) :
    (∃ error, s.lookup name = .error error) ↔ s.binding? name = none := by
  rw [lookup]
  cases s.binding? name <;> simp

theorem hasLocal_iff (s : State) (name : String) :
    s.hasLocal name = true ↔ name ∈ s.locals.keys :=
  (s.locals.mem_keys name).symm

theorem hasGlobal_iff (s : State) (name : String) :
    s.hasGlobal name = true ↔ name ∈ s.globals.keys :=
  s.globals.contains_iff_mem name

theorem binding?_insertGlobal {s : State} {name : String} (unseen : s.hasLocal name = false)
    (value : Value) (other : String) :
    State.binding? { s with globals := s.globals.insert name value } other =
      if other = name then some value else s.binding? other := by
  have hidden : s.locals.get? name = none := by
    simpa [hasLocal, ← Scope.isSome_get?] using unseen
  simp only [binding?_eq, Table.get?_insert]
  split
  · next same => rw [same, hidden, Option.none_or]
  · rfl

section Declare

variable {s t : State} {name : String}

theorem declare_of_taken (taken : s.binding? name ≠ none) (value : Value) :
    s.declare name value = .error (.variableRedeclared name) := by
  rw [Ne, binding?_eq_none_iff, ← hasLocal_iff, ← hasGlobal_iff] at taken
  rw [declare_eq, if_pos]
  rw [Bool.or_eq_true]
  grind

theorem declare_of_free (free : s.binding? name = none) (value : Value) :
    s.declare name value = .ok (if 0 < s.depth then
      { s with locals := ⟨⟨s.locals.frame.entries ++ [(name, value)]⟩, s.locals.outer⟩ }
    else { s with globals := ⟨s.globals.entries ++ [(name, value)]⟩ }) := by
  obtain ⟨noLocal, noGlobal⟩ := (s.binding?_eq_none_iff name).1 free
  have notOwn : name ∉ s.locals.frame.keys := by
    intro member
    apply noLocal
    simp [Scope.keys, Scope.frames, member]
  rw [declare_eq, if_neg]
  · simp only [inFunction_iff, Scope.set, Table.insert_of_not_mem notOwn,
      Table.insert_of_not_mem noGlobal]
    split <;> rfl
  · rw [← hasLocal_iff] at noLocal
    rw [← hasGlobal_iff] at noGlobal
    simp [noLocal, noGlobal]

theorem exists_declare_iff (s : State) (name : String) (value : Value) :
    (∃ t, s.declare name value = .ok t) ↔ s.binding? name = none := by
  by_cases free : s.binding? name = none
  · simp [declare_of_free free, free]
  · simp [declare_of_taken free, free]

theorem error_of_declare {value : Value} {error : RuntimeError}
    (failed : s.declare name value = .error error) : error = .variableRedeclared name := by
  by_cases free : s.binding? name = none
  · rw [declare_of_free free] at failed
    contradiction
  · rw [declare_of_taken free] at failed
    cases failed
    rfl

theorem binding?_of_declare {value : Value} (declared : s.declare name value = .ok t)
    (other : String) :
    t.binding? other = if other = name then some value else s.binding? other := by
  obtain ⟨-, rfl⟩ | ⟨-, rfl⟩ := eq_of_declare declared
  · simp only [binding?_eq, Scope.get?_set]
    split <;> rfl
  · exact binding?_insertGlobal (free_of_declare declared).2 value other

end Declare

section Assign

variable {s t : State} {name : String} {value : Value}

theorem assign_of_local (present : s.hasLocal name = true) (value : Value) :
    ∃ t, s.assign name value = .ok t := by
  obtain ⟨locals, replaced⟩ := Scope.exists_replace present value
  exact ⟨_, by rw [assign, replaced]⟩

theorem assign_of_not_local (absent : s.hasLocal name = false) (value : Value) :
    s.assign name value =
      if s.hasGlobal name then
        if 0 < s.depth then .error (.externalMutation name)
        else .ok { s with globals := s.globals.insert name value }
      else .error (.undefinedAssignment name) := by
  rw [assign, Scope.replace_of_not_contains absent value]
  cases s.hasGlobal name with
  | false => rfl
  | true => simp [inFunction_iff]

theorem exists_assign_iff (s : State) (name : String) (value : Value) :
    (∃ t, s.assign name value = .ok t) ↔
      name ∈ s.locals.keys ∨ name ∈ s.globals.keys ∧ s.depth = 0 := by
  rw [← hasLocal_iff, ← hasGlobal_iff]
  cases present : s.hasLocal name with
  | true => simpa using assign_of_local present value
  | false =>
    rw [assign_of_not_local present value]
    by_cases inside : 0 < s.depth
    · cases s.hasGlobal name <;> simp [inside, Nat.ne_of_gt]
    · cases s.hasGlobal name <;> simp [Nat.eq_zero_of_not_pos inside]

theorem error_of_assign {error : RuntimeError} (failed : s.assign name value = .error error) :
    name ∉ s.locals.keys ∧ error =
      if name ∈ s.globals.keys then .externalMutation name else .undefinedAssignment name := by
  have unseen : s.hasLocal name = false := by
    rw [Bool.eq_false_iff]
    intro present
    obtain ⟨t, assigned⟩ := assign_of_local present value
    rw [assigned] at failed
    contradiction
  rw [assign_of_not_local unseen] at failed
  refine ⟨by simp [← hasLocal_iff, unseen], ?_⟩
  simp only [← hasGlobal_iff]
  split at failed
  · split at failed <;> cases failed
    simp_all
  · cases failed
    simp_all

theorem assign_undefined_iff (s : State) (name : String) (value : Value) :
    s.assign name value = .error (.undefinedAssignment name) ↔ s.binding? name = none := by
  rw [binding?_eq_none_iff]
  constructor
  · intro failed
    obtain ⟨unseen, which⟩ := error_of_assign failed
    refine ⟨unseen, fun known => ?_⟩
    rw [if_pos known] at which
    contradiction
  · rintro ⟨unseen, unknown⟩
    rw [← hasLocal_iff, Bool.not_eq_true] at unseen
    rw [← hasGlobal_iff] at unknown
    rw [assign_of_not_local unseen, if_neg unknown]

theorem binding?_of_assign (assigned : s.assign name value = .ok t) (other : String) :
    t.binding? other = if other = name then some value else s.binding? other := by
  obtain ⟨locals, replaced, rfl⟩ | ⟨⟨-, unseen, -⟩, rfl⟩ := eq_of_assign assigned
  · simp only [binding?_eq, Scope.get?_of_replace replaced]
    split <;> rfl
  · exact binding?_insertGlobal unseen value other

theorem keys_of_assign (assigned : s.assign name value = .ok t) :
    t = { s with globals := t.globals, locals := t.locals } ∧ t.globals.keys = s.globals.keys ∧
      t.locals.frames.map Table.keys = s.locals.frames.map Table.keys := by
  obtain ⟨locals, replaced, rfl⟩ | ⟨⟨-, -, known⟩, rfl⟩ := eq_of_assign assigned
  · exact ⟨rfl, rfl, Scope.keys_of_replaceIn (Scope.replaceIn_of_replace replaced)⟩
  · exact ⟨rfl, Table.keys_insert_of_contains known value, rfl⟩

end Assign

end State

namespace Eval

theorem update_error {f : State → Except RuntimeError State} {m n : Machine} {stop : Stop}
    (failed : update f m = .error stop n) :
    n = m ∧ ∃ error, stop = .error error ∧ f m.state = .error error := by
  unfold update at failed
  split at failed
  · contradiction
  · next error why =>
    cases failed
    exact ⟨rfl, error, rfl, why⟩

theorem declare_error {name : String} {value : Value} {m n : Machine} {stop : Stop}
    (failed : declare name value m = .error stop n) :
    n = m ∧ ∃ error, stop = .error error ∧ m.state.declare name value = .error error := by
  rw [declare] at failed
  cases changed : update (·.declare name value) m with
  | ok _ k =>
    rw [bind_of_ok changed] at failed
    cases failed
  | error stop k =>
    rw [bind_of_error changed] at failed
    cases failed
    exact update_error changed

end Eval

namespace State

/-- The laws of the store. A declaration succeeds exactly on a name that is neither a local in sight
nor a global; the name then stands for the value, all others for what they stood for, and it comes
last in the innermost frame, or last among the globals outside of functions. An assignment succeeds
exactly on a local in sight and, outside of functions, on a global; the name then stands for the
value, all others for what they stood for, and all names keep their places. What fails leaves the
state as it was, with the error that says why; reading fails exactly on the names on which assigning
finds nothing to assign to. -/
theorem store_laws (s : State) (name : String) (value : Value) :
    ((∃ t, s.declare name value = .ok t) ↔ name ∉ s.locals.keys ∧ name ∉ s.globals.keys) ∧
    (∀ t, s.declare name value = .ok t → t.lookup name = .ok value ∧
      (∀ other, other ≠ name → t.lookup other = s.lookup other) ∧
      t = if 0 < s.depth then
          { s with locals := ⟨⟨s.locals.frame.entries ++ [(name, value)]⟩, s.locals.outer⟩ }
        else { s with globals := ⟨s.globals.entries ++ [(name, value)]⟩ }) ∧
    ((∃ t, s.assign name value = .ok t) ↔
      name ∈ s.locals.keys ∨ name ∈ s.globals.keys ∧ s.depth = 0) ∧
    (∀ t, s.assign name value = .ok t → t.lookup name = .ok value ∧
      (∀ other, other ≠ name → t.lookup other = s.lookup other) ∧
      t = { s with globals := t.globals, locals := t.locals } ∧ t.globals.keys = s.globals.keys ∧
      t.locals.frames.map Table.keys = s.locals.frames.map Table.keys) ∧
    (∀ error, s.declare name value = .error error → error = .variableRedeclared name) ∧
    (∀ error, s.assign name value = .error error → error =
      if name ∈ s.globals.keys then .externalMutation name else .undefinedAssignment name) ∧
    (∀ (m n : Machine) (stop : Stop), m.state = s → Eval.declare name value m = .error stop n →
      n = m ∧ ∃ error, stop = .error error ∧ s.declare name value = .error error) ∧
    (∀ undefined (m n : Machine) (stop : Stop), m.state = s →
      Partial.assign undefined name value m = .error stop n →
      n = m ∧ ∃ error, stop = .error error ∧ s.assign name value = .error error) ∧
    ((∃ error, s.lookup name = .error error) ↔
      name ∉ s.locals.keys ∧ name ∉ s.globals.keys) ∧
    (s.assign name value = .error (.undefinedAssignment name) ↔
      ∃ error, s.lookup name = .error error) := by
  have unbound := s.binding?_eq_none_iff name
  refine ⟨(s.exists_declare_iff name value).trans unbound, ?_, s.exists_assign_iff name value, ?_,
    fun error => error_of_declare, fun error failed => (error_of_assign failed).2, ?_, ?_,
    (s.exists_lookup_error_iff name).trans unbound,
    (s.assign_undefined_iff name value).trans (s.exists_lookup_error_iff name).symm⟩
  · intro t declared
    refine ⟨?_, fun other apart => ?_, ?_⟩
    · exact lookup_of_binding? (by rw [binding?_of_declare declared, if_pos rfl])
    · exact lookup_eq_of_binding?_eq (by rw [binding?_of_declare declared, if_neg apart])
    · have free := (s.exists_declare_iff name value).1 ⟨t, declared⟩
      rw [declare_of_free free] at declared
      cases declared
      rfl
  · intro t assigned
    refine ⟨?_, fun other apart => ?_, keys_of_assign assigned⟩
    · exact lookup_of_binding? (by rw [binding?_of_assign assigned, if_pos rfl])
    · exact lookup_eq_of_binding?_eq (by rw [binding?_of_assign assigned, if_neg apart])
  · rintro m n stop rfl failed
    exact Eval.declare_error failed
  · rintro undefined m n stop rfl failed
    rw [Partial.assign_eq] at failed
    exact Eval.update_error failed

end State

end Reckoner
