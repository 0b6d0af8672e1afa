import Reckoner.Proofs.Overwriting

/-! Assignment to several names. Assigning to one name after another comes to the same as writing
over all of them at once; an assignment that fails has written over the names before the first that
cannot be assigned to. -/
namespace Reckoner

namespace Eval

theorem assignAll_append {value : Value} {names : List String} {m : Machine}
    (assignable : ∀ name ∈ names, ∃ t, m.state.assign name value = .ok t)
    (others : List String) :
    assignAll value (names ++ others) m =
      assignAll value others { m with state := m.state.overwrite names value } := by
  -- One name is assigned to in a state that differs from the first one by what is written over.
  induction names generalizing m with
  | nil => rw [List.nil_append, State.overwrite_nil]
  | cons name rest ih =>
    rw [List.forall_mem_cons] at assignable
    obtain ⟨⟨t, assigned⟩, later⟩ := assignable
    have changed : update (·.assign name value) m = .ok () { m with state := t } := by
      simp only [update, assigned]
    rw [List.cons_append, assignAll, bind_of_ok changed, State.eq_overwrite_of_assign assigned]
    rw [ih fun other member => State.exists_assign_overwrite (later other member)]
    rw [← State.overwrite_append]
    rfl

theorem assignAll_of_assignable {value : Value} {names : List String} {m : Machine}
    (assignable : ∀ name ∈ names, ∃ t, m.state.assign name value = .ok t) :
    assignAll value names m = .ok () { m with state := m.state.overwrite names value } := by
  have whole := assignAll_append assignable []
  rwa [List.append_nil] at whole

theorem assignAll_of_error {value : Value} {names : List String} {m : Machine} {name : String}
    {error : RuntimeError} (assignable : ∀ name ∈ names, ∃ t, m.state.assign name value = .ok t)
    (failed : m.state.assign name value = .error error) (others : List String) :
    assignAll value (names ++ name :: others) m =
      .error (.error error) { m with state := m.state.overwrite names value } := by
  have stopped : update (·.assign name value) { m with state := m.state.overwrite names value } =
      .error (.error error) { m with state := m.state.overwrite names value } := by
    simp only [update, State.assign_overwrite_error failed]
  rw [assignAll_append assignable, assignAll, bind_of_error stopped]

end Eval

theorem State.assignable_or_first (s : State) (value : Value) (names : List String) :
    (∀ name ∈ names, ∃ t, s.assign name value = .ok t) ∨
    ∃ before name after error, names = before ++ name :: after ∧
      (∀ earlier ∈ before, ∃ t, s.assign earlier value = .ok t) ∧
      s.assign name value = .error error := by
  induction names with
  | nil => exact .inl (by simp)
  | cons name rest ih =>
    cases assigned : s.assign name value with
    | error error => exact .inr ⟨[], name, rest, error, rfl, by simp, assigned⟩
    | ok t =>
      obtain all | ⟨before, other, after, error, rfl, earlier, failed⟩ := ih
      · exact .inl (List.forall_mem_cons.2 ⟨⟨t, assigned⟩, all⟩)
      · exact .inr ⟨name :: before, other, after, error, rfl,
          List.forall_mem_cons.2 ⟨⟨t, assigned⟩, earlier⟩, failed⟩

/-- The machine `n` becomes `k` when the value is written over what the names stand for: the
bindings at which they are found change to it, and nothing else does. -/
structure Machine.Assigned (names : List String) (value : Value) (n k : Machine) : Prop where
  machine : k = { n with state := n.state.overwrite names value }
  bindings : ∀ place name, k.state.at? place name =
    if name ∈ names ∧ n.state.place? name = some place then some value
    else n.state.at? place name

theorem Machine.assigned_overwrite (names : List String) (value : Value) (n : Machine) :
    Assigned names value n { n with state := n.state.overwrite names value } :=
  ⟨rfl, n.state.at?_overwrite names value⟩

section Node

variable {passes nesting : Nat} {expression : Node} {m n : Machine} {value : Value}
variable (evaluated : evaluate ⟨nesting, passes⟩ expression m = .ok value n)
include evaluated

theorem evaluate_assign_ok {targets : List String}
    (assignable : ∀ name ∈ targets, ∃ t, n.state.assign name value = .ok t) :
    evaluate ⟨nesting + 1, passes⟩ (.assign targets expression) m =
      .ok value { n with state := n.state.overwrite targets value } := by
  change (evaluate ⟨nesting, passes⟩ expression >>= _) m = _
  rw [Eval.bind_of_ok evaluated, Eval.bind_of_ok (Eval.assignAll_of_assignable assignable)]
  rfl

theorem evaluate_assign_error {before : List String} {name : String} {error : RuntimeError}
    (assignable : ∀ earlier ∈ before, ∃ t, n.state.assign earlier value = .ok t)
    (failed : n.state.assign name value = .error error) (after : List String) :
    evaluate ⟨nesting + 1, passes⟩ (.assign (before ++ name :: after) expression) m =
      .error (.error error) { n with state := n.state.overwrite before value } := by
  change (evaluate ⟨nesting, passes⟩ expression >>= _) m = _
  rw [Eval.bind_of_ok evaluated,
    Eval.bind_of_error (Eval.assignAll_of_error assignable failed after)]

end Node

/-- Assignment to several names. The expression is evaluated first, and what it fails with is what
the assignment fails with. Let it end with a value in some machine. Then the assignment succeeds
exactly if each of the names can be assigned to there; its value is that of the expression, each
name stands for it, and nothing but the bindings that the names stand for is changed, so that every
list of the same names comes to the same end. If one of the names cannot be assigned to there, the
error is that of the first such name, and exactly the names before it have been assigned to. -/
theorem evaluate_assign_targets (passes nesting : Nat) (targets : List String) (expression : Node)
    (m : Machine) :
    (∀ stop n, evaluate ⟨nesting, passes⟩ expression m = .error stop n →
      evaluate ⟨nesting + 1, passes⟩ (.assign targets expression) m = .error stop n) ∧
    ∀ value n, evaluate ⟨nesting, passes⟩ expression m = .ok value n →
      ((∃ w k, evaluate ⟨nesting + 1, passes⟩ (.assign targets expression) m = .ok w k) ↔
        ∀ name ∈ targets, ∃ t, n.state.assign name value = .ok t) ∧
      (∀ w k, evaluate ⟨nesting + 1, passes⟩ (.assign targets expression) m = .ok w k →
        w = value ∧ n.Assigned targets value k ∧
        (∀ name ∈ targets, k.state.lookup name = .ok value) ∧
        ∀ others, (∀ name, name ∈ others ↔ name ∈ targets) →
          evaluate ⟨nesting + 1, passes⟩ (.assign others expression) m = .ok w k) ∧
      ∀ stop k, evaluate ⟨nesting + 1, passes⟩ (.assign targets expression) m = .error stop k →
        ∃ before name after error, targets = before ++ name :: after ∧
          (∀ earlier ∈ before, ∃ t, n.state.assign earlier value = .ok t) ∧
          n.state.assign name value = .error error ∧ stop = .error error ∧
          n.Assigned before value k := by
  refine ⟨fun stop n failed => Eval.bind_of_error failed, fun value n evaluated => ?_⟩
  obtain assignable | ⟨before, name, after, error, rfl, earlier, failed⟩ :=
    n.state.assignable_or_first value targets
  · have ended := evaluate_assign_ok evaluated assignable
    refine ⟨⟨fun _ => assignable, fun _ => ⟨_, _, ended⟩⟩, fun w k done => ?_,
      fun stop k done => ?_⟩
    · rw [ended] at done
      cases done
      refine ⟨rfl, Machine.assigned_overwrite targets value n, ?_, ?_⟩
      · intro name member
        obtain ⟨t, assigned⟩ := assignable name member
        exact n.state.lookup_overwrite value member assigned
      · intro others same
        have again := fun name member => assignable name ((same name).1 member)
        rw [evaluate_assign_ok evaluated again, State.overwrite_congr _ _ same]
    · rw [ended] at done
      contradiction
  · have ended := evaluate_assign_error evaluated earlier failed after
    have unassignable : ¬∀ other ∈ before ++ name :: after,
        ∃ t, n.state.assign other value = .ok t := by
      intro assignable
      obtain ⟨t, assigned⟩ := assignable name (by simp)
      rw [failed] at assigned
      contradiction
    refine ⟨⟨fun ⟨w, k, done⟩ => ?_, fun assignable => absurd assignable unassignable⟩,
      fun w k done => ?_, fun stop k done => ?_⟩
    · rw [ended] at done
      contradiction
    · rw [ended] at done
      contradiction
    · rw [ended] at done
      cases done
      exact ⟨before, name, after, error, rfl, earlier, failed, rfl,
        Machine.assigned_overwrite before value n⟩

/-- In a function, two frames that both have `a`: assigning to `b`, `a` and `b` again is assigning
to `a` and `b`, and what the inner `a` hides stays. -/
theorem evaluate_assign_targets_hidden :
    ∃ m k : Machine, m.state.depth = 1 ∧
      evaluate ⟨2, 1⟩ (.assign ["b", "a", "b"] (.number 7.0 false)) m = .ok (Value.real 7.0) k ∧
      evaluate ⟨2, 1⟩ (.assign ["a", "b"] (.number 7.0 false)) m = .ok (Value.real 7.0) k ∧
      k.state.lookup "a" = .ok (Value.real 7.0) ∧
      k.state.at? (.frame 1) "a" = some (Value.real 2.0) := by
  let m : Machine := .ofState
    { State.bare with
      locals := ⟨⟨[("a", Value.real 1.0)]⟩, [⟨[("a", Value.real 2.0), ("b", Value.real 3.0)]⟩]⟩
      depth := 1 }
  have assignable : ∀ name ∈ ["b", "a", "b"],
      ∃ t, m.state.assign name (Value.real 7.0) = .ok t := by
    simp only [State.exists_assign_iff]
    decide +kernel
  obtain ⟨-, rest⟩ := evaluate_assign_targets 1 1 ["b", "a", "b"] (.number 7.0 false) m
  obtain ⟨succeeds, effect, -⟩ := rest (Value.real 7.0) m rfl
  obtain ⟨w, k, ended⟩ := succeeds.2 assignable
  obtain ⟨rfl, assigned, reads, same⟩ := effect w k ended
  refine ⟨m, k, rfl, ended, same ["a", "b"] (by simp [or_comm]), reads "a" (by simp), ?_⟩
  rw [assigned.bindings, if_neg (by decide +kernel)]
  rfl

end Reckoner
