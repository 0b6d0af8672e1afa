import Mathlib.Data.Set.Defs
import Reckoner.Proofs.Simulation
import Reckoner.Proofs.Store

/-! What of its variables a program can see. A run shows which value each name in sight has, for the
names that the program mentions; it does not show which frame holds a binding, what a binding hides,
or any other name. So a chain of frames can be replaced by one flat frame. -/
namespace Reckoner

namespace Scope

variable {α : Type} {N : Set String}

/-- Two chains of which the last `opened` frames stand against each other, one by one with the same
bindings of the names in `N`, while the rest of the one chain stands against the rest of the other
as a whole, with the same names of `N` in sight. -/
inductive Aligned (N : Set String) : Nat → Scope α → Scope α → Prop where
  | base {s t : Scope α} : (∀ name ∈ N, s.get? name = t.get? name) → Aligned N 0 s t
  | push {opened : Nat} {f g : Table α} {s t : Scope α} :
    (∀ name ∈ N, f.get? name = g.get? name) → Aligned N opened s t →
    Aligned N (opened + 1) ⟨f, s.frames⟩ ⟨g, t.frames⟩

namespace Aligned

variable {opened : Nat} {s t : Scope α}

theorem get? (aligned : Aligned N opened s t) {name : String} (member : name ∈ N) :
    s.get? name = t.get? name := by
  induction aligned with
  | base same => exact same name member
  | push same _ ih => rw [get?_cons, get?_cons, same name member, ih]

theorem contains (aligned : Aligned N opened s t) {name : String} (member : name ∈ N) :
    s.contains name = t.contains name :=
  contains_eq_of_get?_eq (aligned.get? member)

theorem set (aligned : Aligned N opened s t) (key : String) (value : α) :
    Aligned N opened (s.set key value) (t.set key value) := by
  cases aligned with
  | base same =>
    refine .base fun name member => ?_
    rw [get?_set, get?_set, same name member]
  | push same below =>
    refine .push (fun name member => ?_) below
    rw [Table.get?_insert, Table.get?_insert, same name member]

-- A plain agreement of what is in sight is not kept by this: the one chain could change a binding
-- in a frame that is closed later, and the other one a binding further out.
theorem replace (aligned : Aligned N opened s t) {name : String} (member : name ∈ N)
    (present : s.contains name = true) (value : α) :
    ∃ s' t', s.replace name value = .ok s' ∧ t.replace name value = .ok t' ∧
      Aligned N opened s' t' := by
  induction aligned with
  | @base s t same =>
    obtain ⟨s', left⟩ := exists_replace present value
    have present' : t.contains name = true := by
      rw [← contains_eq_of_get?_eq (same name member), present]
    obtain ⟨t', right⟩ := exists_replace present' value
    refine ⟨s', t', left, right, .base fun other wanted => ?_⟩
    rw [get?_of_replace left, get?_of_replace right, same other wanted]
  | @push opened f g s t same below ih =>
    have alike : f.contains name = g.contains name :=
      Table.contains_eq_of_get?_eq (same name member)
    cases here : f.contains name with
    | true =>
      refine ⟨⟨f.insert name value, s.frames⟩, ⟨g.insert name value, t.frames⟩, ?_, ?_, ?_⟩
      · simp only [Scope.replace, here, if_true, Scope.set]
      · simp only [Scope.replace, ← alike, here, if_true, Scope.set]
      · refine .push (fun other wanted => ?_) below
        rw [Table.get?_insert, Table.get?_insert, same other wanted]
    | false =>
      rw [contains_cons, here, Bool.false_or] at present
      obtain ⟨s', t', left, right, aligned⟩ := ih present
      exact ⟨_, _, replace_cons here left, replace_cons (alike ▸ here) right, .push same aligned⟩

theorem opening (aligned : Aligned N opened s t) (bindings : List (String × α)) :
    Aligned N (opened + 1) (s.push bindings) (t.push bindings) :=
  .push (fun _ _ => rfl) aligned

theorem drop (aligned : Aligned N (opened + 1) s t) : Aligned N opened s.drop t.drop := by
  cases aligned with
  | push _ below => exact below

end Aligned

def collapse (s : Scope α) : Scope α :=
  ⟨⟨s.keys.filterMap fun key => (s.get? key).map fun value => (key, value)⟩, []⟩

theorem lookup_filterMap (f : String → Option α) (keys : List String) (key : String) :
    (keys.filterMap fun key => (f key).map fun value => (key, value)).lookup key =
      if key ∈ keys then f key else none := by
  induction keys with
  | nil => rfl
  | cons first rest ih =>
    by_cases same : key = first
    · subst same
      cases found : f key with
      | none => simp [found, ih]
      | some value => simp [found]
    · cases found : f first with
      | none => simp [same, found, ih]
      | some value => simp [same, found, ih, List.lookup_cons, beq_eq_false_iff_ne.2 same]

theorem get?_collapse (s : Scope α) (key : String) : s.collapse.get? key = s.get? key := by
  rw [get?_eq, collapse, List.findSome?_nil, Option.or_none]
  refine (lookup_filterMap s.get? s.keys key).trans ?_
  split
  · rfl
  · next absent => exact (get?_eq_none_of_not_mem absent).symm

end Scope

def Declaration.vars (d : Declaration) : List String := d.parameters ++ d.body.vars

namespace State

variable {N : Set String}

def Within (N : Set String) (s : State) : Prop :=
  ∀ name declaration, s.functions.get? name = some declaration →
    ∀ x ∈ declaration.vars, x ∈ N

/-- Two states that a program can tell apart by nothing but names outside of `N`. How the locals
are laid out over frames does not count, and neither does what is out of sight. -/
structure AgreeOn (N : Set String) (s t : State) : Prop where
  functions : s.functions = t.functions
  builtins : s.builtins = t.builtins
  depth : s.depth = t.depth
  clock : s.clock = t.clock
  globals : ∀ name ∈ N, s.globals.get? name = t.globals.get? name
  locals : ∀ name ∈ N, s.locals.get? name = t.locals.get? name

structure Linked (N : Set String) (opened : Nat) (s t : State) : Prop where
  functions : s.functions = t.functions
  builtins : s.builtins = t.builtins
  depth : s.depth = t.depth
  clock : s.clock = t.clock
  globals : ∀ name ∈ N, s.globals.get? name = t.globals.get? name
  locals : s.locals.Aligned N opened t.locals
  within : s.Within N

theorem AgreeOn.linked {s t : State} (agree : s.AgreeOn N t) (within : s.Within N) :
    Linked N 0 s t :=
  ⟨agree.functions, agree.builtins, agree.depth, agree.clock, agree.globals, .base agree.locals,
    within⟩

namespace Linked

variable {opened : Nat} {s t : State}

theorem agreeOn (linked : Linked N opened s t) : s.AgreeOn N t :=
  ⟨linked.functions, linked.builtins, linked.depth, linked.clock, linked.globals,
    fun _ member => linked.locals.get? member⟩

theorem hasGlobal (linked : Linked N opened s t) {name : String} (member : name ∈ N) :
    s.hasGlobal name = t.hasGlobal name :=
  Table.contains_eq_of_get?_eq (linked.globals name member)

theorem hasLocal (linked : Linked N opened s t) {name : String} (member : name ∈ N) :
    s.hasLocal name = t.hasLocal name :=
  linked.locals.contains member

theorem inFunction (linked : Linked N opened s t) : s.inFunction = t.inFunction := by
  rw [State.inFunction, State.inFunction, linked.depth]

theorem builtin? (linked : Linked N opened s t) (name : String) :
    s.builtin? name = t.builtin? name := by
  rw [State.builtin?, State.builtin?, linked.builtins]

theorem lookup (linked : Linked N opened s t) {name : String} (member : name ∈ N) :
    s.lookup name = t.lookup name := by
  rw [State.lookup, State.lookup, binding?, binding?, linked.locals.get? member,
    linked.globals name member]

theorem insertGlobal (linked : Linked N opened s t) (name : String) (value : Value) :
    Linked N opened { s with globals := s.globals.insert name value }
      { t with globals := t.globals.insert name value } := by
  refine { linked with globals := fun other member => ?_ }
  rw [Table.get?_insert, Table.get?_insert, linked.globals other member]

theorem declare (linked : Linked N opened s t) {name : String} (member : name ∈ N)
    (value : Value) :
    Paired (Linked N opened) (s.declare name value) (t.declare name value) := by
  rw [declare_eq, declare_eq, linked.hasGlobal member, linked.hasLocal member, linked.inFunction]
  split
  · exact .error _
  · split
    · exact .ok { linked with locals := linked.locals.set name value }
    · exact .ok (linked.insertGlobal name value)

theorem assign (linked : Linked N opened s t) {name : String} (member : name ∈ N)
    (value : Value) :
    Paired (Linked N opened) (s.assign name value) (t.assign name value) := by
  have alike : s.locals.contains name = t.locals.contains name := linked.locals.contains member
  rw [State.assign, State.assign]
  cases present : s.locals.contains name with
  | true =>
    obtain ⟨_, _, left, right, aligned⟩ := linked.locals.replace member present value
    rw [left, right]
    exact .ok { linked with locals := aligned }
  | false =>
    rw [Scope.replace_of_not_contains present, Scope.replace_of_not_contains (alike ▸ present),
      linked.hasGlobal member, linked.inFunction]
    simp only
    split
    · exact .error _
    · split
      · exact .error _
      · exact .ok (linked.insertGlobal name value)

theorem define (linked : Linked N opened s t) (name : String) {declaration : Declaration}
    (mentioned : ∀ x ∈ declaration.vars, x ∈ N) :
    Paired (Linked N opened) (s.define name declaration) (t.define name declaration) := by
  rw [State.define, State.define, hasFunction, hasFunction, linked.builtin?, linked.functions]
  split
  · exact .error _
  · refine .ok { linked with functions := rfl, within := ?_ }
    intro other found known
    rw [Table.get?_insert] at known
    split at known
    · cases known
      exact mentioned
    · exact linked.within other found (linked.functions ▸ known)

theorem callee (linked : Linked N opened s t) (name : String) : s.callee name = t.callee name := by
  rw [State.callee, State.callee, linked.builtin?, linked.functions]

theorem simulation :
    State.Simulation (· + 1) (· + 1) (fun node => ∀ x ∈ node.vars, x ∈ N) (Linked N) where
  child mentioned below x member := mentioned x (Node.mem_vars_of_child below member)
  depth linked := linked.depth
  lookup mentioned linked := linked.lookup (mentioned _ (by simp [Node.vars]))
  checkFree mentioned linked := by
    have member := mentioned _ (Node.mem_vars_of_names (List.mem_singleton.2 rfl))
    rw [State.checkFree, State.checkFree, linked.hasGlobal member, linked.hasLocal member]
  declare mentioned linked :=
    linked.declare (mentioned _ (Node.mem_vars_of_names (List.mem_singleton.2 rfl))) _
  assign mentioned target linked :=
    linked.assign (mentioned _ (Node.mem_vars_of_names target)) _
  define mentioned linked := linked.define _ mentioned
  callee _ linked := linked.callee _
  body linked known x member := linked.within _ _ known x (List.mem_append_right _ member)
  builtin _ _ _ linked := by rw [linked.clock]
  advance _ _ _ linked := { linked with clock := congrArg Clock.advance linked.clock }
  openFrame linked := { linked with locals := linked.locals.opening _ }
  closeFrame linked := { linked with locals := linked.locals.drop }
  openCall linked :=
    { linked with
      depth := congrArg (· + 1) linked.depth
      locals := linked.locals.opening _ }
  closeCall linked :=
    { linked with
      depth := congrArg (· - 1) linked.depth
      locals := linked.locals.drop }

end Linked

theorem AgreeOn.evaluate {m n : Machine} (limits : Limits) {node : Node}
    (mentioned : ∀ x ∈ node.vars, x ∈ N) (within : m.state.Within N)
    (related : m.Related (State.AgreeOn N) n) :
    Eval.Alike (fun s t => s.AgreeOn N t ∧ s.Within N)
      (Reckoner.evaluate limits node m) (Reckoner.evaluate limits node n) := by
  have linked : m.Related (Linked N 0) n :=
    ⟨related.output, related.log, related.state.linked within⟩
  exact (Linked.simulation.evaluate limits mentioned linked).mono
    fun _ _ ended => ⟨ended.agreeOn, ended.within⟩

def flat (s : State) : State := { s with locals := s.locals.collapse }

theorem agreeOn_flat (N : Set String) (s : State) : s.AgreeOn N s.flat :=
  ⟨rfl, rfl, rfl, rfl, fun _ _ => rfl, fun name _ => (s.locals.get?_collapse name).symm⟩

end State

/-- Let `N` have every variable that occurs in a tree and in the functions of a state. Two states
that agree on `N` are told apart by no run of the tree: the runs end with the same value or the same
failure, print and note the same, and end in states that agree on `N` again, which still has the
variables of all functions. In particular the locals can be put into one frame. -/
theorem evaluate_agreeOn :
    (∀ (N : Set String) (limits : Limits) (node : Node) (m n : Machine),
      (∀ x ∈ node.vars, x ∈ N) → m.state.Within N → m.Related (State.AgreeOn N) n →
      Eval.Alike (fun s t => s.AgreeOn N t ∧ s.Within N)
        (evaluate limits node m) (evaluate limits node n)) ∧
    (∀ (limits : Limits) (node : Node) (m : Machine),
      Eval.Alike (State.AgreeOn Set.univ) (evaluate limits node m)
        (evaluate limits node { m with state := m.state.flat })) := by
  refine ⟨fun N limits node m n => State.AgreeOn.evaluate limits, fun limits node m => ?_⟩
  have everything : ∀ x ∈ node.vars, x ∈ Set.univ := fun _ _ => trivial
  have within : m.state.Within Set.univ := fun _ _ _ _ _ => trivial
  have related : m.Related (State.AgreeOn Set.univ) { m with state := m.state.flat } :=
    ⟨rfl, rfl, m.state.agreeOn_flat Set.univ⟩
  exact (State.AgreeOn.evaluate limits everything within related).mono fun _ _ agree => agree.1

theorem evaluate_agreeOn_frames :
    let body : Node := .assign ["x"] (.identifier "a")
    let s : State := { State.initial with functions := Table.empty.insert "f" ⟨["a"], body⟩ }
    let left := (s.openCall [("x", Value.real 1.0)]).openFrame [("y", Value.real 2.0)]
    let right := s.openCall [("x", Value.real 1.0)]
    let node : Node := .call "f" [.identifier "x"]
    let N : Set String := {name | name = "x" ∨ name = "a"}
    left.AgreeOn N right ∧
      Eval.Alike (fun s t => s.AgreeOn N t ∧ s.Within N)
        (evaluate .standard node (.ofState left)) (evaluate .standard node (.ofState right)) := by
  intro body s left right node N
  have agree : left.AgreeOn N right := by
    refine ⟨rfl, rfl, rfl, rfl, fun _ _ => rfl, ?_⟩
    rintro name (rfl | rfl) <;> rfl
  have within : left.Within N := by
    intro name declaration known x member
    change (Table.empty.insert "f" ⟨["a"], body⟩).get? name = some declaration at known
    rw [Table.get?_insert] at known
    split at known
    · cases known
      have named : x = "a" ∨ x = "x" := by
        simpa [Declaration.vars, body, Node.vars, or_assoc, or_comm] using member
      exact named.symm
    · contradiction
  have mentioned : ∀ x ∈ node.vars, x ∈ N := by
    intro x member
    simp only [node, Node.vars, Node.varsAll, List.append_nil, List.mem_singleton] at member
    exact .inl member
  exact ⟨agree, evaluate_agreeOn.1 N .standard node (.ofState left) (.ofState right) mentioned
    within ⟨rfl, rfl, agree⟩⟩

end Reckoner
