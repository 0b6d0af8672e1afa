import Mathlib.Logic.Equiv.Basic
import Reckoner.Proofs.Effect
import Reckoner.Proofs.Store

/-! Other names for variables. If every variable `x` is called `r x` instead, in a tree, in the
functions, in all frames and among the globals, and no two variables get one name, then an
evaluation is the same but for these names. Names of functions stay what they are, so that a
variable may well come to be called as a function is. -/
namespace Reckoner

namespace RuntimeError

def rename (r : String → String) : RuntimeError → RuntimeError
  | unknownVariable name => unknownVariable (r name)
  | undefinedAssignment name => undefinedAssignment (r name)
  | variableRedeclared name => variableRedeclared (r name)
  | externalMutation name => externalMutation (r name)
  | error => error

theorem rename_of_nameless (r : String → String) {error : RuntimeError}
    (nameless : error.variable? = none) : error.rename r = error := by
  cases error <;> first | rfl | contradiction

end RuntimeError

def Stop.rename (r : String → String) : Stop → Stop
  | .error failure => .error (failure.rename r)
  | stop => stop

def Record.rename (r : String → String) : Record → Record
  | .declaredVariable isGlobal name => .declaredVariable isGlobal (r name)
  | .failed failure => .failed (failure.rename r)
  | record => record

def Callee.rename (r : String → String) : Callee → Callee
  | .function declaration => .function (declaration.rename r)
  | callee => callee

namespace Table

variable {α β : Type}

def rename (r : String → String) (t : Table α) : Table α := ⟨t.entries.map (Prod.map r id)⟩

def map (f : α → β) (t : Table α) : Table β := ⟨t.entries.map (Prod.map id f)⟩

theorem keys_map (f : α → β) (t : Table α) : (t.map f).keys = t.keys := by
  simp [map, keys, Function.comp_def]

theorem contains_map (f : α → β) (t : Table α) (key : String) :
    (t.map f).contains key = t.contains key := by
  rw [contains, contains, keys_map]

theorem get?_map (f : α → β) (t : Table α) (key : String) :
    (t.map f).get? key = (t.get? key).map f := by
  obtain ⟨entries⟩ := t
  simp only [map, get?]
  induction entries with
  | nil => rfl
  | cons entry rest ih =>
    rw [List.map_cons, List.lookup_cons, List.lookup_cons, ih, Prod.map_fst, id]
    cases key == entry.1 <;> rfl

theorem map_insert (f : α → β) (t : Table α) (key : String) (value : α) :
    (t.insert key value).map f = (t.map f).insert key (f value) := by
  rw [insert, insert, contains_map]
  split
  · simp only [map, List.map_map, Table.mk.injEq]
    apply List.map_congr_left
    intro entry _
    simp only [Function.comp_apply, Prod.map_fst, id]
    split <;> rfl
  · simp [map]

theorem keys_rename (r : String → String) (t : Table α) : (t.rename r).keys = t.keys.map r := by
  simp [rename, keys, Function.comp_def]

section Injective

variable {r : String → String} (injective : Function.Injective r)

include injective

theorem contains_rename (t : Table α) (key : String) :
    (t.rename r).contains (r key) = t.contains key := by
  rw [Bool.eq_iff_iff, contains_iff_mem, contains_iff_mem, keys_rename, List.mem_map]
  constructor
  · rintro ⟨other, member, same⟩
    exact injective same ▸ member
  · exact fun member => ⟨key, member, rfl⟩

theorem get?_rename (t : Table α) (key : String) : (t.rename r).get? (r key) = t.get? key := by
  obtain ⟨entries⟩ := t
  simp only [rename, get?]
  induction entries with
  | nil => rfl
  | cons entry rest ih =>
    have same : (r key == r entry.1) = (key == entry.1) := by
      rw [Bool.eq_iff_iff, beq_iff_eq, beq_iff_eq, injective.eq_iff]
    rw [List.map_cons, List.lookup_cons, List.lookup_cons, ih, Prod.map_fst, Prod.map_snd, same]
    rfl

theorem rename_insert (t : Table α) (key : String) (value : α) :
    (t.insert key value).rename r = (t.rename r).insert (r key) value := by
  rw [insert, insert, contains_rename injective]
  split
  · simp only [rename, List.map_map, Table.mk.injEq]
    apply List.map_congr_left
    intro entry _
    simp only [Function.comp_apply, Prod.map_fst, injective.eq_iff]
    split <;> rfl
  · simp [rename]

theorem rename_ofList (bindings : List (String × α)) :
    (ofList bindings).rename r = ofList (bindings.map (Prod.map r id)) := by
  have from_table : ∀ t : Table α,
      (bindings.foldl (fun t binding => t.insert binding.1 binding.2) t).rename r =
        (bindings.map (Prod.map r id)).foldl (fun t binding => t.insert binding.1 binding.2)
          (t.rename r) := by
    induction bindings with
    | nil => exact fun _ => rfl
    | cons binding rest ih =>
      intro t
      rw [List.foldl_cons, ih, rename_insert injective, List.map_cons, List.foldl_cons]
      rfl
  exact from_table empty

end Injective

end Table

namespace Scope

variable {α : Type}

def rename (r : String → String) (s : Scope α) : Scope α :=
  ⟨s.frame.rename r, s.outer.map (Table.rename r)⟩

theorem frames_rename (r : String → String) (s : Scope α) :
    (s.rename r).frames = s.frames.map (Table.rename r) := rfl

theorem rename_drop (r : String → String) (s : Scope α) :
    s.drop.rename r = (s.rename r).drop := by
  obtain ⟨frame, outer⟩ := s
  cases outer <;> rfl

variable {r : String → String} (injective : Function.Injective r)

include injective

theorem get?_rename (s : Scope α) (key : String) : (s.rename r).get? (r key) = s.get? key := by
  rw [get?, get?, frames_rename, List.findSome?_map]
  simp only [Function.comp_def, Table.get?_rename injective]

theorem contains_rename (s : Scope α) (key : String) :
    (s.rename r).contains (r key) = s.contains key := by
  rw [← isSome_get?, ← isSome_get?, get?_rename injective]

theorem rename_set (s : Scope α) (key : String) (value : α) :
    (s.set key value).rename r = (s.rename r).set (r key) value := by
  simp only [rename, set, Table.rename_insert injective]

theorem rename_push (s : Scope α) (bindings : List (String × α)) :
    (s.push bindings).rename r = (s.rename r).push (bindings.map (Prod.map r id)) := by
  simp only [push, rename, Table.rename_ofList injective]
  rfl

theorem replaceIn_rename (key : String) (value : α) (frames : List (Table α)) :
    replaceIn (r key) value (frames.map (Table.rename r)) =
      (replaceIn key value frames).map (List.map (Table.rename r)) := by
  induction frames with
  | nil => rfl
  | cons frame rest ih =>
    rw [List.map_cons, replaceIn, replaceIn, Table.contains_rename injective]
    split
    · rw [Option.map_some, List.map_cons, Table.rename_insert injective]
    · rw [ih]
      cases replaceIn key value rest <;> rfl

theorem replace_rename (s : Scope α) (key : String) (value : α) :
    (s.rename r).replace (r key) value = match s.replace key value with
      | .ok t => .ok (t.rename r)
      | .error _ => .error ⟨some (r key)⟩ := by
  rw [replace_eq, replace_eq, frames_rename, replaceIn_rename injective]
  cases replaced : replaceIn key value s.frames with
  | none => rfl
  | some frames => cases frames <;> rfl

end Scope

namespace State

def rename (r : String → String) (s : State) : State :=
  { s with
    globals := s.globals.rename r
    locals := s.locals.rename r
    functions := s.functions.map (Declaration.rename r) }

theorem builtin?_rename (r : String → String) (s : State) (name : String) :
    (s.rename r).builtin? name = s.builtin? name := rfl

theorem inFunction_rename (r : String → String) (s : State) :
    (s.rename r).inFunction = s.inFunction := rfl

theorem define_rename (r : String → String) (s : State) (name : String)
    (declaration : Declaration) :
    (s.rename r).define name (declaration.rename r) =
      ((s.define name declaration).map (rename r)).mapError (RuntimeError.rename r) := by
  rw [define, define, hasFunction, hasFunction, builtin?_rename]
  simp only [rename, Table.contains_map]
  split
  · rfl
  · rw [← Table.map_insert]
    rfl

theorem callee_rename (r : String → String) (s : State) (name : String) :
    (s.rename r).callee name = (s.callee name).rename r := by
  rw [callee, callee, builtin?_rename]
  cases s.builtin? name with
  | some builtin => rfl
  | none =>
    simp only [rename, Table.get?_map]
    cases s.functions.get? name <;> rfl

theorem closeFrame_rename (r : String → String) (s : State) :
    s.closeFrame.rename r = (s.rename r).closeFrame := by
  simp only [closeFrame, rename, Scope.rename_drop]

theorem closeCall_rename (r : String → String) (s : State) :
    s.closeCall.rename r = (s.rename r).closeCall := by
  simp only [closeCall, closeFrame, rename, Scope.rename_drop]

variable {r : String → String} (injective : Function.Injective r)

include injective

theorem openFrame_rename (s : State) (bindings : List (String × Value)) :
    (s.openFrame bindings).rename r = (s.rename r).openFrame (bindings.map (Prod.map r id)) := by
  simp only [openFrame, rename, Scope.rename_push injective]

theorem openCall_rename (s : State) (bindings : List (String × Value)) :
    (s.openCall bindings).rename r = (s.rename r).openCall (bindings.map (Prod.map r id)) := by
  simp only [openCall, openFrame, rename, Scope.rename_push injective]

theorem hasGlobal_rename (s : State) (name : String) :
    (s.rename r).hasGlobal (r name) = s.hasGlobal name :=
  s.globals.contains_rename injective name

theorem hasLocal_rename (s : State) (name : String) :
    (s.rename r).hasLocal (r name) = s.hasLocal name :=
  s.locals.contains_rename injective name

theorem lookup_rename (s : State) (name : String) :
    (s.rename r).lookup (r name) = (s.lookup name).mapError (RuntimeError.rename r) := by
  have found : (s.rename r).binding? (r name) = s.binding? name := by
    simp only [binding?, rename, Scope.get?_rename injective, Table.get?_rename injective]
  rw [lookup, lookup, found]
  cases s.binding? name <;> rfl

theorem checkFree_rename (s : State) (name : String) :
    (s.rename r).checkFree (r name) = (s.checkFree name).mapError (RuntimeError.rename r) := by
  rw [checkFree, checkFree, hasGlobal_rename injective, hasLocal_rename injective]
  split <;> rfl

theorem declare_rename (s : State) (name : String) (value : Value) :
    (s.rename r).declare (r name) value =
      ((s.declare name value).map (rename r)).mapError (RuntimeError.rename r) := by
  rw [declare_eq, declare_eq, hasGlobal_rename injective, hasLocal_rename injective,
    inFunction_rename]
  split
  · rfl
  · split
    · simp only [rename, ← Scope.rename_set injective]
      rfl
    · simp only [rename, ← Table.rename_insert injective]
      rfl

theorem assign_rename (s : State) (name : String) (value : Value) :
    (s.rename r).assign (r name) value =
      ((s.assign name value).map (rename r)).mapError (RuntimeError.rename r) := by
  rw [assign, assign, hasGlobal_rename injective, inFunction_rename]
  simp only [rename, Scope.replace_rename injective]
  cases s.locals.replace name value with
  | ok locals => rfl
  | error missing =>
    simp only
    split
    · rfl
    · split
      · rfl
      · rw [← Table.rename_insert injective]
        rfl

end State

def Machine.rename (r : String → String) (m : Machine) : Machine :=
  ⟨m.state.rename r, m.output, m.log.map (Record.rename r)⟩

namespace Eval

variable {α β : Type} {r : String → String}

def renameResult (r : String → String) :
    EStateM.Result Stop Machine α → EStateM.Result Stop Machine α
  | .ok value m => .ok value (m.rename r)
  | .error stop m => .error (stop.rename r) (m.rename r)

/-- On a machine with other names the second computation ends as the first does, with these
names. -/
def Renames (r : String → String) (x y : Eval α) : Prop :=
  ∀ m, y (m.rename r) = renameResult r (x m)

namespace Renames

theorem bind {x y : Eval α} {f g : α → Eval β} (first : Renames r x y)
    (rest : ∀ value, Renames r (f value) (g value)) : Renames r (x >>= f) (y >>= g) := by
  intro m
  have here := first m
  cases ended : x m with
  | ok value n =>
    rw [ended] at here
    rw [bind_of_ok ended, bind_of_ok here]
    exact rest value n
  | error stop n =>
    rw [ended] at here
    rw [bind_of_error ended, bind_of_error here]
    rfl

theorem query {f g : State → Except RuntimeError α}
    (same : ∀ s, g (s.rename r) = (f s).mapError (RuntimeError.rename r)) :
    Renames r (Eval.query f) (Eval.query g) := by
  intro m
  have here : g (m.rename r).state = (f m.state).mapError (RuntimeError.rename r) := same m.state
  unfold Eval.query
  rw [here]
  cases f m.state <;> rfl

theorem update {f g : State → Except RuntimeError State}
    (same : ∀ s, g (s.rename r) =
      ((f s).map (State.rename r)).mapError (RuntimeError.rename r)) :
    Renames r (Eval.update f) (Eval.update g) := by
  intro m
  have here : g (m.rename r).state =
      ((f m.state).map (State.rename r)).mapError (RuntimeError.rename r) := same m.state
  unfold Eval.update
  rw [here]
  cases f m.state <;> rfl

theorem note (record : Record) :
    Renames r (Eval.note record) (Eval.note (record.rename r)) := by
  intro m
  simp only [Eval.note, renameResult, Machine.rename, Array.map_push]

theorem between {opening opening' closing closing' : State → State} {x y : Eval α}
    (opens : ∀ s, (opening s).rename r = opening' (s.rename r))
    (closes : ∀ s, (closing s).rename r = closing' (s.rename r)) (body : Renames r x y) :
    Renames r (Eval.between opening closing x) (Eval.between opening' closing' y) := by
  intro m
  have here := body { m with state := opening m.state }
  simp only [Machine.rename, opens] at here
  simp only [Eval.between, Machine.rename, here]
  cases x { m with state := opening m.state } with
  | ok value n => simp only [renameResult, Machine.rename, closes]
  | error stop n => simp only [renameResult, Machine.rename, closes]

theorem declare (injective : Function.Injective r) (name : String) (value : Value) :
    Renames r (Eval.declare name value) (Eval.declare (r name) value) := by
  have changed : Renames r (Eval.update (·.declare name value))
      (Eval.update (·.declare (r name) value)) :=
    update fun s => s.declare_rename injective name value
  exact changed.bind fun _ m => note (.declaredVariable (!m.state.inFunction) name) m

theorem define (name : String) (declaration : Declaration) :
    Renames r (Eval.define name declaration) (Eval.define name (declaration.rename r)) := by
  have changed : Renames r (Eval.update (·.define name declaration))
      (Eval.update (·.define name (declaration.rename r))) :=
    update fun s => s.define_rename r name declaration
  refine changed.bind fun _ => ?_
  rw [Declaration.rename, List.length_map]
  exact note (.declaredFunction name declaration.parameters.length)

theorem enter (injective : Function.Injective r) (name : String)
    (bindings : List (String × Value)) {x y : Eval α} (body : Renames r x y) :
    Renames r (Eval.enter name bindings x)
      (Eval.enter name (bindings.map (Prod.map r id)) y) := by
  have called : Renames r (withCall bindings x) (withCall (bindings.map (Prod.map r id)) y) :=
    between (fun s => s.openCall_rename injective bindings) (State.closeCall_rename r) body
  intro m
  have noted := called { m with log := m.log.push (.calling name (m.state.depth + 1)) }
  simp only [Machine.rename, Array.map_push] at noted
  exact noted

theorem runBuiltin (builtin : Builtin) (values : List Value) :
    Renames r (Eval.runBuiltin builtin values) (Eval.runBuiltin builtin values) := by
  have printed : Renames r (print (builtin.printed values)) (print (builtin.printed values)) :=
    fun _ => rfl
  have passed : Renames r (passTime builtin) (passTime builtin) := by
    cases builtin <;> exact fun _ => rfl
  refine printed.bind fun _ => (query fun s => ?_).bind fun value => passed.bind fun _ _ => rfl
  -- A builtin sees values only, so a failure of its has no name in it that could change.
  have nameless := Nameless.builtin builtin s.clock.elapsed values
  change builtin.apply s.clock.elapsed values = _
  cases applied : builtin.apply s.clock.elapsed values with
  | ok value => rfl
  | error error =>
    rw [Except.mapError, RuntimeError.rename_of_nameless r (nameless error applied)]

theorem correspondence (injective : Function.Injective r) :
    Correspondence (fun _ => True) r (fun {_} x y => Renames r x y) where
  child _ _ := trivial
  pure _ _ := rfl
  bind := bind
  fail {_ error} nameless m := by
    change EStateM.Result.error (Stop.error error) _ = .error (.error (error.rename r)) _
    rw [RuntimeError.rename_of_nameless r nameless]
  unfinished _ := rfl
  misplacedRange _ _ := rfl
  hole _ _ := rfl
  lookup _ := query fun s => s.lookup_rename injective _
  checkFree _ := query fun s => s.checkFree_rename injective _
  declare value _ := declare injective _ value
  assign value _ _ := update fun s => s.assign_rename injective _ value
  define _ := define _ _
  callee := by
    intro name _ f g _ builtin function unknown m
    have both : Renames r (f (m.state.callee name)) (g ((m.state.callee name).rename r)) :=
      m.state.callee_cases (P := fun c => Renames r (f c) (g (c.rename r)))
        (fun _ named => builtin _ named trivial)
        (fun declaration _ => function declaration trivial) unknown
    rw [← State.callee_rename] at both
    exact both m
  builtin values _ _ _ := runBuiltin _ values
  frame bindings body :=
    between (fun s => s.openFrame_rename injective bindings) (State.closeFrame_rename r) body
  call name bindings body := enter injective name bindings body

end Renames

end Eval

/-- Let `r` give different names to different variables. The tree with the names of `r` is evaluated
on the machine with the names of `r` as the tree itself is on the machine itself: with the same
value, or the same failure with the name of `r` if it is about a variable, with the same lines, and
on a machine that is the same but for the names of `r`. -/
theorem evaluate_rename (r : String → String) (injective : Function.Injective r) (limits : Limits)
    (node : Node) (m : Machine) :
    evaluate limits (node.rename r) (m.rename r) =
      Eval.renameResult r (evaluate limits node m) :=
  (Eval.Renames.correspondence injective).evalNode limits.passes limits.nesting trivial m

/-- The variable `x` gets the name of the function `f` that it is handed to, and the other way
round. The call still runs the function and has the same value, and where there is no variable of
that name the failure is about `f`. -/
theorem evaluate_rename_swap :
    let r : String → String := Equiv.swap "x" "f"
    let node : Node := .call "f" [.identifier "x"]
    let function : Declaration := ⟨["x"], .assign ["x"] (.identifier "x")⟩
    let s : State := { State.bare with functions := .ofList [("f", function)] }
    let m := Machine.ofState { s with globals := .ofList [("x", Value.zero)] }
    let called := (evaluate .standard node).final m
    Function.Injective r ∧ node.rename r = .call "f" [.identifier "f"] ∧
      evaluate .standard (.call "f" [.identifier "f"]) (m.rename r) =
        .ok Value.zero (called.rename r) ∧
      evaluate .standard (.call "f" [.identifier "f"]) ((Machine.ofState s).rename r) =
        .error (.error (.unknownVariable "f")) ((Machine.ofState s).rename r) := by
  intro r node function s m called
  have injective : Function.Injective r := (Equiv.swap "x" "f").injective
  exact ⟨injective, rfl, evaluate_rename r injective .standard node m,
    evaluate_rename r injective .standard node (.ofState s)⟩

end Reckoner
