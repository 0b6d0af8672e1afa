import Mathlib.Data.List.Chain
import Mathlib.Logic.Relation
import Reckoner.Proofs.Course

/-! The tables of names. A change of a state may add a function or a global and takes none away; a
function is never bound again, and the builtins stay what they are. So what a name stands for when
it is called is settled, for the rest of a session, as soon as it stands for anything. -/
namespace Reckoner

/-- One change of a state: by an operation of the language, by a frame or a call that is opened or
closed, or by time. -/
inductive State.Change : State → State → Prop where
  | declare {s t : State} {name : String} {value : Value} :
    s.declare name value = .ok t → Change s t
  | assign {s t : State} {name : String} {value : Value} : s.assign name value = .ok t → Change s t
  | define {s t : State} {name : String} {declaration : Declaration} :
    s.define name declaration = .ok t → Change s t
  | openFrame (s : State) (bindings : List (String × Value)) : Change s (s.openFrame bindings)
  | closeFrame (s : State) : Change s s.closeFrame
  | openCall (s : State) (bindings : List (String × Value)) : Change s (s.openCall bindings)
  | closeCall (s : State) : Change s s.closeCall
  | clock (s : State) (clock : Clock) : Change s { s with clock }

def State.Onward : State → State → Prop := Relation.ReflTransGen Change

namespace Eval.Course

theorem isChain_append {α : Type} {R : α → α → Prop} {a b : α} {first second : List α}
    (one : (a :: first).IsChain R) (last : first.getLastD a = b)
    (two : (b :: second).IsChain R) : (a :: (first ++ second)).IsChain R := by
  induction first generalizing a with
  | nil =>
    rw [List.getLastD_nil] at last
    exact last ▸ two
  | cons c rest ih =>
    rw [List.getLastD_cons] at last
    obtain ⟨step, onward⟩ := List.isChain_cons_cons.1 one
    exact .cons_cons step (ih onward last)

variable {α : Type} {x : Eval α} {m : Machine} {d e : Declared} {moments : List Moment}

theorem getLastD_states (course : Course x m d moments e) :
    (moments.map Moment.state).getLastD m.state = (x.final m).state := by
  have last := congrArg Moment.state course.getLastD
  rw [List.getLastD_eq_getLast?, ← Option.getD_map Moment.state] at last
  rw [List.getLastD_eq_getLast?, List.getLast?_map, last]

theorem changes_between {s closed : State} {names : List String}
    (course : Course x { m with state := s } ([] :: d) moments (names :: d))
    (body : (s :: moments.map Moment.state).IsChain State.Change) (opens : State.Change m.state s)
    (closes : State.Change (x.final { m with state := s }).state closed) :
    (m.state :: List.map Moment.state (⟨s, [] :: d⟩ :: moments ++ [⟨closed, d⟩])).IsChain
      State.Change := by
  rw [List.map_append, List.map_cons, List.cons_append]
  refine .cons_cons opens (isChain_append body course.getLastD_states ?_)
  exact .cons_cons closes (.singleton _)

theorem changes (course : Course x m d moments e) :
    (m.state :: moments.map Moment.state).IsChain State.Change := by
  induction course with
  | pure => exact .singleton _
  | throw => exact .singleton _
  | query => exact .singleton _
  | note => exact .singleton _
  | print => exact .singleton _
  | refused => exact .singleton _
  | declare d changed => exact .cons_cons (.declare changed) (.singleton _)
  | assign d changed => exact .cons_cons (.assign changed) (.singleton _)
  | define d changed => exact .cons_cons (.define changed) (.singleton _)
  | clock f m d => exact .cons_cons (.clock _ _) (.singleton _)
  | bind course ended _ one two =>
    have middle := course.getLastD_states
    rw [final_of_ok ended] at middle
    rw [List.map_append]
    exact isChain_append one middle two
  | stopped _ _ here => exact here
  | frame course inside =>
    refine course.changes_between inside (.openFrame _ _) ?_
    rw [withFrame, final_between]
    exact .closeFrame _
  | call course inside =>
    refine course.changes_between inside (.openCall _ _) ?_
    rw [withCall, final_between]
    exact .closeCall _

end Eval.Course

namespace State

/-- No function has the name of a builtin. -/
def FunctionsApart (s : State) : Prop :=
  ∀ name ∈ s.functions.keys, s.builtin? name = none

/-- All functions of `s` are functions of `t`, the same ones, and all globals of `s` are globals of
`t`, in their order and before any new ones. The builtins are the same. -/
structure Grows (s t : State) : Prop where
  functions : ∀ name declaration, s.functions.get? name = some declaration →
    t.functions.get? name = some declaration
  functionNames : s.functions.keys <+: t.functions.keys
  globalNames : s.globals.keys <+: t.globals.keys
  builtins : t.builtins = s.builtins
  apart : s.FunctionsApart → t.FunctionsApart

namespace Grows

variable {s t u : State}

theorem trans (first : Grows s t) (second : Grows t u) : Grows s u where
  functions name declaration known :=
    second.functions name declaration (first.functions name declaration known)
  functionNames := first.functionNames.trans second.functionNames
  globalNames := first.globalNames.trans second.globalNames
  builtins := second.builtins.trans first.builtins
  apart before := second.apart (first.apart before)

theorem of_functions (functions : t.functions = s.functions) (builtins : t.builtins = s.builtins)
    (globalNames : s.globals.keys <+: t.globals.keys) : Grows s t where
  functions name declaration known := functions ▸ known
  functionNames := functions ▸ List.prefix_refl _
  globalNames := globalNames
  builtins := builtins
  apart before name member := by
    rw [builtin?, builtins]
    exact before name (functions ▸ member)

theorem refl (s : State) : Grows s s := of_functions rfl rfl (List.prefix_refl _)

theorem declare {name : String} {value : Value} (declared : s.declare name value = .ok t) :
    Grows s t := by
  obtain ⟨_, rfl⟩ | ⟨_, rfl⟩ := eq_of_declare declared
  · exact of_functions rfl rfl (List.prefix_refl _)
  · exact of_functions rfl rfl (Table.keys_prefix_insert _ _ _)

theorem assign {name : String} {value : Value} (assigned : s.assign name value = .ok t) :
    Grows s t := by
  obtain ⟨_, _, rfl⟩ | ⟨_, rfl⟩ := eq_of_assign assigned
  · exact of_functions rfl rfl (List.prefix_refl _)
  · exact of_functions rfl rfl (Table.keys_prefix_insert _ _ _)

theorem define {name : String} {declaration : Declaration}
    (defined : s.define name declaration = .ok t) : Grows s t := by
  obtain ⟨newFunction, noBuiltin⟩ := free_of_define defined
  rw [eq_of_define defined]
  refine ⟨?_, Table.keys_prefix_insert _ _ _, List.prefix_refl _, rfl, ?_⟩
  · intro other known found
    -- What is found under a name has been there before, so it is not the new function.
    have present : s.functions.contains other = true := by
      rw [← Table.isSome_get?, found]
      rfl
    have apart : other ≠ name := by
      rintro rfl
      rw [newFunction] at present
      contradiction
    rw [Table.get?_insert, if_neg apart, found]
  · intro before other member
    obtain known | rfl := (Table.mem_keys_insert _ _ _ _).1 member
    · exact before other known
    · exact noBuiltin

theorem of_change (change : Change s t) : Grows s t := by
  cases change with
  | declare declared => exact declare declared
  | assign assigned => exact assign assigned
  | define defined => exact define defined
  | openFrame bindings => exact of_functions rfl rfl (List.prefix_refl _)
  | closeFrame => exact of_functions rfl rfl (List.prefix_refl _)
  | openCall bindings => exact of_functions rfl rfl (List.prefix_refl _)
  | closeCall => exact of_functions rfl rfl (List.prefix_refl _)
  | clock clock => exact of_functions rfl rfl (List.prefix_refl _)

theorem effect : State.Effect Grows where
  refl := refl
  trans := trans
  declare := declare
  assign := assign
  define := define
  clock s clock := of_change (.clock s clock)
  frame {s t bindings} inside :=
    (of_change (.openFrame s bindings)).trans (inside.trans (of_change (.closeFrame t)))
  call {s t bindings} inside :=
    (of_change (.openCall s bindings)).trans (inside.trans (of_change (.closeCall t)))

theorem of_onward (onward : s.Onward t) : Grows s t := by
  induction onward with
  | refl => exact refl s
  | tail _ change before => exact before.trans (of_change change)

theorem callee (grown : Grows s t) {name : String} (known : s.hasFunction name = true) :
    t.callee name = s.callee name := by
  have builtins : t.builtin? name = s.builtin? name := by rw [builtin?, builtin?, grown.builtins]
  rw [State.callee, State.callee, builtins]
  cases builtin : s.builtin? name with
  | some builtin => rfl
  | none =>
    have present : (s.functions.get? name).isSome = true := by
      rw [Table.isSome_get?]
      simpa [hasFunction, builtin] using known
    obtain ⟨declaration, found⟩ := Option.isSome_iff_exists.1 present
    rw [found, grown.functions name declaration found]

end Grows

end State

/-- However an evaluation ends, all functions and globals are still there, in their order and before
any new ones, the functions unchanged and the builtins too, and no function has got the name of a
builtin. Every evaluation and execution is a chain of single changes. So in a session that started
fresh, from any state on, be it in the middle of an evaluation, a name that can be called stands for
one builtin or one function; and it stands for the same one before and after the arguments of a call
are evaluated. -/
theorem evaluate_grows :
    (∀ (limits : Limits) (node : Node) (m : Machine),
      State.Grows m.state ((evaluate limits node).final m).state) ∧
    (∀ (limits : Limits) (node : Node) (x : Eval Value),
      x = evaluate limits node ∨ x = execute limits node →
      ∀ (m : Machine) (names : List String) (outer : Declared), ∃ moments names',
        Eval.Course x m (names :: outer) moments (names' :: outer) ∧
        (m.state :: moments.map Moment.state).IsChain State.Change ∧
        (moments.map Moment.state).getLastD m.state = (x.final m).state) ∧
    (∀ fresh s t : State, fresh = State.bare ∨ fresh = State.initial →
      fresh.Onward s → s.Onward t → s.FunctionsApart ∧
        ∀ name, s.hasFunction name = true → t.callee name = s.callee name) ∧
    (∀ (passes nesting : Nat) (arguments : List Node) (m : Machine) (name : String),
      m.state.hasFunction name = true →
      ((Eval.evalAll (Eval.evalNode passes nesting) arguments).final m).state.callee name =
        m.state.callee name) := by
  refine ⟨fun limits node m => State.Grows.effect.evaluate limits node m, ?_, ?_, ?_⟩
  · intro limits node x request m names outer
    have courses : Eval.HasCourse x := by
      obtain rfl | rfl := request
      · exact .evaluate limits node
      · exact .execute limits node
    obtain ⟨moments, names', course⟩ := courses m names outer
    exact ⟨moments, names', course, course.changes, course.getLastD_states⟩
  · intro fresh s t start reached onward
    have empty : fresh.FunctionsApart := by
      obtain rfl | rfl := start <;> exact fun name member => absurd member List.not_mem_nil
    exact ⟨(State.Grows.of_onward reached).apart empty,
      fun name known => (State.Grows.of_onward onward).callee known⟩
  · intro passes nesting arguments m name known
    exact (State.Grows.effect.onMachines.evalAll passes nesting arguments m).callee known

/-- The argument of a call of `f` defines `g`; `f` was defined in a fresh state. -/
theorem evaluate_grows_argument :
    let f : Declaration := ⟨["a"], .identifier "a"⟩
    let argument : Node := .block [.define "g" [] (.number 1.0 false), .number 2.0 false]
    ∃ s, State.initial.define "f" f = .ok s ∧ s.FunctionsApart ∧
      (∃ moments names,
        Eval.Course (evaluate .standard argument) (.ofState s) [[]] moments [names] ∧
        (s :: moments.map Moment.state).IsChain State.Change) ∧
      s.hasFunction "f" = true ∧
      ((Eval.evalAll (Eval.evalNode 9 400) [argument]).final (.ofState s)).state.hasFunction "g" =
        true ∧
      ((Eval.evalAll (Eval.evalNode 9 400) [argument]).final (.ofState s)).state.callee "f" =
        .function f := by
  intro f argument
  obtain ⟨_, courses, names, arguments⟩ := evaluate_grows
  obtain ⟨s, defined⟩ : ∃ s, State.initial.define "f" f = .ok s := ⟨_, rfl⟩
  have reached : State.initial.Onward s := .single (.define defined)
  obtain ⟨moments, last, course, chain, _⟩ :=
    courses .standard argument _ (.inl rfl) (.ofState s) [] []
  have apart := (names State.initial s s (.inr rfl) reached .refl).1
  cases defined
  refine ⟨_, rfl, apart, ⟨moments, last, course, chain⟩, rfl, rfl, ?_⟩
  exact arguments 9 400 [argument] (.ofState _) "f" rfl

end Reckoner
