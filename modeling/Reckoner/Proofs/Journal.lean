import Mathlib.Data.List.Chain
import Reckoner.Proofs.Effect
import Reckoner.Proofs.Store

/-! What the log says is what was done. A variable, a function or a call is noted apart from the
change that the note is about, with other evaluations before, between and after, and any of these
may stop. Still the notes of a run, read in order, are the globals and the functions that it has
added, and its calls as a tree, in the order in which they begin. -/
namespace Reckoner

namespace Record

def global? : Record → Option String
  | declaredVariable true name => some name
  | _ => none

def function? : Record → Option (String × Nat)
  | declaredFunction name arity => some (name, arity)
  | _ => none

def call? : Record → Option (String × Nat)
  | calling name depth => some (name, depth)
  | _ => none

end Record

inductive Call where
  | made (name : String) (inside : List Call)

namespace Call

mutual

def preorder (depth : Nat) : Call → List (String × Nat)
  | made name inside => (name, depth + 1) :: preorderAll (depth + 1) inside

def preorderAll (depth : Nat) : List Call → List (String × Nat)
  | [] => []
  | call :: rest => call.preorder depth ++ preorderAll depth rest

end

@[simp] theorem preorderAll_append (depth : Nat) (first second : List Call) :
    preorderAll depth (first ++ second) = preorderAll depth first ++ preorderAll depth second := by
  induction first with
  | nil => rfl
  | cons call rest ih => rw [List.cons_append, preorderAll, preorderAll, ih, List.append_assoc]

/-- Depths of calls, in the order in which the calls begin: the first is one below `depth`, none is
higher than that, and none is more than one below the call before it. -/
structure Nested (depth : Nat) (depths : List Nat) : Prop where
  first : ∀ d ∈ depths.head?, d = depth + 1
  lower : ∀ d ∈ depths, depth + 1 ≤ d
  next : depths.IsChain fun d e => e ≤ d + 1

namespace Nested

theorem nil (depth : Nat) : Nested depth [] := ⟨by simp, by simp, .nil⟩

theorem append {depth : Nat} {one two : List Nat} (before : Nested depth one)
    (after : Nested depth two) : Nested depth (one ++ two) where
  first := by
    cases one with
    | nil => exact after.first
    | cons d rest => exact before.first
  lower := List.forall_mem_append.2 ⟨before.lower, after.lower⟩
  next := by
    refine before.next.append after.next fun d last e head => ?_
    have bound := before.lower d (List.mem_of_getLast? last)
    have here := after.first e head
    omega

theorem cons {depth : Nat} {inside : List Nat} (nested : Nested (depth + 1) inside) :
    Nested depth ((depth + 1) :: inside) where
  first := by simp
  lower := by
    refine List.forall_mem_cons.2 ⟨le_rfl, fun d member => ?_⟩
    have := nested.lower d member
    omega
  next := by
    refine nested.next.cons fun d head => ?_
    exact (nested.first d head).le

end Nested

mutual

theorem nested_preorder (depth : Nat) :
    (call : Call) → Nested depth ((call.preorder depth).map Prod.snd)
  | made name inside => by
    rw [preorder, List.map_cons]
    exact (nested_preorderAll (depth + 1) inside).cons

theorem nested_preorderAll (depth : Nat) :
    (calls : List Call) → Nested depth ((preorderAll depth calls).map Prod.snd)
  | [] => .nil depth
  | call :: rest => by
    rw [preorderAll, List.map_append]
    exact (nested_preorder depth call).append (nested_preorderAll depth rest)

end

end Call

namespace Eval

variable {α β : Type}

/-- The calls that a computation makes on a machine, in order, each with the calls inside it. -/
inductive Calls : {α : Type} → (x : Eval α) → (m : Machine) → List Call → Prop where
  | pure {α : Type} (value : α) (m : Machine) : Calls (pure value) m []
  | throw {α : Type} (stop : Stop) (m : Machine) : Calls (throw stop : Eval α) m []
  | query {α : Type} (f : State → Except RuntimeError α) (m : Machine) : Calls (query f) m []
  | print (lines : List String) (m : Machine) : Calls (print lines) m []
  | clock (f : Clock → Clock) (m : Machine) : Calls (changeClock f) m []
  | declare (name : String) (value : Value) (m : Machine) : Calls (declare name value) m []
  | assign (name : String) (value : Value) (m : Machine) :
    Calls (update (·.assign name value)) m []
  | define (name : String) (declaration : Declaration) (m : Machine) :
    Calls (define name declaration) m []
  | bind {α β : Type} {x : Eval α} {f : α → Eval β} {m n : Machine} {value : α}
    {first second : List Call} : Calls x m first → x m = .ok value n → Calls (f value) n second →
    Calls (x >>= f) m (first ++ second)
  | stopped {α β : Type} {x : Eval α} {f : α → Eval β} {m n : Machine} {stop : Stop}
    {calls : List Call} : Calls x m calls → x m = .error stop n → Calls (x >>= f) m calls
  | frame {α : Type} {x : Eval α} {bindings : List (String × Value)} {m : Machine}
    {calls : List Call} : Calls x { m with state := m.state.openFrame bindings } calls →
    Calls (withFrame bindings x) m calls
  | enter {α : Type} {x : Eval α} {name : String} {bindings : List (String × Value)} {m : Machine}
    {inside : List Call} :
    Calls x { m with
      state := m.state.openCall bindings
      log := m.log.push (.calling name (m.state.depth + 1)) } inside →
    Calls (enter name bindings x) m [.made name inside]

def HasCalls (x : Eval α) : Prop := ∀ m, ∃ calls, Calls x m calls

namespace HasCalls

theorem bind {x : Eval α} {f : α → Eval β} (first : HasCalls x)
    (rest : ∀ value, HasCalls (f value)) : HasCalls (x >>= f) := by
  intro m
  obtain ⟨calls, here⟩ := first m
  cases ended : x m with
  | ok value n =>
    obtain ⟨more, onward⟩ := rest value n
    exact ⟨calls ++ more, here.bind ended onward⟩
  | error stop n => exact ⟨calls, here.stopped ended⟩

theorem closed : Closed (fun _ => True) (fun {_} x => HasCalls x) where
  child _ _ := trivial
  pure value m := ⟨[], .pure value m⟩
  bind := bind
  fail _ m := ⟨[], .throw _ m⟩
  unfinished m := ⟨[], .throw _ m⟩
  misplacedRange _ m := ⟨[], .throw _ m⟩
  hole _ m := ⟨[], .throw _ m⟩
  query f m := ⟨[], .query f m⟩
  declare value _ m := ⟨[], .declare _ value m⟩
  assign value _ _ m := ⟨[], .assign _ value m⟩
  define _ m := ⟨[], .define _ _ m⟩
  callee := by
    intro name _ f _ builtin function unknown m
    have known : HasCalls (f (m.state.callee name)) :=
      m.state.callee_cases (P := fun c => HasCalls (f c)) builtin
        (fun declaration _ => function declaration trivial) unknown
    obtain ⟨calls, here⟩ := known m
    exact ⟨[] ++ calls, Calls.bind (.query _ m) rfl here⟩
  print lines m := ⟨[], .print lines m⟩
  clock f m := ⟨[], .clock f m⟩
  frame bindings body m := by
    obtain ⟨calls, inside⟩ := body { m with state := m.state.openFrame bindings }
    exact ⟨calls, .frame inside⟩
  call name bindings body m := by
    obtain ⟨calls, inside⟩ := body { m with
      state := m.state.openCall bindings
      log := m.log.push (.calling name (m.state.depth + 1)) }
    exact ⟨_, .enter inside⟩

theorem evaluate (limits : Limits) (node : Node) : HasCalls (evaluate limits node) :=
  closed.evalNode limits.passes limits.nesting trivial

end HasCalls

end Eval

/-- The notes taken from the machine `m` to the machine `n` are of the globals and the functions
that `n` has more than `m`, and of these calls. -/
structure Machine.Noted (calls : List Call) (added : List (String × Declaration))
    (noted : List Record) (m n : Machine) : Prop where
  depth : n.state.depth = m.state.depth
  log : n.log.toList = m.log.toList ++ noted
  globals : n.state.globals.keys = m.state.globals.keys ++ noted.filterMap Record.global?
  functions : n.state.functions.entries = m.state.functions.entries ++ added
  arities : noted.filterMap Record.function? =
    added.map fun entry => (entry.1, entry.2.parameters.length)
  calls : noted.filterMap Record.call? = Call.preorderAll m.state.depth calls

namespace Machine.Noted

variable {calls more : List Call} {added others : List (String × Declaration)}
  {noted onward : List Record} {l m n : Machine}

theorem nothing (depth : n.state.depth = m.state.depth) (log : n.log = m.log)
    (globals : n.state.globals.keys = m.state.globals.keys)
    (functions : n.state.functions = m.state.functions) : Noted [] [] [] m n := by
  constructor <;> simp [depth, log, globals, functions, Call.preorderAll]

theorem refl (m : Machine) : Noted [] [] [] m m := nothing rfl rfl rfl rfl

theorem trans (first : Noted calls added noted l m) (second : Noted more others onward m n) :
    Noted (calls ++ more) (added ++ others) (noted ++ onward) l n where
  depth := second.depth.trans first.depth
  log := by rw [second.log, first.log, List.append_assoc]
  globals := by rw [second.globals, first.globals, List.filterMap_append, List.append_assoc]
  functions := by rw [second.functions, first.functions, List.append_assoc]
  arities := by rw [List.filterMap_append, first.arities, second.arities, List.map_append]
  calls := by
    rw [List.filterMap_append, first.calls, second.calls, first.depth, Call.preorderAll_append]

theorem declare (name : String) (value : Value) (m : Machine) :
    ∃ noted, Noted [] [] noted m ((Eval.declare name value).final m) := by
  rw [Eval.final_declare]
  cases declared : m.state.declare name value with
  | error error => exact ⟨[], refl m⟩
  | ok s =>
    obtain ⟨inside, rfl⟩ | ⟨outside, rfl⟩ := State.eq_of_declare declared
    · -- In a function the variable is a local, and noted as one.
      refine ⟨[.declaredVariable false name], ?_⟩
      constructor <;>
        simp [State.inFunction, inside, Record.global?, Record.function?, Record.call?,
          Call.preorderAll]
    · have free : m.state.globals.contains name = false := (State.free_of_declare declared).1
      refine ⟨[.declaredVariable true name], ?_⟩
      constructor <;>
        simp [State.inFunction, outside, Record.global?, Record.function?, Record.call?,
          Call.preorderAll, Table.keys_insert, free]

theorem assign (name : String) (value : Value) (m : Machine) :
    Noted [] [] [] m ((Eval.update (·.assign name value)).final m) := by
  rw [Eval.final_update]
  cases assigned : m.state.assign name value with
  | error error => exact refl m
  | ok s =>
    obtain ⟨locals, _, rfl⟩ | ⟨⟨_, _, known⟩, rfl⟩ := State.eq_of_assign assigned
    · exact nothing rfl rfl rfl rfl
    · exact nothing rfl rfl (Table.keys_insert_of_contains known value) rfl

theorem define (name : String) (declaration : Declaration) (m : Machine) :
    ∃ added noted, Noted [] added noted m ((Eval.define name declaration).final m) := by
  rw [Eval.final_define]
  cases defined : m.state.define name declaration with
  | error error => exact ⟨[], [], refl m⟩
  | ok s =>
    have free : m.state.functions.contains name = false := (State.free_of_define defined).1
    obtain rfl := State.eq_of_define defined
    refine ⟨[(name, declaration)],
      [.declaredFunction name declaration.parameters.length], ?_⟩
    constructor <;>
      simp [Record.global?, Record.function?, Record.call?, Call.preorderAll, Table.insert, free]

theorem call {name : String} {bindings : List (String × Value)}
    (inside : Noted calls added noted { m with
      state := m.state.openCall bindings
      log := m.log.push (.calling name (m.state.depth + 1)) } n) :
    Noted [.made name calls] added (.calling name (m.state.depth + 1) :: noted) m
      { n with state := n.state.closeCall } where
  depth := by
    change n.state.depth - 1 = m.state.depth
    rw [inside.depth]
    rfl
  log := by simpa using inside.log
  globals := inside.globals
  functions := inside.functions
  arities := inside.arities
  calls := by
    have deeper := inside.calls
    simp only [List.filterMap_cons, Record.call?, Call.preorderAll, Call.preorder,
      List.append_nil]
    exact congrArg _ deeper

end Machine.Noted

theorem Eval.Calls.noted {α : Type} {x : Eval α} {m : Machine} {calls : List Call}
    (made : Calls x m calls) : ∃ added noted, Machine.Noted calls added noted m (x.final m) := by
  -- Each way of putting computations together puts their notes together.
  induction made with
  | pure value m => exact ⟨[], [], .refl m⟩
  | throw stop m => exact ⟨[], [], .refl m⟩
  | query f m =>
    rw [final_query]
    exact ⟨[], [], .refl m⟩
  | print lines m => exact ⟨[], [], .nothing rfl rfl rfl rfl⟩
  | clock f m => exact ⟨[], [], .nothing rfl rfl rfl rfl⟩
  | declare name value m =>
    obtain ⟨noted, here⟩ := Machine.Noted.declare name value m
    exact ⟨[], noted, here⟩
  | assign name value m => exact ⟨[], [], .assign name value m⟩
  | define name declaration m => exact Machine.Noted.define name declaration m
  | bind _ ended _ one two =>
    obtain ⟨added, noted, here⟩ := one
    obtain ⟨others, onward, after⟩ := two
    rw [final_of_ok ended] at here
    refine ⟨added ++ others, noted ++ onward, ?_⟩
    rw [final, bind_of_ok ended]
    exact here.trans after
  | stopped _ ended one =>
    rw [final_of_error ended] at one
    rw [final_of_error (bind_of_error ended)]
    exact one
  | frame _ inside =>
    obtain ⟨added, noted, here⟩ := inside
    rw [withFrame, final_between]
    exact ⟨added, noted, here.depth, here.log, here.globals, here.functions, here.arities,
      here.calls⟩
  | enter _ inside =>
    obtain ⟨added, noted, here⟩ := inside
    rw [final_enter, withCall, final_between]
    exact ⟨added, _, here.call⟩

/-- However an evaluation ends, its notes are true. The globals noted are those added to the
globals, in order, and the functions noted those added to the functions, in order and with the
number of their parameters. The calls noted are the calls that were made, in the order in which they
began, with the depth of each: the first is one below the depth at which the evaluation starts, none
is higher than that, and none is more than one below the one before. -/
theorem evaluate_noted (limits : Limits) (node : Node) (m : Machine) :
    ∃ (calls : List Call) (added : List (String × Declaration)) (noted : List Record),
      (evaluate limits node).Calls m calls ∧
      ((evaluate limits node).final m).log.toList = m.log.toList ++ noted ∧
      ((evaluate limits node).final m).state.globals.keys =
        m.state.globals.keys ++ noted.filterMap Record.global? ∧
      ((evaluate limits node).final m).state.functions.entries =
        m.state.functions.entries ++ added ∧
      noted.filterMap Record.function? =
        added.map (fun entry => (entry.1, entry.2.parameters.length)) ∧
      noted.filterMap Record.call? = Call.preorderAll m.state.depth calls ∧
      Call.Nested m.state.depth ((noted.filterMap Record.call?).map Prod.snd) := by
  obtain ⟨calls, made⟩ := Eval.HasCalls.evaluate limits node m
  obtain ⟨added, noted, here⟩ := made.noted
  refine ⟨calls, added, noted, made, here.log, here.globals, here.functions, here.arities,
    here.calls, ?_⟩
  rw [here.calls]
  exact Call.nested_preorderAll m.state.depth calls

-- The argument of `g` is a call of `f`, which is over before `g` begins; `g` then calls `f` twice.
example :
    let argument : Node := .call "f" [.number 1.0 false]
    let program : Node := .block [.define "f" ["a"] (.identifier "a"),
      .define "g" ["b"] (.call "f" [.call "f" [.identifier "b"]]), .call "g" [argument]]
    ((evaluate ⟨400, 9⟩ program).final (.ofState State.initial)).log.toList.filterMap Record.call? =
      [("f", 1), ("g", 1), ("f", 2), ("f", 2)] := by decide +kernel

end Reckoner
