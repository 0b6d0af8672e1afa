import Reckoner.Proofs.Shadowing

/-! What an evaluation can write, read off the text of the program. An evaluation runs no node but
the parts of its tree and of the functions, those included that it defines itself. A variable that
none of these parts writes is bound as before in every frame and among the globals: parameters and
counters of loops are bound under a name only for as long as their frame is open. -/
namespace Reckoner

namespace Node

inductive Part : Node → Node → Prop where
  | self (node : Node) : Part node node
  | child {part child node : Node} : Part part child → child ∈ node.children → Part part node

theorem Part.trans {part middle node : Node} (inner : Part part middle) (outer : Part middle node) :
    Part part node := by
  induction outer with
  | self => exact inner
  | child _ member ih => exact .child ih member

theorem Part.test {test : Node → Bool} {part node : Node} (below : Part part node)
    (passed : node.every test = true) : test part = true := by
  induction below with
  | self =>
    rw [every_eq, Bool.and_eq_true] at passed
    exact passed.1
  | child _ member ih =>
    rw [every_eq, Bool.and_eq_true, List.all_eq_true] at passed
    exact ih (passed.2 _ member)

def targets : Node → List String
  | declare name _ => [name]
  | assign names _ => names
  | _ => []

def isWrite : Node → Bool
  | declare .. => true
  | assign .. => true
  | define .. => true
  | _ => false

end Node

namespace State

/-- The nodes that an evaluation of a tree can come to: the parts of the tree and those of the
functions. -/
def Code (s : State) (node part : Node) : Prop :=
  part.Part node ∨
    ∃ name declaration, s.functions.get? name = some declaration ∧ part.Part declaration.body

theorem Code.child {s : State} {node part below : Node} (known : s.Code node part)
    (member : below ∈ part.children) : s.Code node below := by
  have inner : below.Part part := .child (.self below) member
  obtain here | ⟨name, declaration, found, here⟩ := known
  · exact .inl (inner.trans here)
  · exact .inr ⟨name, declaration, found, inner.trans here⟩

/-- The nodes of `code` can write what `t` has and `s` does not have: a variable that none of them
writes is bound as in `s`, a function that is new is one of them, and nothing but the time is new if
none of them declares or assigns. -/
structure Wrote (code : Node → Prop) (s t : State) : Prop where
  bindings : ∀ name, (∀ node, code node → name ∉ node.targets) → SameBindings name s t
  functions : ∀ name declaration, t.functions.get? name = some declaration →
    s.functions.get? name = some declaration ∨
      code (.define name declaration.parameters declaration.body)
  unchanged : (∀ node, code node → node.isWrite = false) → t = { s with clock := t.clock }

namespace Wrote

variable {code : Node → Prop} {s t u : State}

theorem refl (s : State) : Wrote code s s :=
  ⟨fun _ _ => ⟨rfl, rfl⟩, fun _ _ known => .inl known, fun _ => rfl⟩

theorem trans (first : Wrote code s t) (second : Wrote code t u) : Wrote code s u where
  bindings name spared := (first.bindings name spared).trans (second.bindings name spared)
  functions name declaration known := by
    obtain before | new := second.functions name declaration known
    · exact first.functions name declaration before
    · exact .inr new
  unchanged pure := by
    rw [second.unchanged pure, first.unchanged pure]

theorem declare {name : String} {expression : Node} {value : Value}
    (known : code (.declare name expression)) (declared : s.declare name value = .ok t) :
    Wrote code s t where
  bindings other spared :=
    sameBindings_of_declare declared fun same => spared _ known (List.mem_singleton.2 same)
  functions _ _ found := by
    obtain ⟨_, rfl⟩ | ⟨_, rfl⟩ := eq_of_declare declared <;> exact .inl found
  unchanged pure := absurd (pure _ known) Bool.noConfusion

theorem assign {targets : List String} {expression : Node} {name : String} {value : Value}
    (known : code (.assign targets expression)) (target : name ∈ targets)
    (assigned : s.assign name value = .ok t) : Wrote code s t where
  bindings other spared :=
    sameBindings_of_assign assigned fun same => spared _ known (same ▸ target)
  functions _ _ found := by
    obtain ⟨_, _, rfl⟩ | ⟨_, rfl⟩ := eq_of_assign assigned <;> exact .inl found
  unchanged pure := absurd (pure _ known) Bool.noConfusion

theorem define {name : String} {parameters : List String} {body : Node}
    (known : code (.define name parameters body))
    (defined : s.define name ⟨parameters, body⟩ = .ok t) : Wrote code s t := by
  rw [eq_of_define defined]
  refine ⟨fun _ _ => ⟨rfl, rfl⟩, fun other declaration found => ?_,
    fun pure => absurd (pure _ known) Bool.noConfusion⟩
  rw [Table.get?_insert] at found
  split at found
  · next same =>
    cases found
    exact .inr (same ▸ known)
  · exact .inl found

theorem between {opened closed : State} {opening : List (String × Value)}
    (inside : Wrote code opened t) (opens : opened.locals = s.locals.push opening)
    (openGlobals : opened.globals = s.globals) (openFunctions : opened.functions = s.functions)
    (closes : closed.locals = t.locals.drop) (closeGlobals : closed.globals = t.globals)
    (closeFunctions : closed.functions = t.functions)
    (undone : t = { opened with clock := t.clock } → closed = { s with clock := closed.clock }) :
    Wrote code s closed where
  bindings name spared := by
    have same := inside.bindings name spared
    have outside : (t.locals.bindings name).tail = s.locals.bindings name := by
      rw [same.locals, opens, Scope.bindings_push, List.tail_cons]
    refine ⟨?_, ?_⟩
    · rw [closes, Scope.bindings_drop outside]
    · rw [closeGlobals, same.globals, openGlobals]
  functions name declaration found := by
    rw [closeFunctions] at found
    rw [← openFunctions]
    exact inside.functions name declaration found
  unchanged pure := undone (inside.unchanged pure)

theorem frame {opening : List (String × Value)} (inside : Wrote code (s.openFrame opening) t) :
    Wrote code s t.closeFrame :=
  inside.between rfl rfl rfl rfl rfl rfl fun same => by rw [same]; rfl

theorem call {opening : List (String × Value)} (inside : Wrote code (s.openCall opening) t) :
    Wrote code s t.closeCall :=
  inside.between rfl rfl rfl rfl rfl rfl fun same => by rw [same]; rfl

end Wrote

def Runs (code : Node → Prop) (s : State) : Prop :=
  ∀ name declaration, s.functions.get? name = some declaration → code declaration.body

theorem Wrote.runs {code : Node → Prop} {s t : State}
    (child : ∀ {node below : Node}, code node → below ∈ node.children → code below)
    (wrote : Wrote code s t) (runs : s.Runs code) : t.Runs code := by
  intro name declaration found
  obtain before | new := wrote.functions name declaration found
  · exact runs name declaration before
  · exact child new (List.mem_singleton.2 rfl)

end State

namespace Eval

variable {code : Node → Prop}

/-- Where all functions run code of the set, so does every node of the set: whatever it writes is
written by code of the set, and the functions that it leaves run code of the set again. -/
theorem closed_wrote
    (child : ∀ {node below : Node}, code node → below ∈ node.children → code below) :
    Closed code fun {_} x =>
      Keeps (fun m n => m.state.Runs code → m.state.Wrote code n.state) x where
  child := child
  pure _ m _ := .refl m.state
  bind first rest := first.bind (fun one two runs =>
    (one runs).trans (two ((one runs).runs child runs))) rest
  fail _ m _ := .refl m.state
  unfinished m _ := .refl m.state
  misplacedRange _ m _ := .refl m.state
  hole _ m _ := .refl m.state
  query f m _ := by
    rw [final_query]
    exact .refl m.state
  declare value known m _ := by
    rw [final_declare]
    split
    · next declared => exact .declare known declared
    · exact .refl m.state
  assign value known target m _ := by
    rw [final_update]
    split
    · next assigned => exact .assign known target assigned
    · exact .refl m.state
  define known m _ := by
    rw [final_define]
    split
    · next defined => exact .define known defined
    · exact .refl m.state
  callee {name _ f} _ builtin function unknown m runs := by
    have found : Keeps (fun m n => m.state.Runs code → m.state.Wrote code n.state)
        (f (m.state.callee name)) :=
      m.state.callee_cases (P := fun c => Keeps _ (f c)) builtin
        (fun declaration known => function declaration (runs name declaration known)) unknown
    exact found m runs
  print _ m _ := .refl m.state
  clock _ _ _ := ⟨fun _ _ => ⟨rfl, rfl⟩, fun _ _ found => .inl found, fun _ => rfl⟩
  frame bindings body m runs := by
    rw [withFrame, final_between]
    exact (body { m with state := m.state.openFrame bindings } runs).frame
  call name bindings body m runs := by
    rw [final_enter, withCall, final_between]
    exact (body { m with state := m.state.openCall bindings, log := _ } runs).call

end Eval

theorem State.Wrote.evaluate (limits : Limits) (node : Node) (m : Machine) :
    Wrote (m.state.Code node) m.state ((evaluate limits node).final m).state := by
  have runs : m.state.Runs (m.state.Code node) :=
    fun name declaration found => .inr ⟨name, declaration, found, .self _⟩
  exact (Eval.closed_wrote Code.child).evalNode limits.passes limits.nesting (.inl (.self node)) m
    runs

/-- However an evaluation ends, a variable that no part of the tree and no part of a function
declares or assigns is bound to what it was bound to, or still unbound, in every frame and among the
globals; a function that is new was defined by a part of the tree or of a function that was there
before; and if no part of them declares or assigns, then the variables and functions are exactly
those from before. -/
theorem evaluate_writeSet_sound (limits : Limits) (node : Node) (m : Machine) :
    (∀ name, (∀ part, m.state.Code node part → name ∉ part.targets) →
      State.SameBindings name m.state ((evaluate limits node).final m).state) ∧
    (∀ name declaration,
      ((evaluate limits node).final m).state.functions.get? name = some declaration →
      m.state.functions.get? name = some declaration ∨
        m.state.Code node (.define name declaration.parameters declaration.body)) ∧
    ((∀ part, m.state.Code node part → part.isWrite = false) →
      ((evaluate limits node).final m).state.globals = m.state.globals ∧
      ((evaluate limits node).final m).state.locals = m.state.locals ∧
      ((evaluate limits node).final m).state.functions = m.state.functions) := by
  have wrote := State.Wrote.evaluate limits node m
  refine ⟨wrote.bindings, wrote.functions, fun pure => ?_⟩
  rw [wrote.unchanged pure]
  exact ⟨rfl, rfl, rfl⟩

theorem State.Code.test {s : State} {node part : Node} {name : String} {declaration : Declaration}
    (known : s.Code node part) (functions : s.functions = Table.empty.insert name declaration)
    (test : Node → Bool) (passed : node.every test = true)
    (passes : declaration.body.every test = true) : test part = true := by
  obtain here | ⟨other, found, present, here⟩ := known
  · exact here.test passed
  · rw [functions, Table.get?_insert] at present
    split at present
    · cases present
      exact here.test passes
    · contradiction

/-- A function with the parameter `x` is called in a loop that counts with `x`. Where it writes `y`,
the variable `x` of the frame around is not written; where it only reads, no variable is. A function
that a block defines is a part of the block. -/
theorem evaluate_writeSet_sound_loop :
    let one : Node := .number 1.0 false
    let loop : Node := .loop "x" one (.number 3.0 false) one (.call "f" [.identifier "x"])
    let block : Node := .block [.define "g" [] one, one]
    let frame := [("x", Value.real 7.0), ("y", Value.zero)]
    let start (body : Node) : State :=
      { State.initial.openFrame frame with functions := Table.empty.insert "f" ⟨["x"], body⟩ }
    let s := start (.assign ["y"] (.identifier "x"))
    let t := start (.operation (.identifier "x") .add (.identifier "y"))
    (∀ part, s.Code loop part → "x" ∉ part.targets) ∧
      State.SameBindings "x" s ((evaluate .standard loop).final (.ofState s)).state ∧
      s.Code block (.define "g" [] one) ∧
      (∀ part, t.Code loop part → part.isWrite = false) ∧
      ((evaluate .standard loop).final (.ofState t)).state.locals = t.locals := by
  intro one loop block frame start s t
  have spared : ∀ part, s.Code loop part → "x" ∉ part.targets := by
    intro part known
    have passed := known.test rfl (fun part => !part.targets.contains "x") rfl rfl
    simpa using passed
  have pure : ∀ part, t.Code loop part → part.isWrite = false := by
    intro part known
    have passed := known.test rfl (fun part => !part.isWrite) rfl rfl
    simpa using passed
  have defined := (evaluate_writeSet_sound .standard block (.ofState s)).2.1 "g" ⟨[], one⟩ rfl
  refine ⟨spared, ?_, defined.resolve_left nofun, pure, ?_⟩
  · exact (evaluate_writeSet_sound .standard loop (.ofState s)).1 "x" spared
  · exact ((evaluate_writeSet_sound .standard loop (.ofState t)).2.2 pure).2.1

end Reckoner
