import Reckoner.Proofs.Effect

/-! Two runs of one tree on two machines. A relation between states that every change of a state
respects is respected by the two runs: they end with the same value or for the same reason, with the
same transcript and in related states. The relation may depend on which frames the runs have opened
and not closed yet, since closing a frame uncovers what it hid. -/
namespace Reckoner

inductive State.Paired (Q : State → State → Prop) :
    Except RuntimeError State → Except RuntimeError State → Prop where
  | ok {s t : State} : Q s t → Paired Q (.ok s) (.ok t)
  | error (error : RuntimeError) : Paired Q (.error error) (.error error)

structure Machine.Related (Q : State → State → Prop) (m n : Machine) : Prop where
  output : m.output = n.output
  log : m.log = n.log
  state : Q m.state n.state

theorem Machine.Related.withState {Q Q' : State → State → Prop} {m n : Machine}
    (related : m.Related Q n) {s t : State} (state : Q' s t) :
    ({ m with state := s } : Machine).Related Q' { n with state := t } :=
  ⟨related.output, related.log, state⟩

namespace Eval

variable {α β : Type}

/-- Two runs that end with the same value or for the same reason, on related machines. -/
inductive Alike (Q : State → State → Prop) :
    EStateM.Result Stop Machine α → EStateM.Result Stop Machine α → Prop where
  | ok (value : α) {m n : Machine} : m.Related Q n → Alike Q (.ok value m) (.ok value n)
  | error (stop : Stop) {m n : Machine} : m.Related Q n → Alike Q (.error stop m) (.error stop n)

theorem Alike.mono {Q Q' : State → State → Prop} (weaker : ∀ s t, Q s t → Q' s t)
    {a b : EStateM.Result Stop Machine α} (alike : Alike Q a b) : Alike Q' a b := by
  cases alike with
  | ok value related => exact .ok value (related.withState (weaker _ _ related.state))
  | error stop related => exact .error stop (related.withState (weaker _ _ related.state))

/-- The runs of two computations on related machines end alike, whatever frames were opened
before. -/
def Simulates {ι : Type} (Q : ι → State → State → Prop) (x y : Eval α) : Prop :=
  ∀ opened m n, m.Related (Q opened) n → Alike (Q opened) (x m) (y n)

namespace Simulates

variable {ι : Type} {Q : ι → State → State → Prop}

theorem pure (value : α) : Simulates Q (pure value) (pure value) :=
  fun _ _ _ related => .ok value related

theorem throw (stop : Stop) : Simulates Q (throw stop : Eval α) (throw stop) :=
  fun _ _ _ related => .error stop related

theorem bind {x y : Eval α} {f g : α → Eval β} (first : Simulates Q x y)
    (rest : ∀ value, Simulates Q (f value) (g value)) : Simulates Q (x >>= f) (y >>= g) := by
  intro opened m n related
  have here := first opened m n related
  generalize left : x m = a at here
  generalize right : y n = b at here
  cases here with
  | ok value related =>
    rw [bind_of_ok left, bind_of_ok right]
    exact rest value opened _ _ related
  | error stop related =>
    rw [bind_of_error left, bind_of_error right]
    exact .error stop related

theorem query {f g : State → Except RuntimeError α}
    (same : ∀ opened s t, Q opened s t → f s = g t) :
    Simulates Q (Eval.query f) (Eval.query g) := by
  intro opened m n related
  unfold Eval.query
  rw [same opened _ _ related.state]
  cases g n.state with
  | ok value => exact .ok value related
  | error error => exact .error _ related

theorem update {f g : State → Except RuntimeError State}
    (paired : ∀ opened s t, Q opened s t → State.Paired (Q opened) (f s) (g t)) :
    Simulates Q (Eval.update f) (Eval.update g) := by
  intro opened m n related
  have here := paired opened _ _ related.state
  unfold Eval.update
  generalize f m.state = a at here ⊢
  generalize g n.state = b at here ⊢
  cases here with
  | ok state => exact .ok () (related.withState state)
  | error error => exact .error _ related

theorem note (record : Record) : Simulates Q (Eval.note record) (Eval.note record) :=
  fun _ _ _ related => .ok () ⟨related.output, by simp only [related.log], related.state⟩

theorem print (lines : List String) : Simulates Q (Eval.print lines) (Eval.print lines) :=
  fun _ _ _ related => .ok () ⟨by simp only [related.output], related.log, related.state⟩

theorem between {inner : ι → ι} {opening opening' closing closing' : State → State} {x y : Eval α}
    (opens : ∀ opened s t, Q opened s t → Q (inner opened) (opening s) (opening' t))
    (closes : ∀ opened s t, Q (inner opened) s t → Q opened (closing s) (closing' t))
    (body : Simulates Q x y) :
    Simulates Q (Eval.between opening closing x) (Eval.between opening' closing' y) := by
  intro opened m n related
  have here := body (inner opened) { m with state := opening m.state }
    { n with state := opening' n.state } (related.withState (opens _ _ _ related.state))
  unfold Eval.between
  generalize x { m with state := opening m.state } = a at here ⊢
  generalize y { n with state := opening' n.state } = b at here ⊢
  cases here with
  | ok value related => exact .ok value (related.withState (closes _ _ _ related.state))
  | error stop related => exact .error stop (related.withState (closes _ _ _ related.state))

end Simulates

end Eval

/-- What a relation between states must respect in order to be respected by two runs of one tree.
All nodes that are evaluated are in `code`, and all builtins of the states are among those
`offered`; the index says which frames the runs have opened, and `inFrame` and `inCall` what it is
one frame or one call further in. -/
structure State.Simulation {ι : Type} (inFrame inCall : ι → ι) (code : Node → Prop)
    (Q : ι → State → State → Prop) (offered : Builtin → Prop := fun _ => True) : Prop where
  child {node below : Node} : code node → below ∈ node.children → code below
  depth {opened : ι} {s t : State} : Q opened s t → s.depth = t.depth
  lookup {name : String} {opened : ι} {s t : State} : code (.identifier name) →
    Q opened s t → s.lookup name = t.lookup name
  checkFree {name : String} {expression : Node} {opened : ι} {s t : State} :
    code (.declare name expression) → Q opened s t → s.checkFree name = t.checkFree name
  declare {name : String} {expression : Node} {value : Value} {opened : ι} {s t : State} :
    code (.declare name expression) → Q opened s t →
    Paired (Q opened) (s.declare name value) (t.declare name value)
  assign {targets : List String} {expression : Node} {name : String} {value : Value}
    {opened : ι} {s t : State} : code (.assign targets expression) → name ∈ targets →
    Q opened s t → Paired (Q opened) (s.assign name value) (t.assign name value)
  define {name : String} {parameters : List String} {body : Node} {opened : ι} {s t : State} :
    code (.define name parameters body) → Q opened s t →
    Paired (Q opened) (s.define name ⟨parameters, body⟩) (t.define name ⟨parameters, body⟩)
  callee {name : String} {arguments : List Node} {opened : ι} {s t : State} :
    code (.call name arguments) → Q opened s t → s.callee name = t.callee name
  body {name : String} {declaration : Declaration} {opened : ι} {s t : State} :
    Q opened s t → s.functions.get? name = some declaration → code declaration.body
  offers {name : String} {builtin : Builtin} {opened : ι} {s t : State} :
    Q opened s t → s.builtin? name = some builtin → offered builtin := by intros; trivial
  builtin {name : String} {arguments : List Node} {builtin : Builtin} {values : List Value}
    {opened : ι} {s t : State} : code (.call name arguments) → builtin.name = name →
    offered builtin → Q opened s t →
    builtin.apply s.clock.elapsed values = builtin.apply t.clock.elapsed values
  advance {name : String} {arguments : List Node} {opened : ι} {s t : State} :
    code (.call name arguments) → Builtin.clock.name = name → offered .clock → Q opened s t →
    Q opened { s with clock := s.clock.advance } { t with clock := t.clock.advance }
  openFrame {bindings : List (String × Value)} {opened : ι} {s t : State} : Q opened s t →
    Q (inFrame opened) (s.openFrame bindings) (t.openFrame bindings)
  closeFrame {opened : ι} {s t : State} : Q (inFrame opened) s t →
    Q opened s.closeFrame t.closeFrame
  openCall {bindings : List (String × Value)} {opened : ι} {s t : State} : Q opened s t →
    Q (inCall opened) (s.openCall bindings) (t.openCall bindings)
  closeCall {opened : ι} {s t : State} : Q (inCall opened) s t → Q opened s.closeCall t.closeCall

namespace State.Simulation

variable {ι : Type} {inFrame inCall : ι → ι} {code : Node → Prop}
  {Q : ι → State → State → Prop} {offered : Builtin → Prop}
  (h : State.Simulation inFrame inCall code Q offered)

include h

theorem declares {name : String} {expression : Node} (value : Value)
    (known : code (.declare name expression)) :
    Eval.Simulates Q (Eval.declare name value) (Eval.declare name value) := by
  have changed : Eval.Simulates Q (Eval.update (·.declare name value))
      (Eval.update (·.declare name value)) := .update fun _ _ _ => h.declare known
  refine changed.bind fun _ opened m n related => .ok () ⟨related.output, ?_, related.state⟩
  simp only [related.log, State.inFunction, h.depth related.state]

theorem defines {name : String} {parameters : List String} {body : Node}
    (known : code (.define name parameters body)) :
    Eval.Simulates Q (Eval.define name ⟨parameters, body⟩)
      (Eval.define name ⟨parameters, body⟩) := by
  have changed : Eval.Simulates Q (Eval.update (·.define name ⟨parameters, body⟩))
      (Eval.update (·.define name ⟨parameters, body⟩)) := .update fun _ _ _ => h.define known
  exact changed.bind fun _ => .note _

theorem runs {name : String} {arguments : List Node} {builtin : Builtin} (values : List Value)
    (known : code (.call name arguments)) (named : builtin.name = name)
    (available : offered builtin) :
    Eval.Simulates Q (Eval.runBuiltin builtin values) (Eval.runBuiltin builtin values) := by
  have passed : Eval.Simulates Q (Eval.passTime builtin) (Eval.passTime builtin) := by
    cases builtin with
    | clock =>
      intro opened m n related
      exact .ok () (related.withState (h.advance known named available related.state))
    | _ => exact .pure ()
  have applied : Eval.Simulates Q
      (Eval.query fun s => builtin.apply s.clock.elapsed values)
      (Eval.query fun s => builtin.apply s.clock.elapsed values) :=
    .query fun _ _ _ => h.builtin known named available
  exact (Eval.Simulates.print _).bind fun _ =>
    applied.bind fun value => passed.bind fun _ => .pure value

theorem enters (name : String) (bindings : List (String × Value)) {x y : Eval Value}
    (body : Eval.Simulates Q x y) :
    Eval.Simulates Q (Eval.enter name bindings x) (Eval.enter name bindings y) := by
  have called : Eval.Simulates Q (Eval.withCall bindings x) (Eval.withCall bindings y) :=
    body.between (fun _ _ _ => h.openCall) (fun _ _ _ => h.closeCall)
  intro opened m n related
  refine called opened { m with log := m.log.push (.calling name (m.state.depth + 1)) }
    { n with log := n.log.push (.calling name (n.state.depth + 1)) }
    ⟨related.output, ?_, related.state⟩
  simp only [related.log, h.depth related.state]

theorem correspondence :
    Eval.Correspondence code id (fun {_} x y => Eval.Simulates Q x y) offered where
  child := h.child
  pure := .pure
  bind := .bind
  fail error := .throw _
  unfinished := .throw _
  misplacedRange _ := .throw _
  hole _ := .throw _
  lookup known := .query fun _ _ _ => h.lookup known
  checkFree known := .query fun _ _ _ => h.checkFree known
  declare value known := h.declares value known
  assign value known member := .update fun _ _ _ => h.assign known member
  define known := by
    rw [Declaration.rename_id]
    exact h.defines known
  callee := by
    intro name _ f g known builtin function unknown opened m n related
    have same : n.state.callee name = m.state.callee name := (h.callee known related.state).symm
    have both : Eval.Simulates Q (f (m.state.callee name)) (g (m.state.callee name)) := by
      refine m.state.callee_found (P := fun c => Eval.Simulates Q (f c) (g c))
        (fun _ found => builtin _ (name_of_builtin? found) (h.offers related.state found))
        (fun declaration found => ?_) unknown
      simpa only [Declaration.rename_id] using function declaration (h.body related.state found)
    change Eval.Alike (Q opened) (f (m.state.callee name) m) (g (n.state.callee name) n)
    rw [same]
    exact both opened m n related
  builtin values known named available := h.runs values known named available
  frame bindings body := by
    rw [Prod.map_id, List.map_id]
    exact body.between (fun _ _ _ => h.openFrame) (fun _ _ _ => h.closeFrame)
  call name bindings body := by
    rw [Prod.map_id, List.map_id]
    exact h.enters name bindings body

theorem evaluate (limits : Limits) {node : Node} (known : code node) {opened : ι}
    {m n : Machine} (related : m.Related (Q opened) n) :
    Eval.Alike (Q opened) (evaluate limits node m) (evaluate limits node n) := by
  have both := h.correspondence.evalNode limits.passes limits.nesting known
  rw [Node.rename_id] at both
  exact both opened m n related

end State.Simulation

end Reckoner
