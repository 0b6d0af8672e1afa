import Reckoner.Evaluation
import Reckoner.Proofs.Failure
import Reckoner.Proofs.Tree

/-! Two evaluations of one tree, side by side. A relation between computations that every way of
building a computation respects relates the two evaluations as a whole. The tree is walked here and
nowhere else: what a particular relation says about values, stops and machines is left open, and so
are the names by which the second evaluation calls its variables. -/
namespace Reckoner

inductive Callee where
  | builtin (builtin : Builtin)
  | function (declaration : Declaration)
  | unknown

def State.callee (s : State) (name : String) : Callee :=
  match s.builtin? name with
  | some builtin => .builtin builtin
  | none =>
    match s.functions.get? name with
    | some declaration => .function declaration
    | none => .unknown

theorem State.name_of_builtin? {s : State} {name : String} {builtin : Builtin}
    (found : s.builtin? name = some builtin) : builtin.name = name := by
  simpa [State.builtin?] using List.find?_some found

theorem State.callee_found {P : Callee → Prop} {name : String} (s : State)
    (builtin : ∀ builtin, s.builtin? name = some builtin → P (.builtin builtin))
    (function : ∀ declaration, s.functions.get? name = some declaration →
      P (.function declaration))
    (unknown : P .unknown) : P (s.callee name) := by
  unfold State.callee
  split
  · next known => exact builtin _ known
  · split
    · next known => exact function _ known
    · exact unknown

theorem State.callee_cases {P : Callee → Prop} {name : String} (s : State)
    (builtin : ∀ builtin, builtin.name = name → P (.builtin builtin))
    (function : ∀ declaration, s.functions.get? name = some declaration →
      P (.function declaration))
    (unknown : P .unknown) : P (s.callee name) :=
  s.callee_found (fun _ found => builtin _ (name_of_builtin? found)) function unknown

namespace Eval

/-- A call of a function once its arguments are known: the call is noted, and the body is run. -/
def enter {α : Type} (name : String) (bindings : List (String × Value)) (body : Eval α) :
    Eval α := do
  let s ← query .ok
  note (.calling name (s.depth + 1))
  withCall bindings body

def invoke (eval : Node → Eval Value) (name : String) (arguments : List Node) :
    Callee → Eval Value
  | .builtin builtin =>
    if arguments.length = builtin.arity then
      evalAll eval arguments >>= runBuiltin builtin
    else fail (.arity name (Int.ofNat builtin.arity) (Int.ofNat arguments.length))
  | .function declaration =>
    if arguments.length = declaration.parameters.length then do
      let values ← evalAll eval arguments
      enter name (declaration.parameters.zip values) (eval declaration.body)
    else
      fail (.arity name (Int.ofNat declaration.parameters.length) (Int.ofNat arguments.length))
  | .unknown => fail (.unknownFunction name)

theorem evalCall_eq (eval : Node → Eval Value) (name : String) (arguments : List Node) :
    evalCall eval name arguments =
      query (fun s => .ok (s.callee name)) >>= invoke eval name arguments := by
  funext m
  change (match m.state.builtin? name with
    | some builtin => _
    | none => _ : Eval Value) m = invoke eval name arguments (m.state.callee name) m
  unfold State.callee
  cases m.state.builtin? name with
  | some builtin => rfl
  | none => cases m.state.functions.get? name <;> rfl

/-- What a relation between computations must respect in order to relate two evaluations. In the
first of them a variable is called `x`, and in the second `r x`, so that a failure about a variable
is not the same in both; all nodes that are evaluated are in `code`, a set of trees that has with
each tree the trees below it, and all builtins that are run are among those `offered`. -/
structure Correspondence (code : Node → Prop) (r : String → String)
    (Rel : ∀ {α : Type}, Eval α → Eval α → Prop)
    (offered : Builtin → Prop := fun _ => True) : Prop where
  child {node below : Node} : code node → below ∈ node.children → code below
  pure {α : Type} (value : α) : Rel (pure value) (pure value)
  bind {α β : Type} {x y : Eval α} {f g : α → Eval β} :
    Rel x y → (∀ value, Rel (f value) (g value)) → Rel (x >>= f) (y >>= g)
  fail {α : Type} {error : RuntimeError} : error.variable? = none →
    Rel (fail error : Eval α) (fail error)
  unfinished {α : Type} : Rel (throw .unfinished : Eval α) (throw .unfinished)
  misplacedRange {α : Type} {first second step : Node} : code (.range first second step) →
    Rel (throw (.malformed .misplacedRange) : Eval α) (throw (.malformed .misplacedRange))
  hole {α : Type} : code .hole →
    Rel (throw (.malformed .hole) : Eval α) (throw (.malformed .hole))
  lookup {name : String} : code (.identifier name) →
    Rel (query (·.lookup name)) (query (·.lookup (r name)))
  checkFree {name : String} {expression : Node} : code (.declare name expression) →
    Rel (query (·.checkFree name)) (query (·.checkFree (r name)))
  declare {name : String} {expression : Node} (value : Value) : code (.declare name expression) →
    Rel (declare name value) (declare (r name) value)
  assign {targets : List String} {expression : Node} {name : String} (value : Value) :
    code (.assign targets expression) → name ∈ targets →
    Rel (update (·.assign name value)) (update (·.assign (r name) value))
  define {name : String} {parameters : List String} {body : Node} :
    code (.define name parameters body) →
    Rel (define name ⟨parameters, body⟩) (define name (Declaration.rename r ⟨parameters, body⟩))
  callee {name : String} {arguments : List Node} {f g : Callee → Eval Value} :
    code (.call name arguments) →
    (∀ builtin, builtin.name = name → offered builtin →
      Rel (f (.builtin builtin)) (g (.builtin builtin))) →
    (∀ declaration, code declaration.body →
      Rel (f (.function declaration)) (g (.function (declaration.rename r)))) →
    Rel (f .unknown) (g .unknown) →
    Rel (query (fun s => .ok (s.callee name)) >>= f) (query (fun s => .ok (s.callee name)) >>= g)
  builtin {name : String} {arguments : List Node} {builtin : Builtin} (values : List Value) :
    code (.call name arguments) → builtin.name = name → offered builtin →
    Rel (runBuiltin builtin values) (runBuiltin builtin values)
  frame {x y : Eval Value} (bindings : List (String × Value)) : Rel x y →
    Rel (withFrame bindings x) (withFrame (bindings.map (Prod.map r id)) y)
  call {x y : Eval Value} (name : String) (bindings : List (String × Value)) : Rel x y →
    Rel (enter name bindings x) (enter name (bindings.map (Prod.map r id)) y)

namespace Correspondence

variable {code : Node → Prop} {r : String → String}
  {Rel : ∀ {α : Type}, Eval α → Eval α → Prop} {offered : Builtin → Prop}
  (h : Correspondence code r Rel offered)

include h

theorem ofExcept {α : Type} {result : Except RuntimeError α} (nameless : Nameless result) :
    Rel (Eval.ofExcept result) (Eval.ofExcept result) := by
  cases result with
  | ok value => exact h.pure value
  | error error => exact h.fail (nameless error rfl)

theorem assignAll {targets : List String} {expression : Node} (value : Value)
    (known : code (.assign targets expression)) {names : List String} (sub : names ⊆ targets) :
    Rel (Eval.assignAll value names) (Eval.assignAll value (names.map r)) := by
  -- The names left to assign get fewer, while the node that they all are targets of stays.
  induction names with
  | nil => exact h.pure ()
  | cons name rest ih =>
    obtain ⟨here, below⟩ := List.cons_subset.1 sub
    exact h.bind (h.assign value known here) fun _ => ih below

theorem runPasses (b : Bounds) {p q : Float → Value → Eval Value}
    (pass : ∀ position total, Rel (p position total) (q position total)) (passes : Nat)
    (position : Float) (total : Value) :
    Rel (Eval.runPasses b p passes position total) (Eval.runPasses b q passes position total) := by
  induction passes generalizing position total with
  | zero => exact h.unfinished
  | succ passes ih =>
    refine h.bind (pass position total) fun total => ?_
    split
    · exact ih _ _
    · exact pass _ _

theorem runLoop (b : Bounds) {p q : Float → Value → Eval Value}
    (pass : ∀ position total, Rel (p position total) (q position total)) (passes : Nat) :
    Rel (Eval.runLoop b p passes) (Eval.runLoop b q passes) := by
  unfold Eval.runLoop
  split
  · exact h.runPasses b pass passes _ _
  · exact h.pure _

variable {eval eval' : Node → Eval Value}
  (ih : ∀ node, code node → Rel (eval node) (eval' (node.rename r)))

include ih

theorem evalAll {nodes : List Node} (known : ∀ node ∈ nodes, code node) :
    Rel (Eval.evalAll eval nodes) (Eval.evalAll eval' (nodes.map (Node.rename r))) := by
  induction nodes with
  | nil => exact h.pure []
  | cons node rest rests =>
    obtain ⟨here, below⟩ := List.forall_mem_cons.1 known
    exact h.bind (ih node here) fun value => h.bind (rests below) fun values => h.pure _

theorem evalSequence {nodes : List Node} (known : ∀ node ∈ nodes, code node) (last : Value) :
    Rel (Eval.evalSequence eval last nodes)
      (Eval.evalSequence eval' last (nodes.map (Node.rename r))) := by
  induction nodes generalizing last with
  | nil => exact h.pure last
  | cons node rest rests =>
    obtain ⟨here, below⟩ := List.forall_mem_cons.1 known
    exact h.bind (ih node here) fun value => rests below value

theorem evalReal (message : String) {node : Node} (known : code node) :
    Rel (Eval.evalReal eval message node) (Eval.evalReal eval' message (node.rename r)) :=
  h.bind (ih node known) fun value => h.ofExcept (.expectReal (fun _ => rfl) value message)

theorem evalBounds {first second step : Node} (knownFirst : code first)
    (knownSecond : code second) (knownStep : code step) :
    Rel (Eval.evalBounds eval first second step)
      (Eval.evalBounds eval' (first.rename r) (second.rename r) (step.rename r)) :=
  h.bind (h.evalReal ih _ knownFirst) fun _ => h.bind (h.evalReal ih _ knownSecond) fun _ =>
    h.bind (h.evalReal ih _ knownStep) fun _ => h.ofExcept (.bounds _ _ _)

theorem evalPass (counter : String) {body : Node} (known : code body) (position : Float)
    (total : Value) :
    Rel (Eval.evalPass eval counter body position total)
      (Eval.evalPass eval' (r counter) (body.rename r) position total) :=
  h.frame [(counter, Value.real position)]
    (h.bind (ih body known) fun _ => h.ofExcept (.operator .add _ _))

theorem evalBlock {nodes : List Node} (known : ∀ node ∈ nodes, code node) :
    Rel (Eval.evalBlock eval nodes) (Eval.evalBlock eval' (nodes.map (Node.rename r))) := by
  unfold Eval.evalBlock
  rw [List.getLast?_map]
  cases nodes.getLast? with
  | none => exact h.pure _
  | some node =>
    simp only [Option.map_some, Node.isDeclaration_rename]
    split
    · exact h.fail rfl
    · exact h.frame [] (h.evalSequence ih known _)

theorem invoke {name : String} {arguments : List Node} (known : code (.call name arguments)) :
    Rel (query (fun s => .ok (s.callee name)) >>= Eval.invoke eval name arguments)
      (query (fun s => .ok (s.callee name)) >>=
        Eval.invoke eval' name (arguments.map (Node.rename r))) := by
  have values := h.evalAll ih fun node member => h.child known member
  refine h.callee known ?_ ?_ (h.fail rfl)
  · intro builtin named available
    simp only [Eval.invoke, List.length_map]
    split
    · exact h.bind values fun values => h.builtin values known named available
    · exact h.fail rfl
  · intro declaration body
    simp only [Eval.invoke, Declaration.rename, List.length_map, List.zip_map_left]
    split
    · exact h.bind values fun values => h.call name _ (ih _ body)
    · exact h.fail rfl

theorem step (passes : Nat) {node : Node} (known : code node) :
    Rel (Eval.step eval passes node) (Eval.step eval' passes (node.rename r)) := by
  have below : ∀ child ∈ node.children, code child := fun _ member => h.child known member
  have runs : ∀ child ∈ node.children, Rel (eval child) (eval' (child.rename r)) :=
    fun child member => ih child (below child member)
  cases node with
  | number value imaginary => exact h.pure _
  | identifier name => exact h.lookup known
  | operation left operator right =>
    exact h.bind (runs left (by simp)) fun a =>
      h.bind (runs right (by simp)) fun b => h.ofExcept (.operator operator a b)
  | call name arguments =>
    simp only [Node.rename, Node.renameAll_eq_map, Eval.step, evalCall_eq]
    exact h.invoke ih known
  | define name parameters body => exact h.bind (h.define known) fun _ => h.pure _
  | declare name expression =>
    exact h.bind (h.checkFree known) fun _ =>
      h.bind (runs expression (by simp)) fun value =>
        h.bind (h.declare value known) fun _ => h.pure _
  | conditional predicate ifTrue ifFalse =>
    refine h.bind (h.evalReal ih _ (below predicate (by simp))) fun p => ?_
    split
    · exact runs ifTrue (by simp)
    · exact runs ifFalse (by simp)
  | range first second step => exact h.misplacedRange known
  | loop counter first second step body =>
    have bounds := h.evalBounds ih (below first (by simp))
      (below second (by simp)) (below step (by simp))
    exact h.bind bounds fun b =>
      h.runLoop b (h.evalPass ih counter (below body (by simp))) passes
  | assign targets expression =>
    exact h.bind (runs expression (by simp)) fun value =>
      h.bind (h.assignAll value known (List.Subset.refl targets)) fun _ => h.pure value
  | factorial expression =>
    exact h.bind (runs expression (by simp)) fun value => h.ofExcept (.factorial value)
  | block nodes =>
    simp only [Node.rename, Node.renameAll_eq_map, Eval.step]
    exact h.evalBlock ih below
  | array items =>
    simp only [Node.rename, Node.renameAll_eq_map, Eval.step]
    exact h.bind (h.evalAll ih below) fun values => h.pure _
  | index items position =>
    exact h.bind (runs items (by simp)) fun value =>
      h.bind (h.ofExcept (.expectArray (fun _ => rfl) value _)) fun items =>
        h.bind (h.evalReal ih _ (below position (by simp))) fun i =>
          h.ofExcept (.itemAt items i)
  | hole => exact h.hole known

omit ih

theorem evalNode (passes nesting : Nat) {node : Node} (known : code node) :
    Rel (Eval.evalNode passes nesting node) (Eval.evalNode passes nesting (node.rename r)) := by
  -- The body of a function is not below the call that runs it, so the tree does not get smaller.
  induction nesting generalizing node with
  | zero => exact h.fail rfl
  | succ nesting ih => exact h.step (fun _ known => ih known) passes known

end Correspondence

/-- What a property of computations must respect in order to hold of every evaluation of a tree of
the set. -/
structure Closed (code : Node → Prop) (P : ∀ {α : Type}, Eval α → Prop) : Prop where
  child {node below : Node} : code node → below ∈ node.children → code below
  pure {α : Type} (value : α) : P (pure value)
  bind {α β : Type} {x : Eval α} {f : α → Eval β} : P x → (∀ value, P (f value)) → P (x >>= f)
  fail {α : Type} (error : RuntimeError) : P (fail error : Eval α)
  unfinished {α : Type} : P (throw .unfinished : Eval α)
  misplacedRange {α : Type} {first second step : Node} : code (.range first second step) →
    P (throw (.malformed .misplacedRange) : Eval α)
  hole {α : Type} : code .hole → P (throw (.malformed .hole) : Eval α)
  query {α : Type} (f : State → Except RuntimeError α) : P (query f)
  declare {name : String} {expression : Node} (value : Value) : code (.declare name expression) →
    P (declare name value)
  assign {targets : List String} {expression : Node} {name : String} (value : Value) :
    code (.assign targets expression) → name ∈ targets → P (update (·.assign name value))
  define {name : String} {parameters : List String} {body : Node} :
    code (.define name parameters body) → P (define name ⟨parameters, body⟩)
  callee {name : String} {arguments : List Node} {f : Callee → Eval Value} :
    code (.call name arguments) →
    (∀ builtin, builtin.name = name → P (f (.builtin builtin))) →
    (∀ declaration, code declaration.body → P (f (.function declaration))) →
    P (f .unknown) → P (Eval.query (fun s => .ok (s.callee name)) >>= f)
  print (lines : List String) : P (print lines)
  clock (f : Clock → Clock) : P (changeClock f)
  frame {x : Eval Value} (bindings : List (String × Value)) : P x → P (withFrame bindings x)
  call {x : Eval Value} (name : String) (bindings : List (String × Value)) : P x →
    P (enter name bindings x)

namespace Closed

variable {code : Node → Prop} {P : ∀ {α : Type}, Eval α → Prop} (h : Closed code P)

include h

theorem runBuiltin (builtin : Builtin) (values : List Value) :
    P (Eval.runBuiltin builtin values) := by
  have passed : P (passTime builtin) := by
    cases builtin with
    | clock => exact h.clock Clock.advance
    | _ => exact h.pure ()
  exact h.bind (h.print _) fun _ => h.bind (h.query _) fun value =>
    h.bind passed fun _ => h.pure value

theorem correspondence : Correspondence code id (fun {_} x _ => P x) where
  child := h.child
  pure := h.pure
  bind := h.bind
  fail _ := h.fail _
  unfinished := h.unfinished
  misplacedRange := h.misplacedRange
  hole := h.hole
  lookup _ := h.query _
  checkFree _ := h.query _
  declare := h.declare
  assign := h.assign
  define := h.define
  callee known builtin := h.callee known fun _ named => builtin _ named trivial
  builtin values _ _ _ := h.runBuiltin _ values
  frame := h.frame
  call := h.call

theorem evalNode (passes nesting : Nat) {node : Node} (known : code node) :
    P (Eval.evalNode passes nesting node) :=
  h.correspondence.evalNode passes nesting known

end Closed

end Eval

end Reckoner
