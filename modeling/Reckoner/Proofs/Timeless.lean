import Reckoner.Proofs.Simulation
import Reckoner.Proofs.Store

/-! Time. Of all that an evaluation does, only the builtin `clock` reads the time, and a function
that is declared on the way can only call what its text calls. A tree that does not come to `clock`
is evaluated alike whatever the clock goes on to show. Nor does any evaluation see what was printed
and noted before it, so that running such a tree as a program, with the clock restarted, has the
outcome of evaluating it. -/
namespace Reckoner

namespace Machine

def atTime (clock : Clock) (m : Machine) : Machine :=
  { m with state := { m.state with clock } }

def after (output : Array String) (log : Array Record) (m : Machine) : Machine :=
  { m with output := output ++ m.output, log := log ++ m.log }

end Machine

namespace Eval

variable {α β : Type}

def onMachine (f : Machine → Machine) :
    EStateM.Result Stop Machine α → EStateM.Result Stop Machine α
  | .ok value m => .ok value (f m)
  | .error stop m => .error stop (f m)

def Appends (x : Eval α) : Prop :=
  ∀ output log m, x (m.after output log) = onMachine (Machine.after output log) (x m)

namespace Appends

theorem bind {x : Eval α} {f : α → Eval β} (first : Appends x) (rest : ∀ value, Appends (f value)) :
    Appends (x >>= f) := by
  intro output log m
  have here := first output log m
  cases ended : x m with
  | ok value n =>
    rw [ended] at here
    rw [bind_of_ok ended, bind_of_ok here]
    exact rest value output log n
  | error stop n =>
    rw [ended] at here
    rw [bind_of_error ended, bind_of_error here]
    rfl

theorem query (f : State → Except RuntimeError α) : Appends (Eval.query f) := by
  intro output log m
  simp only [Eval.query, Machine.after]
  cases f m.state <;> rfl

theorem update (f : State → Except RuntimeError State) : Appends (Eval.update f) := by
  intro output log m
  simp only [Eval.update, Machine.after]
  cases f m.state <;> rfl

theorem note (record : Record) : Appends (Eval.note record) := by
  intro output log m
  simp only [Eval.note, onMachine, Machine.after, Array.append_push]

theorem print (lines : List String) : Appends (Eval.print lines) := by
  intro output log m
  have joined : output ++ m.output ++ lines = output ++ (m.output ++ lines) := by
    apply Array.ext'
    simp
  simp only [Eval.print, onMachine, Machine.after, joined]

theorem between {opening closing : State → State} {x : Eval α} (body : Appends x) :
    Appends (Eval.between opening closing x) := by
  intro output log m
  have here := body output log { m with state := opening m.state }
  simp only [Machine.after] at here
  simp only [Eval.between, Machine.after, here]
  cases x { m with state := opening m.state } <;> rfl

theorem closed : Closed (fun _ => True) (fun {_} x => Appends x) where
  child _ _ := trivial
  pure _ _ _ _ := rfl
  bind := bind
  fail _ _ _ _ := rfl
  unfinished _ _ _ := rfl
  misplacedRange _ _ _ _ := rfl
  hole _ _ _ _ := rfl
  query := query
  declare _ _ := (update _).bind fun _ => (query _).bind fun _ => note _
  assign _ _ _ := update _
  define _ := (update _).bind fun _ => note _
  callee := by
    intro name _ f _ builtin function unknown output log m
    have known : Appends (f (m.state.callee name)) :=
      m.state.callee_cases (P := fun c => Appends (f c)) builtin
        (fun declaration _ => function declaration trivial) unknown
    exact known output log m
  print := print
  clock _ _ _ _ := rfl
  frame _ body := body.between
  call _ _ body := (query _).bind fun _ => (note _).bind fun _ => body.between

theorem evaluate (limits : Limits) (node : Node) : Appends (evaluate limits node) :=
  closed.evalNode limits.passes limits.nesting trivial

end Appends

end Eval

def Node.avoids (name : String) (node : Node) : Bool :=
  node.every fun part => match part with
    | .call callee _ => callee ≠ name
    | _ => true

theorem Node.avoids_child {name : String} {node child : Node} (avoids : node.avoids name = true)
    (below : child ∈ node.children) : child.avoids name = true := by
  rw [Node.avoids, every_eq, Bool.and_eq_true, List.all_eq_true] at avoids
  exact avoids.2 child below

theorem Node.avoids_call {name callee : String} {arguments : List Node}
    (avoids : (Node.call callee arguments).avoids name = true) : callee ≠ name := by
  rw [Node.avoids, every_eq, Bool.and_eq_true] at avoids
  simpa using avoids.1

theorem Builtin.apply_elapsed {builtin : Builtin} (other : builtin ≠ .clock)
    (elapsed elapsed' : Float) (values : List Value) :
    builtin.apply elapsed values = builtin.apply elapsed' values := by
  unfold Builtin.apply
  split <;> first | contradiction | rfl

namespace State

/-- An evaluation of the tree does not come to the builtin `clock`: neither the tree nor any
function calls it, or the state does not have it. -/
inductive Timeless (s : State) (node : Node) : Prop where
  | uncalled : node.avoids "clock" = true →
    (∀ name declaration, s.functions.get? name = some declaration →
      declaration.body.avoids "clock" = true) → Timeless s node
  | absent : s.builtin? "clock" = none → Timeless s node

/-- The second state is the first at another time. No function of theirs calls `clock`, unless the
builtin is `absent`. -/
structure AtTime (clock : Clock) (absent : Prop) (s t : State) : Prop where
  eq : t = { s with clock }
  table : absent → s.builtin? "clock" = none
  bodies : ∀ name declaration, s.functions.get? name = some declaration →
    absent ∨ declaration.body.avoids "clock" = true

namespace AtTime

variable {clock : Clock} {absent : Prop} {s t : State}

theorem moved (same : AtTime clock absent s t) {u : State} (functions : u.functions = s.functions)
    (builtins : u.builtins = s.builtins) : AtTime clock absent u { u with clock } where
  eq := rfl
  table gone := by
    rw [builtin?, builtins]
    exact same.table gone
  bodies := by
    rw [functions]
    exact same.bodies

theorem declare (same : AtTime clock absent s t) (name : String) (value : Value) :
    Paired (AtTime clock absent) (s.declare name value) (t.declare name value) := by
  obtain ⟨rfl, _, _⟩ := id same
  rw [declare_eq, declare_eq]
  change Paired _ (if s.hasGlobal name || s.hasLocal name then _ else if s.inFunction then _ else _)
    (if s.hasGlobal name || s.hasLocal name then _ else if s.inFunction then _ else _)
  split
  · exact .error _
  · split
    · exact .ok (same.moved rfl rfl)
    · exact .ok (same.moved rfl rfl)

theorem assign (same : AtTime clock absent s t) (name : String) (value : Value) :
    Paired (AtTime clock absent) (s.assign name value) (t.assign name value) := by
  obtain ⟨rfl, _, _⟩ := id same
  rw [State.assign, State.assign]
  cases s.locals.replace name value with
  | ok locals => exact .ok (same.moved rfl rfl)
  | error missing =>
    change Paired _ (if !s.hasGlobal name then _ else if s.inFunction then _ else _)
      (if !s.hasGlobal name then _ else if s.inFunction then _ else _)
    split
    · exact .error _
    · split
      · exact .error _
      · exact .ok (same.moved rfl rfl)

theorem define (same : AtTime clock absent s t) (name : String) {declaration : Declaration}
    (body : absent ∨ declaration.body.avoids "clock" = true) :
    Paired (AtTime clock absent) (s.define name declaration) (t.define name declaration) := by
  obtain ⟨rfl, table, bodies⟩ := same
  rw [State.define, State.define]
  change Paired _ (if s.hasFunction name then _ else _) (if s.hasFunction name then _ else _)
  split
  · exact .error _
  · refine .ok ⟨rfl, table, fun other found known => ?_⟩
    rw [Table.get?_insert] at known
    split at known
    · cases known
      exact body
    · exact bodies other found known

theorem clock_uncalled {name : String} {arguments : List Node}
    (known : absent ∨ (Node.call name arguments).avoids "clock" = true)
    (named : Builtin.clock.name = name) (available : absent → Builtin.clock ≠ .clock) : False := by
  obtain gone | avoids := known
  · exact available gone rfl
  · exact Node.avoids_call avoids named.symm

theorem simulation (absent : Prop) :
    State.Simulation id id (fun node => absent ∨ node.avoids "clock" = true)
      (fun clock => AtTime clock absent) (fun builtin => absent → builtin ≠ .clock) where
  child known below := known.imp_right fun avoids => Node.avoids_child avoids below
  depth same := by rw [same.eq]
  lookup _ same := by
    rw [same.eq]
    rfl
  checkFree _ same := by
    rw [same.eq]
    rfl
  declare _ same := same.declare _ _
  assign _ _ same := same.assign _ _
  define known same :=
    same.define _ (known.imp_right fun avoids => Node.avoids_child avoids (by simp))
  callee _ same := by
    rw [same.eq]
    rfl
  body same found := same.bodies _ _ found
  offers same found gone := by
    rintro rfl
    have named := name_of_builtin? found
    rw [← named] at found
    exact absurd (found.symm.trans (same.table gone)) (Option.some_ne_none _)
  builtin known named available same := by
    refine Builtin.apply_elapsed ?_ _ _ _
    rintro rfl
    exact clock_uncalled known named available
  advance known named available _ := absurd (clock_uncalled known named available) not_false
  openFrame same := by
    rw [same.eq]
    exact same.moved rfl rfl
  closeFrame same := by
    rw [same.eq]
    exact same.moved rfl rfl
  openCall same := by
    rw [same.eq]
    exact same.moved rfl rfl
  closeCall same := by
    rw [same.eq]
    exact same.moved rfl rfl

theorem eq_atTime {m n : Machine} (related : m.Related (AtTime clock absent) n) :
    n = m.atTime clock := by
  obtain ⟨state, output, log⟩ := n
  obtain ⟨rfl, rfl, same⟩ := related
  rw [Machine.atTime, ← same.eq]

end AtTime

variable {node : Node} {m : Machine}

theorem Timeless.alike (timeless : m.state.Timeless node) (limits : Limits) (clock : Clock) :
    ∃ absent, Eval.Alike (AtTime clock absent) (Reckoner.evaluate limits node m)
      (Reckoner.evaluate limits node (m.atTime clock)) := by
  cases timeless with
  | uncalled avoids bodies =>
    have related : m.Related (AtTime clock False) (m.atTime clock) :=
      ⟨rfl, rfl, rfl, False.elim, fun name declaration found => .inr (bodies _ _ found)⟩
    exact ⟨False, (AtTime.simulation False).evaluate limits (.inr avoids) related⟩
  | absent gone =>
    have related : m.Related (AtTime clock True) (m.atTime clock) :=
      ⟨rfl, rfl, rfl, fun _ => gone, fun _ _ _ => .inl trivial⟩
    exact ⟨True, (AtTime.simulation True).evaluate limits (.inl trivial) related⟩

theorem Timeless.evaluate (timeless : m.state.Timeless node) (limits : Limits) (clock : Clock) :
    Reckoner.evaluate limits node (m.atTime clock) =
      Eval.onMachine (Machine.atTime clock) (Reckoner.evaluate limits node m) := by
  obtain ⟨absent, alike⟩ := timeless.alike limits clock
  generalize Reckoner.evaluate limits node m = here at alike ⊢
  generalize Reckoner.evaluate limits node (m.atTime clock) = there at alike ⊢
  cases alike with
  | ok value related => rw [AtTime.eq_atTime related, Eval.onMachine]
  | error stop related => rw [AtTime.eq_atTime related, Eval.onMachine]

end State

theorem Eval.evaluate_eq_after (limits : Limits) (node : Node) (m : Machine) :
    evaluate limits node m =
      onMachine (Machine.after m.output m.log) (evaluate limits node (.ofState m.state)) := by
  rw [← Appends.evaluate limits node m.output m.log, Machine.after, Machine.ofState]
  simp only [Array.append_empty]

theorem execute_eq (limits : Limits) (node : Node) (m : Machine) :
    execute limits node m =
      match evaluate limits node (.atTime m.state.clock.reset
        { m with log := m.log.push (.executing node.form) }) with
      | .ok value n => .ok value { n with log := n.log.push (.finished value.kind) }
      | .error stop n => .error stop n := by
  change (evaluate limits node >>= fun value => do
    Eval.note (.finished value.kind)
    return value) (.atTime m.state.clock.reset
      { m with log := m.log.push (.executing node.form) }) = _
  cases ended : evaluate limits node (.atTime m.state.clock.reset
      { m with log := m.log.push (.executing node.form) }) with
  | ok value n =>
    rw [Eval.bind_of_ok ended]
    rfl
  | error stop n => rw [Eval.bind_of_error ended]

/-- Let an evaluation of a tree not come to `clock`, because nothing calls it or because it is not
there. Then it is the same whatever the clock shows, now and later: it ends with the same value or
for the same reason, prints and notes the same, and leaves the same state and the clock untouched.
Run as a program, which restarts the clock, the tree has the value or the failure that it has when
it is evaluated, with the same lines and state and, between the notes on the run, the same notes. -/
theorem evaluate_timeless (limits : Limits) (node : Node) (m : Machine)
    (timeless : m.state.Timeless node) :
    (∀ clock, evaluate limits node (m.atTime clock) =
      Eval.onMachine (Machine.atTime clock) (evaluate limits node m)) ∧
    (∀ value n, evaluate limits node m = .ok value n → ∃ noted, n.log = m.log ++ noted ∧
      execute limits node m = .ok value ⟨{ n.state with clock := m.state.clock.reset }, n.output,
        (m.log.push (.executing node.form) ++ noted).push (.finished value.kind)⟩) ∧
    (∀ stop n, evaluate limits node m = .error stop n → ∃ noted, n.log = m.log ++ noted ∧
      execute limits node m = .error stop ⟨{ n.state with clock := m.state.clock.reset }, n.output,
        m.log.push (.executing node.form) ++ noted⟩) := by
  refine ⟨timeless.evaluate limits, ?_⟩
  have here := Eval.evaluate_eq_after limits node m
  have there : evaluate limits node (.atTime m.state.clock.reset
      { m with log := m.log.push (.executing node.form) }) =
      Eval.onMachine (Machine.atTime m.state.clock.reset) (Eval.onMachine
        (Machine.after m.output (m.log.push (.executing node.form)))
        (evaluate limits node (.ofState m.state))) := by
    have timeless' : ({ m with log := m.log.push (.executing node.form) } : Machine).state.Timeless
        node := timeless
    rw [timeless'.evaluate limits, Eval.evaluate_eq_after]
  rw [execute_eq, there, here]
  constructor
  · intro value n ended
    cases fresh : evaluate limits node (.ofState m.state) with
    | ok result k =>
      rw [fresh] at ended
      cases ended
      exact ⟨k.log, rfl, rfl⟩
    | error stop k =>
      rw [fresh] at ended
      contradiction
  · intro stop n ended
    cases fresh : evaluate limits node (.ofState m.state) with
    | ok result k =>
      rw [fresh] at ended
      contradiction
    | error stop' k =>
      rw [fresh] at ended
      cases ended
      exact ⟨k.log, rfl, rfl⟩

/-- A loop over a function that prints, in a state that has `clock`; and a state without it, in
which a function has taken the name and is called. -/
theorem evaluate_timeless_print :
    let loop : Node := .loop "i" (.number 1.0 false) (.number 2.0 false) (.number 1.0 false)
      (.call "f" [.identifier "i"])
    let s : State := { State.initial with
      functions := .ofList [("f", ⟨["a"], .call "print" [.identifier "a"]⟩)] }
    let own : State := { State.bare with
      functions := .ofList [("clock", ⟨[], .number 7.0 false⟩)] }
    s.Timeless loop ∧
      (∀ clock, evaluate ⟨400, 9⟩ loop (.ofState { s with clock }) =
        Eval.onMachine (Machine.atTime clock) (evaluate ⟨400, 9⟩ loop (.ofState s))) ∧
      own.Timeless (.call "clock" []) ∧
      ∃ n, execute ⟨400, 9⟩ (.call "clock" []) (.ofState own) = .ok (Value.real 7.0) n := by
  intro loop s own
  have timeless : s.Timeless loop := by
    refine .uncalled rfl fun name declaration found => ?_
    change (Table.empty.insert "f" _).get? name = some declaration at found
    rw [Table.get?_insert] at found
    split at found
    · cases found
      rfl
    · contradiction
  have absent : own.Timeless (.call "clock" []) := .absent rfl
  obtain ⟨noted, -, executed⟩ :=
    (evaluate_timeless ⟨400, 9⟩ (.call "clock" []) (.ofState own) absent).2.1 _ _ rfl
  exact ⟨timeless, (evaluate_timeless ⟨400, 9⟩ loop (.ofState s) timeless).1, absent, _, executed⟩

-- With `clock` the time does show, and it goes on while the program runs.
example (readings : Nat → Float) : ∃ n,
    evaluate ⟨3, 0⟩ (.array [.call "clock" [.number 1.0 false], .call "clock" [.number 1.0 false]])
      (.ofState { State.initial with clock := ⟨readings, 0.0⟩ }) =
    .ok (.array [Value.real (readings 0 - 0.0 - 1.0), Value.real (readings 1 - 0.0 - 1.0)]) n :=
  ⟨_, rfl⟩

end Reckoner
