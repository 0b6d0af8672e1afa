import Reckoner.Proofs.Definedness

/-! Programs fail only as programs. A program is a tree with a node at every place and without a
range among them; where all functions are programs too, an evaluation that is not cut off has a
value or a failure of the language, and it leaves only programs behind as functions. A run that
reports its failure then reports what the plain run ends with. -/
namespace Reckoner

def Node.isProgram (node : Node) : Bool :=
  node.every fun part => part.form ≠ .range ∧ part.form ≠ .hole

theorem Node.isProgram_iff (node : Node) :
    node.isProgram = true ↔ (node.form ≠ .range ∧ node.form ≠ .hole) ∧
      ∀ child ∈ node.children, child.isProgram = true := by
  rw [isProgram, every_eq, Bool.and_eq_true, decide_eq_true_iff, List.all_eq_true]
  rfl

def State.RunsPrograms (s : State) : Prop :=
  ∀ name declaration, s.functions.get? name = some declaration → declaration.body.isProgram = true

theorem State.RunsPrograms.define {s : State} (programs : s.RunsPrograms)
    {declaration : Declaration} (program : declaration.body.isProgram = true) (name : String) :
    RunsPrograms { s with functions := s.functions.insert name declaration } := by
  intro other found known
  rw [Table.get?_insert] at known
  split at known
  · cases known
    exact program
  · exact programs other found known

namespace Eval

variable {α β : Type}

def Ends (x : Eval α) (m : Machine) : Prop := ∀ n, x m ≠ .error .unfinished n

/-- An end with or without a value after which all functions are programs, and not the fault of a
tree. -/
def AmongPrograms : EStateM.Result Stop Machine α → Prop
  | .ok _ n => n.state.RunsPrograms
  | .error stop n => n.state.RunsPrograms ∧ ∀ malformed, stop ≠ .malformed malformed

def Safe (x : Eval α) : Prop := ∀ m, m.state.RunsPrograms → AmongPrograms (x m)

namespace Safe

theorem fail (error : RuntimeError) : Safe (fail error : Eval α) :=
  fun _ programs => ⟨programs, nofun⟩

theorem bind {x : Eval α} {f : α → Eval β} (first : Safe x) (rest : ∀ value, Safe (f value)) :
    Safe (x >>= f) := by
  intro m programs
  have here := first m programs
  cases ended : x m with
  | ok value n =>
    rw [ended] at here
    rw [bind_of_ok ended]
    exact rest value n here
  | error stop n =>
    rw [ended] at here
    rw [bind_of_error ended]
    exact here

theorem query (f : State → Except RuntimeError α) : Safe (Eval.query f) := by
  intro m programs
  unfold Eval.query
  cases f m.state with
  | ok value => exact programs
  | error error => exact ⟨programs, nofun⟩

theorem update {f : State → Except RuntimeError State}
    (keeps : ∀ {s t}, s.RunsPrograms → f s = .ok t → t.RunsPrograms) : Safe (Eval.update f) := by
  intro m programs
  unfold Eval.update
  cases changed : f m.state with
  | ok s => exact keeps programs changed
  | error error => exact ⟨programs, nofun⟩

theorem note (record : Record) : Safe (Eval.note record) := fun _ programs => programs

theorem between {opening closing : State → State} {x : Eval α} (body : Safe x)
    (opens : ∀ s, (opening s).functions = s.functions)
    (closes : ∀ s, (closing s).functions = s.functions) : Safe (between opening closing x) := by
  intro m programs
  have opened : (opening m.state).RunsPrograms := by
    rw [State.RunsPrograms, opens]
    exact programs
  have closed : ∀ s : State, s.RunsPrograms → (closing s).RunsPrograms := by
    intro s inside
    rw [State.RunsPrograms, closes]
    exact inside
  have here := body { m with state := opening m.state } opened
  unfold Eval.between
  cases ended : x { m with state := opening m.state } with
  | ok value n =>
    rw [ended] at here
    exact closed _ here
  | error stop n =>
    rw [ended] at here
    exact ⟨closed _ here.1, here.2⟩

theorem closed : Closed (fun node => node.isProgram = true) (fun {_} x => Safe x) where
  child program below := (Node.isProgram_iff _).1 program |>.2 _ below
  pure _ _ programs := programs
  bind := bind
  fail := fail
  unfinished _ programs := ⟨programs, nofun⟩
  misplacedRange program := absurd rfl ((Node.isProgram_iff _).1 program).1.1
  hole program := absurd rfl ((Node.isProgram_iff _).1 program).1.2
  query := query
  declare value _ := by
    refine bind (update fun programs declared => ?_) fun _ => (query _).bind fun _ => note _
    obtain ⟨_, rfl⟩ | ⟨_, rfl⟩ := State.eq_of_declare declared <;> exact programs
  assign value _ _ := by
    refine update fun programs assigned => ?_
    obtain ⟨_, _, rfl⟩ | ⟨_, rfl⟩ := State.eq_of_assign assigned <;> exact programs
  define := by
    intro name parameters body program
    refine bind (update fun programs defined => ?_) fun _ => note _
    rw [State.eq_of_define defined]
    have below : body ∈ (Node.define name parameters body).children := List.mem_singleton_self body
    exact programs.define (((Node.isProgram_iff _).1 program).2 body below) name
  callee := by
    intro name _ f _ builtin function unknown m programs
    -- The body that a call leads to is no part of the tree, and it is a program because all are.
    have found : Safe (f (m.state.callee name)) :=
      m.state.callee_cases (P := fun c => Safe (f c)) builtin
        (fun declaration known => function declaration (programs name declaration known)) unknown
    exact found m programs
  print _ _ programs := programs
  clock _ _ programs := programs
  frame _ body := between body (fun _ => rfl) fun _ => rfl
  call _ _ body := (query _).bind fun _ => (note _).bind fun _ =>
    between body (fun _ => rfl) fun _ => rfl

theorem evaluate (limits : Limits) {node : Node} (program : node.isProgram = true) :
    Safe (evaluate limits node) :=
  closed.evalNode limits.passes limits.nesting program

theorem execute (limits : Limits) {node : Node} (program : node.isProgram = true) :
    Safe (execute limits node) := by
  refine bind (closed.clock _) fun _ => (note _).bind fun _ => ?_
  refine (evaluate limits program).bind fun value => ?_
  exact (note _).bind fun _ => closed.pure value

theorem final {x : Eval α} (safe : Safe x) {m : Machine} (programs : m.state.RunsPrograms) :
    (x.final m).state.RunsPrograms := by
  have here := safe m programs
  cases ended : x m with
  | ok value n =>
    rw [ended] at here
    rw [final_of_ok ended]
    exact here
  | error stop n =>
    rw [ended] at here
    rw [final_of_error ended]
    exact here.1

theorem ok_or_error {x : Eval α} (safe : Safe x) {m : Machine} (programs : m.state.RunsPrograms)
    (ends : x.Ends m) :
    (∃ value n, x m = .ok value n) ∨ ∃ error n, x m = .error (.error error) n := by
  have here := safe m programs
  cases ended : x m with
  | ok value n => exact .inl ⟨value, n, rfl⟩
  | error stop n =>
    cases stop with
    | error error => exact .inr ⟨error, n, rfl⟩
    | malformed malformed =>
      rw [ended] at here
      exact absurd rfl (here.2 malformed)
    | unfinished => exact absurd ended (ends n)

end Safe

end Eval

/-- A program, evaluated where all functions are programs, has a value or fails as a program, unless
it is cut off: no tree is at fault, and no partial operation is without a result, since the
evaluation is the same whatever such an operation comes to. All functions are programs again
afterwards. A run that reports its failure reports the value or the failure of the plain run, on the
same machine but for one note. -/
theorem evaluate_program_sound (limits : Limits) (node : Node) (m : Machine)
    (program : node.isProgram = true) (programs : m.state.RunsPrograms) :
    ((evaluate limits node).Ends m →
      (∃ value n, evaluate limits node m = .ok value n) ∨
        ∃ error n, evaluate limits node m = .error (.error error) n) ∧
    (∀ undefined : (α : Type) → Fault → Eval α,
      Partial.evalNode undefined limits.passes limits.nesting node = evaluate limits node) ∧
    ((evaluate limits node).final m).state.RunsPrograms ∧
    ((executeReporting limits node).Ends m →
      (∃ value n, execute limits node m = .ok value n ∧
        executeReporting limits node m = .ok (.ok value) n) ∨
      ∃ error n, execute limits node m = .error (.error error) n ∧
        executeReporting limits node m =
          .ok (.error error) { n with log := n.log.push (.failed error) }) := by
  have safe := Eval.Safe.evaluate limits program
  refine ⟨safe.ok_or_error programs, ?_, safe.final programs, ?_⟩
  · intro undefined
    exact Partial.evalNode_eq undefined limits.passes limits.nesting node
  · intro ends
    have plain : (execute limits node).Ends m := by
      intro n cutOff
      exact ends n (by rw [executeReporting, cutOff])
    obtain ⟨value, n, ended⟩ | ⟨error, n, ended⟩ :=
      (Eval.Safe.execute limits program).ok_or_error programs plain
    · exact .inl ⟨value, n, ended, by rw [executeReporting, ended]⟩
    · exact .inr ⟨error, n, ended, by rw [executeReporting, ended]⟩

theorem evaluate_program_sound_index :
    let body : Node := .index (.array [.identifier "i"]) (.identifier "i")
    let loop : Node := .loop "i" (.number 1.0 false) (.number 3.0 false) (.number 1.0 false)
      (.call "f" [])
    let node : Node := .block [.define "f" [] body, loop]
    let m := Machine.ofState State.initial
    node.isProgram = true ∧ m.state.RunsPrograms ∧ (evaluate ⟨400, 9⟩ node).Ends m ∧
      (executeReporting ⟨400, 9⟩ node).Ends m ∧
      ((∃ value n, evaluate ⟨400, 9⟩ node m = .ok value n) ∨
        ∃ error n, evaluate ⟨400, 9⟩ node m = .error (.error error) n) ∧
      ((evaluate ⟨400, 9⟩ node).final m).state.RunsPrograms ∧
      ((∃ value n, execute ⟨400, 9⟩ node m = .ok value n ∧
        executeReporting ⟨400, 9⟩ node m = .ok (.ok value) n) ∨
      ∃ error n, execute ⟨400, 9⟩ node m = .error (.error error) n ∧
        executeReporting ⟨400, 9⟩ node m =
          .ok (.error error) { n with log := n.log.push (.failed error) }) := by
  intro body loop node m
  have programs : m.state.RunsPrograms := nofun
  obtain ⟨n, evaluated⟩ : ∃ n, evaluate ⟨400, 9⟩ node m = .error (.error (.indexRange 1 1.0)) n :=
    ⟨_, rfl⟩
  obtain ⟨k, executed⟩ : ∃ k, execute ⟨400, 9⟩ node m = .error (.error (.indexRange 1 1.0)) k :=
    ⟨_, rfl⟩
  have ends : (evaluate ⟨400, 9⟩ node).Ends m := fun _ => by simp [evaluated]
  have reports : (executeReporting ⟨400, 9⟩ node).Ends m :=
    fun _ => by simp [executeReporting, executed]
  obtain ⟨ended, _, kept, reported⟩ := evaluate_program_sound ⟨400, 9⟩ node m rfl programs
  exact ⟨rfl, programs, ends, reports, ended ends, kept, reported reports⟩

end Reckoner
