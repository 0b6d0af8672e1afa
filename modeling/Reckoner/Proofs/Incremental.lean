import Reckoner.Proofs.Simulation
import Reckoner.Proofs.Store
import Reckoner.Session

/-! Programs and sessions. Outside of any function a block is its nodes handed in one by one: the
frame that the block opens stays empty, and an empty frame cannot be seen. In a function this is
false, since there a declaration in the block ends with the block. -/
namespace Reckoner

namespace Scope

variable {α : Type}

inductive Padded : Nat → Scope α → Scope α → Prop where
  | base (s : Scope α) : Padded 0 s ⟨Table.empty, s.frames⟩
  | push {opened : Nat} (frame : Table α) {s t : Scope α} :
    Padded opened s t → Padded (opened + 1) ⟨frame, s.frames⟩ ⟨frame, t.frames⟩

namespace Padded

variable {opened : Nat} {s t : Scope α}

theorem get? (padded : Padded opened s t) (key : String) : s.get? key = t.get? key := by
  induction padded with
  | base s =>
    rw [get?_cons]
    rfl
  | push frame _ ih => rw [get?_cons, get?_cons, ih]

theorem contains (padded : Padded opened s t) (key : String) : s.contains key = t.contains key :=
  contains_eq_of_get?_eq (padded.get? key)

theorem replace (padded : Padded opened s t) {key : String} (present : s.contains key = true)
    (value : α) :
    ∃ s' t', s.replace key value = .ok s' ∧ t.replace key value = .ok t' ∧
      Padded opened s' t' := by
  induction padded with
  | base s =>
    obtain ⟨s', replaced⟩ := exists_replace present value
    have absent : (Table.empty : Table α).contains key = false := rfl
    exact ⟨s', _, replaced, replace_cons absent replaced, .base s'⟩
  | @push opened frame s t below ih =>
    cases here : frame.contains key with
    | true =>
      refine ⟨⟨frame.insert key value, s.frames⟩, ⟨frame.insert key value, t.frames⟩, ?_, ?_, ?_⟩
      · simp only [Scope.replace, here, if_true, Scope.set]
      · simp only [Scope.replace, here, if_true, Scope.set]
      · exact .push _ below
    | false =>
      rw [contains_cons, here, Bool.false_or] at present
      obtain ⟨s', t', left, right, padded⟩ := ih present
      exact ⟨_, _, replace_cons here left, replace_cons here right, .push frame padded⟩

-- At distance zero this is false: the name would go into the empty frame.
theorem set (padded : Padded (opened + 1) s t) (key : String) (value : α) :
    Padded (opened + 1) (s.set key value) (t.set key value) := by
  cases padded with
  | push frame below => exact .push _ below

theorem drop (padded : Padded (opened + 1) s t) : Padded opened s.drop t.drop := by
  cases padded with
  | push frame below => exact below

end Padded

end Scope

namespace State

/-- The second state is the first in the course of a block that was opened outside of any function:
an empty frame lies behind the frames of these kinds that were opened since. -/
inductive UnderBlock (kinds : List FrameKind) (s : State) : State → Prop where
  | intro {locals : Scope Value} : s.locals.Padded kinds.length locals →
    s.depth = kinds.count .call → UnderBlock kinds s { s with locals }

namespace UnderBlock

variable {kinds : List FrameKind} {s t : State}

theorem hasGlobal (under : UnderBlock kinds s t) (name : String) :
    s.hasGlobal name = t.hasGlobal name := by
  obtain ⟨_, _⟩ := under
  rfl

theorem hasLocal (under : UnderBlock kinds s t) (name : String) :
    s.hasLocal name = t.hasLocal name := by
  obtain ⟨padded, _⟩ := under
  exact padded.contains name

theorem inFunction (under : UnderBlock kinds s t) : s.inFunction = t.inFunction := by
  obtain ⟨_, _⟩ := under
  rfl

theorem declare (under : UnderBlock kinds s t) (name : String) (value : Value) :
    Paired (UnderBlock kinds) (s.declare name value) (t.declare name value) := by
  rw [declare_eq, declare_eq, under.hasGlobal, under.hasLocal, under.inFunction]
  split
  · exact .error _
  · split
    · next inside =>
      rw [inFunction_iff] at inside
      obtain ⟨padded, depth⟩ := under
      -- In a function some frame was opened since, and that frame takes the name.
      cases kinds with
      | nil => simp [depth] at inside
      | cons kind outer => exact .ok ⟨padded.set name value, depth⟩
    · obtain ⟨padded, depth⟩ := under
      exact .ok ⟨padded, depth⟩

theorem assign (under : UnderBlock kinds s t) (name : String) (value : Value) :
    Paired (UnderBlock kinds) (s.assign name value) (t.assign name value) := by
  rw [State.assign, State.assign]
  cases present : s.hasLocal name with
  | true =>
    obtain ⟨padded, depth⟩ := under
    obtain ⟨_, _, left, right, replaced⟩ := padded.replace present value
    rw [left, right]
    exact .ok ⟨replaced, depth⟩
  | false =>
    have absent : t.hasLocal name = false := by rw [← under.hasLocal, present]
    rw [Scope.replace_of_not_contains present, Scope.replace_of_not_contains absent,
      under.hasGlobal, under.inFunction]
    simp only
    split
    · exact .error _
    · split
      · exact .error _
      · obtain ⟨padded, depth⟩ := under
        exact .ok ⟨padded, depth⟩

theorem define (under : UnderBlock kinds s t) (name : String) (declaration : Declaration) :
    Paired (UnderBlock kinds) (s.define name declaration) (t.define name declaration) := by
  have known : s.hasFunction name = t.hasFunction name := by
    obtain ⟨_, _⟩ := under
    rfl
  rw [State.define, State.define, known]
  split
  · exact .error _
  · obtain ⟨padded, depth⟩ := under
    exact .ok ⟨padded, depth⟩

theorem simulation :
    State.Simulation (FrameKind.block :: ·) (FrameKind.call :: ·) (fun _ => True) UnderBlock where
  child _ _ := trivial
  depth under := by
    obtain ⟨_, _⟩ := under
    rfl
  lookup _ under := by
    obtain ⟨padded, _⟩ := under
    simp only [State.lookup, binding?, padded.get?]
  checkFree _ under := by
    rw [State.checkFree, State.checkFree, under.hasGlobal, under.hasLocal]
  declare _ under := under.declare _ _
  assign _ _ under := under.assign _ _
  define _ under := under.define _ _
  callee _ under := by
    obtain ⟨_, _⟩ := under
    rfl
  body _ _ := trivial
  builtin _ _ _ under := by
    obtain ⟨_, _⟩ := under
    rfl
  advance _ _ _ under := by
    obtain ⟨padded, depth⟩ := under
    exact ⟨padded, depth⟩
  openFrame under := by
    obtain ⟨padded, depth⟩ := under
    exact ⟨.push _ padded, depth⟩
  closeFrame under := by
    obtain ⟨padded, depth⟩ := under
    exact ⟨padded.drop, depth⟩
  openCall under := by
    obtain ⟨padded, depth⟩ := under
    exact ⟨.push _ padded, by simp [State.openCall, depth]⟩
  closeCall under := by
    obtain ⟨padded, depth⟩ := under
    exact ⟨padded.drop, by simp [State.closeCall, depth]⟩

theorem openFrame (top : s.depth = 0) : UnderBlock [] s (s.openFrame []) :=
  ⟨.base s.locals, top⟩

theorem closeFrame (under : UnderBlock [] s t) : t.closeFrame = s := by
  obtain ⟨padded, _⟩ := under
  cases padded with
  | base => rfl

end UnderBlock

end State

/-- Outside of any function the frame of a block makes no difference to a computation that does the
same in any two states of which one has such a frame. -/
theorem Eval.withFrame_nil_eq {x y : Eval Value} (same : Simulates State.UnderBlock x y)
    {m : Machine} (top : m.state.depth = 0) : withFrame [] y m = x m := by
  have alike := same [] m { m with state := m.state.openFrame [] }
    ⟨rfl, rfl, State.UnderBlock.openFrame top⟩
  rw [withFrame, between]
  generalize x m = plain at alike
  generalize y { m with state := m.state.openFrame [] } = framed at alike ⊢
  cases alike with
  | @ok value k n related =>
    obtain ⟨output, log, under⟩ := related
    simp only [under.closeFrame, ← output, ← log]
  | @error stop k n related =>
    obtain ⟨output, log, under⟩ := related
    simp only [under.closeFrame, ← output, ← log]

theorem Eval.evalNode_block_eq (passes nesting : Nat) {nodes : List Node} {last : Node}
    (ends : nodes.getLast? = some last) (valued : last.isDeclaration = false) {m : Machine}
    (top : m.state.depth = 0) :
    evalNode passes (nesting + 1) (.block nodes) m =
      evalSequence (evalNode passes nesting) Value.zero nodes m := by
  have each : ∀ node, True → Simulates State.UnderBlock (evalNode passes nesting node)
      (evalNode passes nesting (node.rename id)) := fun _ known =>
    State.UnderBlock.simulation.correspondence.evalNode passes nesting known
  have all : Simulates State.UnderBlock
      (evalSequence (evalNode passes nesting) Value.zero nodes)
      (evalSequence (evalNode passes nesting) Value.zero (nodes.map (Node.rename id))) :=
    State.UnderBlock.simulation.correspondence.evalSequence each (fun _ _ => trivial) _
  rw [← Node.renameAll_eq_map, Node.renameAll_id] at all
  rw [evalNode, step, evalBlock, ends]
  simp only [valued, Bool.false_eq_true, if_false]
  exact withFrame_nil_eq all top

namespace Session

/-- The nodes handed in one by one, up to the first that has no value. The outcome is that of the
last node that was handed in. -/
def evaluateInTurn (limits : Limits) : (s : Session) → List Node → Except Stop Value × Session
  | s, [] => (.ok Value.zero, s)
  | s, [node] => s.run (evaluate limits node)
  | s, node :: rest =>
    match s.run (evaluate limits node) with
    | (.ok _, t) => t.evaluateInTurn limits rest
    | (.error stop, t) => (.error stop, t)

theorem run_evalSequence (limits : Limits) (s : Session) {nodes : List Node}
    (inhabited : nodes ≠ []) (value : Value) :
    s.run (Eval.evalSequence (evaluate limits) value nodes) = s.evaluateInTurn limits nodes := by
  induction nodes generalizing s value with
  | nil => contradiction
  | cons node rest ih =>
    cases ended : evaluate limits node s.machine with
    | error stop n =>
      have whole : Eval.evalSequence (evaluate limits) value (node :: rest) s.machine =
          .error stop n := Eval.bind_of_error ended
      cases rest <;> simp only [evaluateInTurn, run, whole, ended]
    | ok result n =>
      have whole : Eval.evalSequence (evaluate limits) value (node :: rest) s.machine =
          Eval.evalSequence (evaluate limits) result rest n := Eval.bind_of_ok ended
      cases rest with
      | nil =>
        have last : Eval.evalSequence (evaluate limits) result [] n = .ok result n := rfl
        simp only [evaluateInTurn, run, whole, ended, last]
      | cons next others =>
        have onward := ih { s with machine := n } (List.cons_ne_nil next others) result
        simp only [evaluateInTurn, run, whole, ended] at onward ⊢
        exact onward

end Session

/-- Outside of any function, evaluating a block of nodes of which the last has a value is the same
as handing the nodes in one by one up to the first that fails, under a limit on nesting that is
lower by one. The outcome is the same, and so is the session after it: all variables in every frame,
all functions, what was printed and what was noted. -/
theorem run_block_eq_evaluateInTurn (limits : Limits) (s : Session) (nodes : List Node)
    (last : Node) (ends : nodes.getLast? = some last) (valued : last.isDeclaration = false)
    (top : s.machine.state.depth = 0) :
    s.run (evaluate ⟨limits.nesting + 1, limits.passes⟩ (.block nodes)) =
      s.evaluateInTurn limits nodes := by
  have inhabited : nodes ≠ [] := by
    rintro rfl
    contradiction
  have sequence : evaluate ⟨limits.nesting + 1, limits.passes⟩ (.block nodes) s.machine =
      Eval.evalSequence (evaluate limits) Value.zero nodes s.machine :=
    Eval.evalNode_block_eq limits.passes limits.nesting ends valued top
  rw [← Session.run_evalSequence limits s inhabited Value.zero, Session.run, Session.run, sequence]

theorem run_block_print_eq_evaluateInTurn :
    let loop : Node := .loop "i" (.number 1.0 false) (.number 3.0 false) (.number 1.0 false)
      (.assign ["x"] (.identifier "i"))
    let nodes : List Node := [.declare "x" (.number 1.0 false), loop,
      .call "print" [.identifier "x"], .identifier "y"]
    let s := Session.start State.initial
    nodes.getLast? = some (.identifier "y") ∧ (Node.identifier "y").isDeclaration = false ∧
      s.machine.state.depth = 0 ∧
      s.run (evaluate ⟨400, 9⟩ (.block nodes)) = s.evaluateInTurn ⟨399, 9⟩ nodes := by
  intro loop nodes s
  exact ⟨rfl, rfl, rfl, run_block_eq_evaluateInTurn ⟨399, 9⟩ s nodes (.identifier "y") rfl rfl rfl⟩

-- In a function the variable is a local of the block, and it is gone with the block.
example :
    let nodes : List Node := [.declare "x" (.number 1.0 false), .number 2.0 false]
    let s := Session.start (State.bare.openCall [])
    (s.run (evaluate ⟨3, 9⟩ (.block nodes))).2.machine.state.hasLocal "x" = false ∧
      (s.evaluateInTurn ⟨2, 9⟩ nodes).2.machine.state.hasLocal "x" = true := ⟨rfl, rfl⟩

end Reckoner
