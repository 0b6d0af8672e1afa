import Reckoner.Proofs.Effect

/-! The limit on nesting. Nothing in a program can tell what the limit is: a run that does not reach
it is the same run under every higher limit, and a run that is cut off by it has printed and noted
the beginning of what the run under any higher limit prints and notes. -/
namespace Reckoner

structure Machine.Before (m n : Machine) : Prop where
  output : m.output.toList <+: n.output.toList
  log : m.log.toList <+: n.log.toList

namespace Machine.Before

theorem refl (m : Machine) : Before m m := ⟨List.prefix_refl _, List.prefix_refl _⟩

theorem trans {l m n : Machine} (first : Before l m) (second : Before m n) : Before l n :=
  ⟨first.output.trans second.output, first.log.trans second.log⟩

theorem log_push (m : Machine) (record : Record) (s : State) :
    Before m { m with state := s, log := m.log.push record } :=
  ⟨List.prefix_refl _, by simp⟩

theorem effect : Eval.Effect Before where
  refl := refl
  trans := trans
  declare name value m := by
    rw [Eval.final_declare]
    split
    · exact log_push m _ _
    · exact refl m
  assign name value m := by
    rw [Eval.final_update]
    split
    · exact ⟨List.prefix_refl _, List.prefix_refl _⟩
    · exact refl m
  define name declaration m := by
    rw [Eval.final_define]
    split
    · exact log_push m _ _
    · exact refl m
  print lines m := ⟨by simp [Eval.final, Eval.print], List.prefix_refl _⟩
  clock _ _ := ⟨List.prefix_refl _, List.prefix_refl _⟩
  frame _ inside := ⟨inside.output, inside.log⟩
  call _ _ inside := (log_push _ _ _).trans ⟨inside.output, inside.log⟩

end Machine.Before

namespace Eval

variable {α β : Type}

/-- Every run of `x` is the run of `y`, or else it reaches the limit on nesting, and then its
transcript is the beginning of that of the run of `y`. -/
structure CutOff (x y : Eval α) : Prop where
  grows : Keeps Machine.Before y
  run (m : Machine) : x m = y m ∨
    ∃ n, x m = .error (.error .recursionLimit) n ∧ n.Before (y.final m)

namespace CutOff

theorem of_keeps {x : Eval α} (grows : Keeps Machine.Before x) : CutOff x x :=
  ⟨grows, fun _ => .inl rfl⟩

theorem of_limit {y : Eval α} (grows : Keeps Machine.Before y) :
    CutOff (fail .recursionLimit) y :=
  ⟨grows, fun m => .inr ⟨m, rfl, grows m⟩⟩

theorem bind {x y : Eval α} {f g : α → Eval β} (first : CutOff x y)
    (rest : ∀ value, CutOff (f value) (g value)) : CutOff (x >>= f) (y >>= g) where
  grows := Machine.Before.effect.bind first.grows fun value => (rest value).grows
  run m := by
    obtain same | ⟨n, cut, before⟩ := first.run m
    · cases ended : y m with
      | ok value n =>
        have both := (rest value).run n
        rw [bind_of_ok (same.trans ended), final, bind_of_ok ended]
        exact both
      | error stop n =>
        rw [bind_of_error (same.trans ended), bind_of_error ended]
        exact .inl rfl
    · -- `x` is cut off, so `f` is not run; whatever `g` adds goes on from where `y` ended.
      refine .inr ⟨n, bind_of_error cut, before.trans ?_⟩
      cases ended : y m with
      | ok value n' =>
        have more := (rest value).grows n'
        rw [final_of_ok ended, final, bind_of_ok ended]
        exact more
      | error stop n' =>
        rw [final_of_error ended, final_of_error (bind_of_error ended)]
        exact .refl n'

theorem between (opening closing : State → State) {x y : Eval α} (body : CutOff x y) :
    CutOff (Eval.between opening closing x) (Eval.between opening closing y) where
  grows m := by
    have inside := body.grows { m with state := opening m.state }
    rw [final_between]
    exact ⟨inside.output, inside.log⟩
  run m := by
    obtain same | ⟨n, cut, before⟩ := body.run { m with state := opening m.state }
    · left
      rw [Eval.between, Eval.between, same]
    · right
      refine ⟨{ n with state := closing n.state }, by rw [Eval.between, cut], ?_⟩
      rw [final_between]
      exact ⟨before.output, before.log⟩

theorem enter (name : String) (bindings : List (String × Value)) {x y : Eval α}
    (body : CutOff x y) : CutOff (Eval.enter name bindings x) (Eval.enter name bindings y) where
  grows := Machine.Before.effect.enter name bindings body.grows
  run m := (between (·.openCall bindings) State.closeCall body).run
    { m with log := m.log.push (.calling name (m.state.depth + 1)) }

theorem correspondence : Correspondence (fun _ => True) id (fun {_} x y => CutOff x y) where
  child _ _ := trivial
  pure _ := of_keeps Machine.Before.refl
  bind := bind
  fail _ := of_keeps Machine.Before.refl
  unfinished := of_keeps Machine.Before.refl
  misplacedRange _ := of_keeps Machine.Before.refl
  hole _ := of_keeps Machine.Before.refl
  lookup _ := of_keeps (Machine.Before.effect.query _)
  checkFree _ := of_keeps (Machine.Before.effect.query _)
  declare value _ := of_keeps (Machine.Before.effect.declare _ value)
  assign value _ _ := of_keeps (Machine.Before.effect.assign _ value)
  define _ := by
    rw [Declaration.rename_id]
    exact of_keeps (Machine.Before.effect.define _ _)
  callee := by
    intro name _ f g _ builtin function unknown
    have both : ∀ s : State, CutOff (f (s.callee name)) (g (s.callee name)) := by
      intro s
      refine s.callee_cases (P := fun c => CutOff (f c) (g c))
        (fun _ named => builtin _ named trivial) (fun declaration _ => ?_) unknown
      simpa only [Declaration.rename_id] using function declaration trivial
    exact ⟨fun m => (both m.state).grows m, fun m => (both m.state).run m⟩
  builtin values _ _ _ := of_keeps (Machine.Before.effect.closed.runBuiltin _ values)
  frame bindings body := by
    rw [Prod.map_id, List.map_id]
    exact between (·.openFrame bindings) State.closeFrame body
  call name bindings body := by
    rw [Prod.map_id, List.map_id]
    exact enter name bindings body

theorem evalNode (passes : Nat) {low high : Nat} (le : low ≤ high) (node : Node) :
    CutOff (Eval.evalNode passes low node) (Eval.evalNode passes high node) := by
  -- On the lower limit with the higher one free, since each step takes one off both.
  induction low generalizing high node with
  | zero => exact of_limit (Machine.Before.effect.evalNode passes high node)
  | succ low ih =>
    obtain ⟨high, rfl⟩ : ∃ below, high = below + 1 := ⟨high - 1, by omega⟩
    have below : ∀ child, True → CutOff (Eval.evalNode passes low child)
        (Eval.evalNode passes high (child.rename id)) := by
      intro child _
      rw [Node.rename_id]
      exact ih (by omega) child
    have here : CutOff (Eval.step (Eval.evalNode passes low) passes node)
        (Eval.step (Eval.evalNode passes high) passes (node.rename id)) :=
      correspondence.step below passes trivial
    rw [Node.rename_id] at here
    exact here

end CutOff

end Eval

/-- A run under a limit on nesting that does not reach it ends as the run under any higher limit,
with the same outcome, state, lines and notes. If it does reach it, its lines and notes are the
beginning of those of the run under the higher limit, however that one ends. -/
theorem evaluate_limit_cutOff (passes : Nat) {low high : Nat} (le : low ≤ high) (node : Node)
    (m : Machine) :
    ((∀ n, evaluate ⟨low, passes⟩ node m ≠ .error (.error .recursionLimit) n) →
      evaluate ⟨high, passes⟩ node m = evaluate ⟨low, passes⟩ node m) ∧
    (∀ n, evaluate ⟨low, passes⟩ node m = .error (.error .recursionLimit) n →
      n.output.toList <+: ((evaluate ⟨high, passes⟩ node).final m).output.toList ∧
      n.log.toList <+: ((evaluate ⟨high, passes⟩ node).final m).log.toList) := by
  have run := (Eval.CutOff.evalNode passes le node).run m
  constructor
  · intro ends
    obtain same | ⟨n, cut, _⟩ := run
    · exact same.symm
    · exact absurd cut (ends n)
  · intro n cut
    obtain same | ⟨n', cut', before⟩ := run
    · have ended : evaluate ⟨high, passes⟩ node m = .error (.error .recursionLimit) n :=
        same.symm.trans cut
      rw [Eval.final_of_error ended]
      exact ⟨List.prefix_refl _, List.prefix_refl _⟩
    · cases cut'.symm.trans cut
      exact ⟨before.output, before.log⟩

/-- Under the limit three this program prints a line and is cut off in the inner block; under the
limit four it ends with a value. -/
theorem evaluate_limit_cutOff_print :
    let node : Node := .block [.call "print" [.number 7.0 false],
      .block [.block [.number 1.0 false]]]
    let m := Machine.ofState State.initial
    (∃ n, evaluate ⟨3, 9⟩ node m = .error (.error .recursionLimit) n ∧
      n.output.size = 1 ∧
      n.output.toList <+: ((evaluate ⟨4, 9⟩ node).final m).output.toList) ∧
    (∀ n, evaluate ⟨4, 9⟩ node m ≠ .error (.error .recursionLimit) n) ∧
      evaluate ⟨400, 9⟩ node m = evaluate ⟨4, 9⟩ node m := by
  intro node m
  have value : evaluate ⟨4, 9⟩ node m = .ok (Value.real 1.0) ((evaluate ⟨4, 9⟩ node).final m) := rfl
  have ends : ∀ n, evaluate ⟨4, 9⟩ node m ≠ .error (.error .recursionLimit) n := by
    intro n cut
    rw [value] at cut
    contradiction
  have three : 3 ≤ 4 := by decide
  have four : 4 ≤ 400 := by decide
  refine ⟨⟨(evaluate ⟨3, 9⟩ node).final m, rfl, rfl, ?_⟩, ends, ?_⟩
  · exact ((evaluate_limit_cutOff 9 three node m).2 _ rfl).1
  · exact (evaluate_limit_cutOff 9 four node m).1 ends

end Reckoner
