import Reckoner.Proofs.Effect
import Reckoner.Proofs.Store

/-! What an evaluation leaves as it found it. The frames around the innermost one keep their names,
the innermost one can only gain names at its end and only in a function, and what runs in a function
cannot change a global. -/
namespace Reckoner

/-- The state `t` has the call depth and the frames of `s`, each with its names in their order,
except that the innermost frame may have gained names at its end if `s` is in a function. -/
structure State.FramesKept (s t : State) : Prop where
  depth : t.depth = s.depth
  outer : t.locals.outer.map Table.keys = s.locals.outer.map Table.keys
  inner : s.locals.frame.keys <+: t.locals.frame.keys
  outside : s.depth = 0 → t.locals.frame.keys = s.locals.frame.keys

theorem Scope.keys_drop {α : Type} {s t : Scope α}
    (same : t.outer.map Table.keys = s.frames.map Table.keys) :
    t.drop.frame.keys = s.frame.keys ∧ t.drop.outer.map Table.keys = s.outer.map Table.keys := by
  obtain ⟨frame, outer⟩ := t
  cases outer with
  | nil => contradiction
  | cons parent rest => exact List.cons_eq_cons.1 same

namespace State.FramesKept

theorem refl (s : State) : FramesKept s s :=
  ⟨rfl, rfl, List.prefix_refl _, fun _ => rfl⟩

theorem trans {s t u : State} (first : FramesKept s t) (second : FramesKept t u) :
    FramesKept s u where
  depth := second.depth.trans first.depth
  outer := second.outer.trans first.outer
  inner := first.inner.trans second.inner
  outside top := (second.outside (first.depth.trans top)).trans (first.outside top)

theorem of_locals {s t : State} (depth : t.depth = s.depth) (locals : t.locals = s.locals) :
    FramesKept s t :=
  ⟨depth, by rw [locals], locals ▸ List.prefix_refl _, fun _ => by rw [locals]⟩

theorem declare {s t : State} {name : String} {value : Value}
    (declared : s.declare name value = .ok t) : FramesKept s t := by
  obtain ⟨inside, rfl⟩ | ⟨_, rfl⟩ := eq_of_declare declared
  · exact ⟨rfl, rfl, Table.keys_prefix_insert _ _ _, fun top => by omega⟩
  · exact of_locals rfl rfl

theorem assign {s t : State} {name : String} {value : Value}
    (assigned : s.assign name value = .ok t) : FramesKept s t := by
  obtain ⟨locals, replaced, rfl⟩ | ⟨_, rfl⟩ := eq_of_assign assigned
  · obtain ⟨inner, outer⟩ := Scope.keys_of_replace replaced
    exact ⟨rfl, outer, inner ▸ List.prefix_refl _, fun _ => inner⟩
  · exact of_locals rfl rfl

theorem frame {s t : State} {bindings : List (String × Value)}
    (inside : FramesKept (s.openFrame bindings) t) : FramesKept s t.closeFrame := by
  obtain ⟨inner, outer⟩ := Scope.keys_drop inside.outer
  exact ⟨inside.depth, outer, inner ▸ List.prefix_refl _, fun _ => inner⟩

theorem call {s t : State} {bindings : List (String × Value)}
    (inside : FramesKept (s.openCall bindings) t) : FramesKept s t.closeCall := by
  obtain ⟨inner, outer⟩ := Scope.keys_drop inside.outer
  have depth : t.depth - 1 = s.depth := by
    rw [inside.depth]
    rfl
  exact ⟨depth, outer, inner ▸ List.prefix_refl _, fun _ => inner⟩

theorem effect : State.Effect FramesKept where
  refl := refl
  trans := trans
  declare := declare
  assign := assign
  define defined := by
    rw [eq_of_define defined]
    exact of_locals rfl rfl
  clock _ _ := of_locals rfl rfl
  frame := frame
  call := call

theorem locals_eq_empty {s t : State} (kept : FramesKept s t) (fresh : s.locals = Scope.empty)
    (top : s.depth = 0) : t.locals = Scope.empty := by
  have outer : t.locals.outer = [] := by simpa [fresh, Scope.empty] using kept.outer
  have inner : t.locals.frame = Table.empty :=
    Table.eq_empty_of_keys (by rw [kept.outside top, fresh]; rfl)
  calc
    t.locals = ⟨t.locals.frame, t.locals.outer⟩ := rfl
    _ = Scope.empty := by rw [inner, outer]; rfl

end State.FramesKept

/-- However an evaluation ends, the call depth is what it was, and so are the frames and the names
in each of them, apart from names that the innermost frame has gained at its end in a function. So
after any requests, failed or not, a machine that started without locals and outside of any function
is without locals and outside of any function again. -/
theorem evaluate_framesKept :
    (∀ (limits : Limits) (node : Node) (m : Machine),
      State.FramesKept m.state ((evaluate limits node).final m).state) ∧
    (∀ (requests : List Request) (m : Machine),
      m.state.locals = Scope.empty → m.state.depth = 0 →
      (Request.runAll requests m).state.locals = Scope.empty ∧
        (Request.runAll requests m).state.depth = 0) := by
  refine ⟨fun limits node m => State.FramesKept.effect.evaluate limits node m, ?_⟩
  intro requests m fresh top
  have kept := State.FramesKept.effect.requests requests m
  exact ⟨kept.locals_eq_empty fresh top, kept.depth.trans top⟩

theorem requests_initial_framesKept :
    let requests : List Request :=
      [.execute .standard (.block [.declare "x" (.number 1.0 false), .identifier "y"]),
        .report .standard (.loop "i" (.number 1.0 false) (.number 3.0 false) .hole .hole)]
    State.initial.locals = Scope.empty ∧ State.initial.depth = 0 ∧
      (Request.runAll requests (.ofState State.initial)).state.locals = Scope.empty ∧
      (Request.runAll requests (.ofState State.initial)).state.depth = 0 :=
  ⟨rfl, rfl, evaluate_framesKept.2 _ (.ofState State.initial) rfl rfl⟩

structure State.GlobalsKept (s t : State) : Prop where
  depth : t.depth = s.depth
  globals : 0 < s.depth → t.globals = s.globals

namespace State.GlobalsKept

theorem trans {s t u : State} (first : GlobalsKept s t) (second : GlobalsKept t u) :
    GlobalsKept s u where
  depth := second.depth.trans first.depth
  globals inside := (second.globals (first.depth ▸ inside)).trans (first.globals inside)

theorem declare {s t : State} {name : String} {value : Value}
    (declared : s.declare name value = .ok t) : GlobalsKept s t := by
  obtain ⟨_, rfl⟩ | ⟨top, rfl⟩ := eq_of_declare declared
  · exact ⟨rfl, fun _ => rfl⟩
  · exact ⟨rfl, fun inside => by omega⟩

theorem assign {s t : State} {name : String} {value : Value}
    (assigned : s.assign name value = .ok t) : GlobalsKept s t := by
  obtain ⟨_, _, rfl⟩ | ⟨top, rfl⟩ := eq_of_assign assigned
  · exact ⟨rfl, fun _ => rfl⟩
  · exact ⟨rfl, fun inside => by omega⟩

-- A call goes one deeper and comes back: its body is in a function wherever the call stands.
theorem call {s t : State} {bindings : List (String × Value)}
    (inside : GlobalsKept (s.openCall bindings) t) : GlobalsKept s t.closeCall where
  depth := by
    change t.depth - 1 = s.depth
    rw [inside.depth]
    rfl
  globals _ := inside.globals (Nat.succ_pos s.depth)

theorem effect : State.Effect GlobalsKept where
  refl _ := ⟨rfl, fun _ => rfl⟩
  trans := trans
  declare := declare
  assign := assign
  define defined := by
    rw [eq_of_define defined]
    exact ⟨rfl, fun _ => rfl⟩
  clock _ _ := ⟨rfl, fun _ => rfl⟩
  frame inside := ⟨inside.depth, inside.globals⟩
  call := call

end State.GlobalsKept

theorem Eval.final_call {passes nesting : Nat} {name : String} {arguments : List Node}
    {declaration : Declaration} {values : List Value} {m n : Machine}
    (found : m.state.callee name = .function declaration)
    (arity : arguments.length = declaration.parameters.length)
    (evaluated : evalAll (evalNode passes nesting) arguments m = .ok values n) :
    (evalNode passes (nesting + 1) (.call name arguments)).final m =
      (enter name (declaration.parameters.zip values)
        (evalNode passes nesting declaration.body)).final n := by
  have called : evalNode passes (nesting + 1) (.call name arguments) m =
      enter name (declaration.parameters.zip values)
        (evalNode passes nesting declaration.body) n := by
    rw [evalNode, step, evalCall_eq]
    change invoke _ name arguments (m.state.callee name) m = _
    rw [found, invoke, if_pos arity, bind_of_ok evaluated]
  rw [final, called, final]

/-- In a function no evaluation changes a global, whatever it does and however it ends. So the body
of a function leaves the globals as the arguments of the call left them, wherever the call
stands. -/
theorem evaluate_globalsKept :
    (∀ (limits : Limits) (node : Node) (m : Machine), 0 < m.state.depth →
      ((evaluate limits node).final m).state.globals = m.state.globals) ∧
    (∀ (passes nesting : Nat) (name : String) (arguments : List Node)
      (declaration : Declaration) (values : List Value) (m n : Machine),
      m.state.callee name = .function declaration →
      arguments.length = declaration.parameters.length →
      Eval.evalAll (Eval.evalNode passes nesting) arguments m = .ok values n →
      ((evaluate ⟨nesting + 1, passes⟩ (.call name arguments)).final m).state.globals =
        n.state.globals) := by
  constructor
  · intro limits node m inside
    exact (State.GlobalsKept.effect.evaluate limits node m).globals inside
  · intro passes nesting name arguments declaration values m n found arity evaluated
    rw [evaluate, Eval.final_call found arity evaluated, Eval.final_enter, Eval.withCall,
      Eval.final_between]
    exact (State.GlobalsKept.effect.onMachines.evalNode passes nesting declaration.body
      _).globals (Nat.succ_pos n.state.depth)

theorem evaluate_call_globalsKept :
    let body : Node := .block [.assign ["a"] (.number 2.0 false), .assign ["pi"] (.identifier "a")]
    let s : State := { State.initial with functions := .ofList [("f", ⟨["a"], body⟩)] }
    0 < (s.openCall []).depth ∧
      ((evaluate .standard body).final (.ofState (s.openCall []))).state.globals = s.globals ∧
      s.callee "f" = .function ⟨["a"], body⟩ ∧
      ((evaluate ⟨400, 9⟩ (.call "f" [.number 1.0 false])).final (.ofState s)).state.globals =
        s.globals := by
  intro body s
  refine ⟨Nat.one_pos, evaluate_globalsKept.1 .standard body (.ofState (s.openCall [])) Nat.one_pos,
    rfl, ?_⟩
  exact evaluate_globalsKept.2 9 399 "f" [.number 1.0 false] ⟨["a"], body⟩
    [Value.real 1.0] (.ofState s) (.ofState s) rfl rfl rfl

end Reckoner
