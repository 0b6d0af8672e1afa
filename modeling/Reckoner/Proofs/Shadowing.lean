import Reckoner.Proofs.Preservation

/-! Hidden bindings. While a name is bound in some frame, no evaluation touches what that frame
hides: neither a binding of the name further out, nor a global of that name. -/
namespace Reckoner

namespace Scope

variable {α : Type}

def bindings (s : Scope α) (key : String) : List (Option α) :=
  s.frames.map fun frame => frame.get? key

theorem find?_eq_findIdx? (s : Scope α) (key : String) :
    s.find? key = (s.bindings key).findIdx? Option.isSome := by
  simp only [find?, bindings, List.findIdx?_map, Function.comp_def, Table.isSome_get?]

theorem find?_eq_of_bindings {s t : Scope α} {key : String}
    (same : t.bindings key = s.bindings key) : t.find? key = s.find? key := by
  rw [find?_eq_findIdx?, find?_eq_findIdx?, same]

theorem bindings_set_of_ne (s : Scope α) {key other : String} (value : α) (apart : other ≠ key) :
    (s.set key value).bindings other = s.bindings other := by
  simp only [bindings, set, frames, List.map_cons, Table.get?_insert_of_ne _ value apart]

theorem map_get?_of_replaceIn {key : String} {value : α} {frames changed : List (Table α)}
    (replaced : replaceIn key value frames = some changed) {other : String}
    (apart : other ≠ key) :
    (changed.map fun frame => frame.get? other) = frames.map fun frame => frame.get? other := by
  induction frames generalizing changed with
  | nil => contradiction
  | cons frame rest ih =>
    rw [replaceIn] at replaced
    split at replaced
    · cases replaced
      simp only [List.map_cons, Table.get?_insert_of_ne _ value apart]
    · obtain ⟨below, found, rfl⟩ := Option.map_eq_some_iff.1 replaced
      rw [List.map_cons, List.map_cons, ih found]

theorem nearest_of_replaceIn {key : String} {value : α} {frames changed : List (Table α)}
    (replaced : replaceIn key value frames = some changed) {distance : Nat}
    (nearest : frames.findIdx? (fun frame => frame.contains key) = some distance) :
    (changed.findIdx? fun frame => frame.contains key) = some distance ∧
      changed.drop (distance + 1) = frames.drop (distance + 1) := by
  induction frames generalizing changed distance with
  | nil => contradiction
  | cons frame rest ih =>
    rw [replaceIn] at replaced
    rw [List.findIdx?_cons] at nearest
    split at replaced
    · next present =>
      cases replaced
      rw [if_pos present] at nearest
      cases nearest
      have still : (frame.insert key value).contains key = true := by
        rw [← Table.isSome_get?, Table.get?_insert_self]
        rfl
      rw [List.findIdx?_cons, if_pos still]
      exact ⟨rfl, rfl⟩
    · next absent =>
      obtain ⟨below, found, rfl⟩ := Option.map_eq_some_iff.1 replaced
      rw [if_neg absent] at nearest
      obtain ⟨inner, known, rfl⟩ := Option.map_eq_some_iff.1 nearest
      obtain ⟨still, same⟩ := ih found known
      rw [List.findIdx?_cons, if_neg absent, still]
      exact ⟨rfl, same⟩

theorem bindings_push (s : Scope α) (opening : List (String × α)) (key : String) :
    (s.push opening).bindings key = (Table.ofList opening).get? key :: s.bindings key := rfl

theorem find?_push (s : Scope α) (opening : List (String × α)) (key : String) :
    (s.push opening).find? key =
      if (Table.ofList opening).contains key then some 0 else (s.find? key).map (· + 1) := by
  rw [find?, push, frames, List.findIdx?_cons]
  rfl

theorem find?_push_of_mem (s : Scope α) {opening : List (String × α)} {key : String}
    (bound : key ∈ opening.map Prod.fst) : (s.push opening).find? key = some 0 := by
  rw [find?_push, if_pos]
  rw [Table.contains_iff_mem, Table.mem_keys_ofList]
  exact bound

theorem find?_drop {s : Scope α} {key : String} {distance : Nat}
    (holder : s.find? key = some (distance + 1)) :
    s.drop.find? key = some distance ∧ s.drop.bindings key = (s.bindings key).tail := by
  obtain ⟨frame, outer⟩ := s
  rw [find?, frames, List.findIdx?_cons] at holder
  split at holder
  · cases holder
  · cases outer with
    | nil => contradiction
    | cons parent rest =>
      obtain ⟨nearer, found, same⟩ := Option.map_eq_some_iff.1 holder
      cases same
      exact ⟨found, rfl⟩

theorem bindings_drop {s t : Scope α} {key : String}
    (shape : (s.bindings key).tail = t.bindings key) : s.drop.bindings key = t.bindings key := by
  obtain ⟨frame, outer⟩ := s
  cases outer with
  | nil => contradiction
  | cons parent rest => exact shape

end Scope

namespace State

structure SameBindings (name : String) (s t : State) : Prop where
  locals : t.locals.bindings name = s.locals.bindings name
  globals : t.globals.get? name = s.globals.get? name

/-- The innermost frame that has the name is still the one at this distance, and the frames outside
of it, and the globals, bind the name to what they bound it to. -/
structure HiddenKept (name : String) (distance : Nat) (s t : State) : Prop where
  holder : t.locals.find? name = some distance
  outside : (t.locals.bindings name).drop (distance + 1) =
    (s.locals.bindings name).drop (distance + 1)
  globals : t.globals.get? name = s.globals.get? name

theorem SameBindings.trans {name : String} {s t u : State} (first : SameBindings name s t)
    (second : SameBindings name t u) : SameBindings name s u :=
  ⟨second.locals.trans first.locals, second.globals.trans first.globals⟩

theorem SameBindings.hiddenKept {name : String} {s t : State} (same : SameBindings name s t)
    {distance : Nat} (holder : s.locals.find? name = some distance) :
    HiddenKept name distance s t := by
  refine ⟨?_, by rw [same.locals], same.globals⟩
  rw [Scope.find?_eq_of_bindings same.locals, holder]

theorem sameBindings_of_declare {s t : State} {name other : String} {value : Value}
    (declared : s.declare name value = .ok t) (apart : other ≠ name) :
    SameBindings other s t := by
  obtain ⟨_, rfl⟩ | ⟨_, rfl⟩ := eq_of_declare declared
  · exact ⟨Scope.bindings_set_of_ne _ value apart, rfl⟩
  · exact ⟨rfl, Table.get?_insert_of_ne _ value apart⟩

theorem sameBindings_of_assign {s t : State} {name other : String} {value : Value}
    (assigned : s.assign name value = .ok t) (apart : other ≠ name) :
    SameBindings other s t := by
  obtain ⟨locals, replaced, rfl⟩ | ⟨_, rfl⟩ := eq_of_assign assigned
  · exact ⟨Scope.map_get?_of_replaceIn (Scope.replaceIn_of_replace replaced) apart, rfl⟩
  · exact ⟨rfl, Table.get?_insert_of_ne _ value apart⟩

theorem hasLocal_of_find? {s : State} {name : String} {distance : Nat}
    (holder : s.locals.find? name = some distance) : s.hasLocal name = true := by
  rw [hasLocal, Scope.contains, holder]
  rfl

namespace HiddenKept

variable {name : String} {distance : Nat}

theorem declare {s t : State} {declared : String} {value : Value}
    (changed : s.declare declared value = .ok t)
    (holder : s.locals.find? name = some distance) : HiddenKept name distance s t := by
  have apart : name ≠ declared := by
    rintro rfl
    have free := (free_of_declare changed).2
    rw [hasLocal_of_find? holder] at free
    contradiction
  exact (sameBindings_of_declare changed apart).hiddenKept holder

theorem assign {s t : State} {target : String} {value : Value}
    (assigned : s.assign target value = .ok t)
    (holder : s.locals.find? name = some distance) : HiddenKept name distance s t := by
  by_cases same : name = target
  · subst same
    obtain ⟨locals, replaced, rfl⟩ | ⟨⟨_, absent, _⟩, _⟩ := eq_of_assign assigned
    · obtain ⟨still, outside⟩ :=
        Scope.nearest_of_replaceIn (Scope.replaceIn_of_replace replaced) holder
      refine ⟨still, ?_, rfl⟩
      simp only [Scope.bindings, ← List.map_drop, outside]
    · rw [hasLocal_of_find? holder] at absent
      contradiction
  · exact (sameBindings_of_assign assigned same).hiddenKept holder

-- A block, a pass of a loop and a call all open a frame, and close it again in the end.
variable {s opened t closed : State} {opening : List (String × Value)}

theorem sameBindings (inside : HiddenKept name 0 opened t)
    (opens : opened.locals = s.locals.push opening) (openGlobals : opened.globals = s.globals)
    (closes : closed.locals = t.locals.drop) (closeGlobals : closed.globals = t.globals) :
    SameBindings name s closed := by
  have outside : (t.locals.bindings name).tail = s.locals.bindings name := by
    rw [← List.drop_one, inside.outside, opens]
    rfl
  constructor
  · rw [closes, Scope.bindings_drop outside]
  · rw [closeGlobals, inside.globals, openGlobals]

theorem frame (holder : s.locals.find? name = some distance)
    (inside : ∀ distance, opened.locals.find? name = some distance →
      HiddenKept name distance opened t)
    (opens : opened.locals = s.locals.push opening) (openGlobals : opened.globals = s.globals)
    (closes : closed.locals = t.locals.drop) (closeGlobals : closed.globals = t.globals) :
    HiddenKept name distance s closed := by
  have nearest := Scope.find?_push s.locals opening name
  rw [← opens] at nearest
  split at nearest
  · -- The frame itself has the name, and so all bindings of `s` were hidden in it.
    have same := (inside 0 nearest).sameBindings opens openGlobals closes closeGlobals
    exact same.hiddenKept holder
  · -- The frame does not have the name, which is therefore one frame further out.
    rw [holder] at nearest
    have kept := inside (distance + 1) nearest
    obtain ⟨nearer, tail⟩ := Scope.find?_drop kept.holder
    refine ⟨closes ▸ nearer, ?_, ?_⟩
    · rw [closes, tail, List.drop_tail, kept.outside, opens, Scope.bindings_push,
        List.drop_succ_cons]
    · rw [closeGlobals, kept.globals, openGlobals]

theorem effect (name : String) :
    State.Effect fun s t => ∀ distance, s.locals.find? name = some distance →
      HiddenKept name distance s t where
  refl _ _ holder := ⟨holder, rfl, rfl⟩
  trans first second distance holder := by
    have one := first distance holder
    have two := second distance one.holder
    exact ⟨two.holder, two.outside.trans one.outside, two.globals.trans one.globals⟩
  declare changed _ holder := declare changed holder
  assign assigned _ holder := assign assigned holder
  define defined distance holder := by
    rw [eq_of_define defined]
    exact ⟨holder, rfl, rfl⟩
  clock _ _ _ holder := ⟨holder, rfl, rfl⟩
  frame inside _ holder := frame holder inside rfl rfl rfl rfl
  call inside _ holder := frame holder inside rfl rfl rfl rfl

end HiddenKept

end State

namespace Eval

/-- What a frame or a call binds itself is bound around it as before, once it is closed: the body
can assign it, and so can all that the body calls, but only in that frame. -/
theorem between_sameBindings (opens closes : State → State) {opening : List (String × Value)}
    {name : String} {body : Eval Value}
    (keeps : Keeps (fun m n => ∀ distance, m.state.locals.find? name = some distance →
      State.HiddenKept name distance m.state n.state) body)
    (bound : name ∈ opening.map Prod.fst)
    (openLocals : ∀ s, (opens s).locals = s.locals.push opening)
    (openGlobals : ∀ s, (opens s).globals = s.globals)
    (closeLocals : ∀ s, (closes s).locals = s.locals.drop)
    (closeGlobals : ∀ s, (closes s).globals = s.globals) :
    Keeps (fun m n => State.SameBindings name m.state n.state) (between opens closes body) := by
  intro m
  have holder : (opens m.state).locals.find? name = some 0 := by
    rw [openLocals]
    exact Scope.find?_push_of_mem _ bound
  have inside := keeps { m with state := opens m.state } 0 holder
  rw [final_between]
  exact inside.sameBindings (openLocals _) (openGlobals _) (closeLocals _) (closeGlobals _)

theorem Keeps.runLoop {R : Machine → Machine → Prop} {pass : Float → Value → Eval Value}
    (each : ∀ position total, Keeps R (pass position total)) (refl : ∀ m, R m m)
    (trans : ∀ {l m n : Machine}, R l m → R m n → R l n) (b : Bounds) (passes : Nat) :
    Keeps R (Eval.runLoop b pass passes) := by
  have onward : ∀ position total, Keeps R (runPasses b pass passes position total) := by
    induction passes with
    | zero => exact fun _ _ m => refl m
    | succ passes ih =>
      intro position total
      refine (each position total).bind trans fun total => ?_
      split
      · exact ih _ _
      · exact each _ _
  unfold Eval.runLoop
  split
  · exact onward _ _
  · exact fun m => refl m

theorem evalPass_sameBindings (passes nesting : Nat) (counter : String) (body : Node)
    (position : Float) (total : Value) :
    Keeps (fun m n => State.SameBindings counter m.state n.state)
      (evalPass (evalNode passes nesting) counter body position total) := by
  have effect := (State.HiddenKept.effect counter).onMachines
  have body := effect.bind (effect.evalNode passes nesting body) fun value =>
    effect.closed.correspondence.ofExcept (.operator .add total value)
  exact between_sameBindings (·.openFrame _) State.closeFrame body (List.mem_singleton.2 rfl)
    (fun _ => rfl) (fun _ => rfl) (fun _ => rfl) fun _ => rfl

theorem final_loop {passes nesting : Nat} {counter : String} {first second step body : Node}
    {b : Bounds} {m n : Machine}
    (evaluated : evalBounds (evalNode passes nesting) first second step m = .ok b n) :
    (evalNode passes (nesting + 1) (.loop counter first second step body)).final m =
      (runLoop b (evalPass (evalNode passes nesting) counter body) passes).final n := by
  rw [evalNode, Eval.step, final, bind_of_ok evaluated, final]

end Eval

/-- While a name is bound in a frame, no evaluation changes what that frame hides, however it ends:
the frames outside of the innermost one that has the name, and the globals, bind the name to what
they bound it to, or still do not bind it. So the body of a function gives the caller all bindings
of the names of its parameters back as the arguments left them, and a loop gives all bindings of
the name of its counter back as the bounds left them. -/
theorem evaluate_hiddenKept :
    (∀ (limits : Limits) (node : Node) (m : Machine) (name : String) (distance : Nat),
      m.state.locals.find? name = some distance →
      State.HiddenKept name distance m.state ((evaluate limits node).final m).state) ∧
    (∀ (passes nesting : Nat) (name : String) (arguments : List Node)
      (declaration : Declaration) (values : List Value) (m n : Machine),
      m.state.callee name = .function declaration →
      arguments.length = declaration.parameters.length →
      Eval.evalAll (Eval.evalNode passes nesting) arguments m = .ok values n →
      ∀ parameter ∈ declaration.parameters, State.SameBindings parameter n.state
        ((evaluate ⟨nesting + 1, passes⟩ (.call name arguments)).final m).state) ∧
    (∀ (passes nesting : Nat) (counter : String) (first second step body : Node)
      (b : Bounds) (m n : Machine),
      Eval.evalBounds (Eval.evalNode passes nesting) first second step m = .ok b n →
      State.SameBindings counter n.state ((evaluate ⟨nesting + 1, passes⟩
        (.loop counter first second step body)).final m).state) := by
  refine ⟨?_, ?_, ?_⟩
  · intro limits node m name distance holder
    exact (State.HiddenKept.effect name).evaluate limits node m distance holder
  · intro passes nesting name arguments declaration values m n found arity evaluated parameter
      member
    have sized : values.length = declaration.parameters.length :=
      (Eval.length_of_evalAll evaluated).trans arity
    have names : (declaration.parameters.zip values).map Prod.fst = declaration.parameters :=
      List.map_fst_zip (Nat.le_of_eq sized.symm)
    have body := (State.HiddenKept.effect parameter).onMachines.evalNode passes nesting
      declaration.body
    rw [evaluate, Eval.final_call found arity evaluated, Eval.final_enter]
    exact Eval.between_sameBindings (·.openCall _) State.closeCall body (names.symm ▸ member)
      (fun _ => rfl) (fun _ => rfl) (fun _ => rfl) (fun _ => rfl)
      { n with log := n.log.push (.calling name (n.state.depth + 1)) }
  · intro passes nesting counter first second step body b m n evaluated
    have pass := Eval.evalPass_sameBindings passes nesting counter body
    rw [evaluate, Eval.final_loop evaluated]
    exact Eval.Keeps.runLoop pass (fun _ => ⟨rfl, rfl⟩) State.SameBindings.trans b passes n

/-- Two frames and the globals bind `x`. An assignment reaches the inner frame only, a function with
the parameter `x` and a loop that counts with `x` not even that. -/
theorem evaluate_hiddenKept_frames :
    let body : Node := .assign ["x"] (.number 9.0 false)
    let top : State :=
      { State.initial with
        globals := State.initial.globals.insert "x" (Value.real 0.0)
        functions := .ofList [("f", ⟨["x"], body⟩)] }
    let s := (top.openCall [("x", Value.real 1.0)]).openFrame [("x", Value.real 2.0)]
    let loop : Node :=
      .loop "x" (.number 1.0 false) (.number 3.0 false) (.number 1.0 false) body
    s.locals.find? "x" = some 0 ∧
      State.HiddenKept "x" 0 s ((evaluate .standard body).final (.ofState s)).state ∧
      s.callee "f" = .function ⟨["x"], body⟩ ∧
      State.SameBindings "x" s
        ((evaluate ⟨400, 9⟩ (.call "f" [.number 5.0 false])).final (.ofState s)).state ∧
      State.SameBindings "x" s ((evaluate ⟨400, 9⟩ loop).final (.ofState s)).state := by
  intro body top s loop
  have bounds : Eval.evalBounds (Eval.evalNode 9 399) (.number 1.0 false) (.number 3.0 false)
      (.number 1.0 false) (.ofState s) = .ok ⟨1.0, 3.0, (1.0 : Float).abs⟩ (.ofState s) := rfl
  refine ⟨rfl, evaluate_hiddenKept.1 .standard body (.ofState s) "x" 0 rfl, rfl, ?_, ?_⟩
  · exact evaluate_hiddenKept.2.1 9 399 "f" [.number 5.0 false] ⟨["x"], body⟩
      [Value.real 5.0] (.ofState s) (.ofState s) rfl rfl rfl "x" (by decide)
  · exact evaluate_hiddenKept.2.2 9 399 "x" _ _ _ body _ (.ofState s) (.ofState s) bounds

end Reckoner
