import Reckoner.Proofs.Effect
import Reckoner.Proofs.Store

/-! The states that a computation goes through, and the names that have been declared in each frame
that is open then. A declared variable never shadows: as long as its frame is open, at every moment
of every computation, no frame around that one has the name, and no global has it. Parameters and
counters of loops may shadow; they are not declared. -/
namespace Reckoner

abbrev Declared := List (List String)

def Declared.note (d : Declared) (inFunction : Bool) (name : String) : Declared :=
  match inFunction, d with
  | true, names :: outer => (name :: names) :: outer
  | _, d => d

structure Moment where
  state : State
  declared : Declared

namespace Eval

variable {α β : Type}

/-- The course of a computation that is put together from single changes of the state, frames and
calls: on a machine `m` where the names `d` have been declared, it goes through the listed moments,
one for each change, and in the end the names `e` have been declared. -/
inductive Course : {α : Type} → (x : Eval α) → (m : Machine) → (d : Declared) → List Moment →
    (e : Declared) → Prop where
  | pure {α : Type} (value : α) (m : Machine) (d : Declared) : Course (pure value) m d [] d
  | throw {α : Type} (stop : Stop) (m : Machine) (d : Declared) :
    Course (throw stop : Eval α) m d [] d
  | query {α : Type} (f : State → Except RuntimeError α) (m : Machine) (d : Declared) :
    Course (query f) m d [] d
  | note (record : Record) (m : Machine) (d : Declared) : Course (note record) m d [] d
  | print (lines : List String) (m : Machine) (d : Declared) : Course (print lines) m d [] d
  | refused {f : State → Except RuntimeError State} {m : Machine} {error : RuntimeError}
    (d : Declared) : f m.state = .error error → Course (update f) m d [] d
  | declare {name : String} {value : Value} {m : Machine} {s : State} (d : Declared) :
    m.state.declare name value = .ok s →
    Course (update (·.declare name value)) m d [⟨s, d.note m.state.inFunction name⟩]
      (d.note m.state.inFunction name)
  | assign {name : String} {value : Value} {m : Machine} {s : State} (d : Declared) :
    m.state.assign name value = .ok s → Course (update (·.assign name value)) m d [⟨s, d⟩] d
  | define {name : String} {declaration : Declaration} {m : Machine} {s : State} (d : Declared) :
    m.state.define name declaration = .ok s →
    Course (update (·.define name declaration)) m d [⟨s, d⟩] d
  | clock (f : Clock → Clock) (m : Machine) (d : Declared) :
    Course (changeClock f) m d [⟨{ m.state with clock := f m.state.clock }, d⟩] d
  | bind {α β : Type} {x : Eval α} {f : α → Eval β} {m n : Machine} {value : α}
    {d e k : Declared} {first second : List Moment} : Course x m d first e →
    x m = .ok value n → Course (f value) n e second k → Course (x >>= f) m d (first ++ second) k
  | stopped {α β : Type} {x : Eval α} {f : α → Eval β} {m n : Machine} {stop : Stop}
    {d e : Declared} {moments : List Moment} : Course x m d moments e →
    x m = .error stop n → Course (x >>= f) m d moments e
  | frame {α : Type} {x : Eval α} {bindings : List (String × Value)} {m : Machine}
    {d : Declared} {names : List String} {moments : List Moment} :
    Course x { m with state := m.state.openFrame bindings } ([] :: d) moments (names :: d) →
    Course (withFrame bindings x) m d (⟨m.state.openFrame bindings, [] :: d⟩ :: moments ++
      [⟨((withFrame bindings x).final m).state, d⟩]) d
  | call {α : Type} {x : Eval α} {bindings : List (String × Value)} {m : Machine}
    {d : Declared} {names : List String} {moments : List Moment} :
    Course x { m with state := m.state.openCall bindings } ([] :: d) moments (names :: d) →
    Course (withCall bindings x) m d (⟨m.state.openCall bindings, [] :: d⟩ :: moments ++
      [⟨((withCall bindings x).final m).state, d⟩]) d

namespace Course

theorem getLastD {x : Eval α} {m : Machine} {d e : Declared} {moments : List Moment}
    (course : Course x m d moments e) :
    moments.getLastD ⟨m.state, d⟩ = ⟨(x.final m).state, e⟩ := by
  induction course with
  | pure value m d => rfl
  | throw stop m d => rfl
  | query f m d => rw [final_query]; rfl
  | note record m d => rfl
  | print lines m d => rfl
  | refused d failed => rw [final_update, failed]; rfl
  | declare d changed => rw [final_update, changed]; rfl
  | assign d changed => rw [final_update, changed]; rfl
  | define d changed => rw [final_update, changed]; rfl
  | clock f m d => rfl
  | @bind α β x f m n value d e k first second _ ended _ one two =>
    rw [final_of_ok ended] at one
    have joined : (first ++ second).getLastD ⟨m.state, d⟩ =
        second.getLastD (first.getLastD ⟨m.state, d⟩) := by
      simp only [List.getLastD_eq_getLast?, List.getLast?_append, Option.getD_or]
    rw [joined, one, two, final, final, bind_of_ok ended]
  | stopped _ ended here =>
    rw [here, final_of_error ended, final_of_error (bind_of_error ended)]
  | frame _ _ => rw [List.getLastD_concat]
  | call _ _ => rw [List.getLastD_concat]

end Course

def HasCourse (x : Eval α) : Prop :=
  ∀ m names outer, ∃ moments names', Course x m (names :: outer) moments (names' :: outer)

namespace HasCourse

theorem bind {x : Eval α} {f : α → Eval β} (first : HasCourse x)
    (rest : ∀ value, HasCourse (f value)) : HasCourse (x >>= f) := by
  intro m names outer
  obtain ⟨moments, names', course⟩ := first m names outer
  cases ended : x m with
  | ok value n =>
    obtain ⟨more, last, onward⟩ := rest value n names' outer
    exact ⟨moments ++ more, last, course.bind ended onward⟩
  | error stop n => exact ⟨moments, names', course.stopped ended⟩

theorem query (f : State → Except RuntimeError α) : HasCourse (Eval.query f) :=
  fun m names _ => ⟨[], names, .query f m _⟩

theorem note (record : Record) : HasCourse (Eval.note record) :=
  fun m names _ => ⟨[], names, .note record m _⟩

theorem declare (name : String) (value : Value) : HasCourse (Eval.declare name value) := by
  have changed : HasCourse (update (·.declare name value)) := by
    intro m names outer
    cases result : m.state.declare name value with
    | error error => exact ⟨[], names, .refused _ result⟩
    | ok s =>
      have course := Course.declare (names :: outer) result
      cases inside : m.state.inFunction with
      | true =>
        rw [inside] at course
        exact ⟨_, name :: names, course⟩
      | false =>
        rw [inside] at course
        exact ⟨_, names, course⟩
  exact changed.bind fun _ => (query _).bind fun _ => note _

theorem assign (name : String) (value : Value) : HasCourse (update (·.assign name value)) := by
  intro m names outer
  cases result : m.state.assign name value with
  | error error => exact ⟨[], names, .refused _ result⟩
  | ok s => exact ⟨_, names, .assign _ result⟩

theorem define (name : String) (declaration : Declaration) :
    HasCourse (Eval.define name declaration) := by
  have changed : HasCourse (update (·.define name declaration)) := by
    intro m names outer
    cases result : m.state.define name declaration with
    | error error => exact ⟨[], names, .refused _ result⟩
    | ok s => exact ⟨_, names, .define _ result⟩
  exact changed.bind fun _ => note _

theorem withFrame {x : Eval α} (bindings : List (String × Value)) (body : HasCourse x) :
    HasCourse (Eval.withFrame bindings x) := by
  intro m names outer
  obtain ⟨moments, _, course⟩ :=
    body { m with state := m.state.openFrame bindings } [] (names :: outer)
  exact ⟨_, names, .frame course⟩

theorem withCall {x : Eval α} (bindings : List (String × Value)) (body : HasCourse x) :
    HasCourse (Eval.withCall bindings x) := by
  intro m names outer
  obtain ⟨moments, _, course⟩ :=
    body { m with state := m.state.openCall bindings } [] (names :: outer)
  exact ⟨_, names, .call course⟩

theorem closed : Closed (fun _ => True) (fun {_} x => HasCourse x) where
  child _ _ := trivial
  pure value m names _ := ⟨[], names, .pure value m _⟩
  bind := bind
  fail _ m names _ := ⟨[], names, .throw _ m _⟩
  unfinished m names _ := ⟨[], names, .throw _ m _⟩
  misplacedRange _ m names _ := ⟨[], names, .throw _ m _⟩
  hole _ m names _ := ⟨[], names, .throw _ m _⟩
  query := query
  declare value _ := declare _ value
  assign value _ _ := assign _ value
  define _ := define _ _
  callee := by
    intro name _ f _ builtin function unknown m names outer
    have known : HasCourse (f (m.state.callee name)) :=
      m.state.callee_cases (P := fun c => HasCourse (f c)) builtin
        (fun declaration _ => function declaration trivial) unknown
    obtain ⟨moments, names', course⟩ := known m names outer
    exact ⟨[] ++ moments, names', Course.bind (.query _ m _) rfl course⟩
  print lines m names _ := ⟨[], names, .print lines m _⟩
  clock f m names _ := ⟨_, names, .clock f m _⟩
  frame bindings body := withFrame bindings body
  call name bindings body := (query _).bind fun _ => (note _).bind fun _ => withCall bindings body

theorem evaluate (limits : Limits) (node : Node) : HasCourse (evaluate limits node) :=
  closed.evalNode limits.passes limits.nesting trivial

theorem execute (limits : Limits) (node : Node) : HasCourse (execute limits node) := by
  refine bind (closed.clock _) fun _ => (note _).bind fun _ => ?_
  refine (evaluate limits node).bind fun value => ?_
  exact (note _).bind fun _ => closed.pure value

end HasCourse

end Eval

/-- Each name declared in a frame is bound in that frame, is no global, and is bound in no frame
around it. -/
inductive Declared.Apart (globals : Table Value) : Declared → List (Table Value) → Prop where
  | nil : Apart globals [] []
  | cons {names : List String} {frame : Table Value} {outer : Declared}
    {around : List (Table Value)} :
    (∀ name ∈ names, name ∈ frame.keys ∧ name ∉ globals.keys ∧ ∀ f ∈ around, name ∉ f.keys) →
    Apart globals outer around → Apart globals (names :: outer) (frame :: around)

namespace Declared.Apart

variable {globals : Table Value} {d : Declared} {frames : List (Table Value)}

theorem of_keys (apart : Apart globals d frames) {globals' : Table Value}
    {frames' : List (Table Value)} (sameGlobals : globals'.keys = globals.keys)
    (sameFrames : frames'.map Table.keys = frames.map Table.keys) :
    Apart globals' d frames' := by
  induction apart generalizing frames' with
  | nil =>
    rw [List.map_nil, List.map_eq_nil_iff] at sameFrames
    subst sameFrames
    exact .nil
  | @cons names frame outer around here _ ih =>
    obtain ⟨frame', around', rfl, sameFrame, sameAround⟩ := List.map_eq_cons_iff.1 sameFrames
    refine .cons (fun name member => ?_) (ih sameAround)
    obtain ⟨bound, noGlobal, free⟩ := here name member
    refine ⟨sameFrame ▸ bound, sameGlobals ▸ noGlobal, fun f member' => ?_⟩
    have listed : f.keys ∈ around.map Table.keys := sameAround ▸ List.mem_map_of_mem member'
    obtain ⟨g, member'', same⟩ := List.mem_map.1 listed
    exact same ▸ free g member''

theorem insertGlobal (apart : Apart globals d frames) {name : String} (value : Value)
    (free : ∀ frame ∈ frames, name ∉ frame.keys) :
    Apart (globals.insert name value) d frames := by
  induction apart with
  | nil => exact .nil
  | @cons names frame outer around here _ ih =>
    obtain ⟨freeHere, freeAround⟩ := List.forall_mem_cons.1 free
    refine .cons (fun other member => ?_) (ih freeAround)
    obtain ⟨bound, noGlobal, apart⟩ := here other member
    refine ⟨bound, fun declared => ?_, apart⟩
    -- The new global is not bound in the frame, and the declared name is.
    obtain known | rfl := (globals.mem_keys_insert name other value).1 declared
    · exact noGlobal known
    · exact freeHere bound

theorem insertLocal {names : List String} {outer : Declared} {frame : Table Value}
    {around : List (Table Value)} (apart : Apart globals (names :: outer) (frame :: around))
    {name : String} (value : Value) (noGlobal : name ∉ globals.keys)
    (free : ∀ f ∈ around, name ∉ f.keys) :
    Apart globals ((name :: names) :: outer) (frame.insert name value :: around) := by
  cases apart with
  | cons here rest =>
    refine .cons (fun other member => ?_) rest
    rw [Table.mem_keys_insert]
    obtain rfl | member := List.mem_cons.1 member
    · exact ⟨.inr rfl, noGlobal, free⟩
    · obtain ⟨bound, apart⟩ := here other member
      exact ⟨.inl bound, apart⟩

theorem drop {s : Scope Value} {names : List String} (apart : Apart globals (names :: d) s.frames)
    (inhabited : d ≠ []) : Apart globals d s.drop.frames := by
  obtain ⟨frame, outer⟩ := s
  cases apart with
  | cons _ rest =>
    cases rest with
    | nil => contradiction
    | cons here below => exact .cons here below

end Declared.Apart

def Moment.Apart (moment : Moment) : Prop :=
  moment.declared.Apart moment.state.globals moment.state.locals.frames

namespace Moment.Apart

variable {s t : State} {d : Declared}

theorem inhabited (apart : Moment.Apart ⟨s, d⟩) : d ≠ [] := by
  rintro rfl
  cases apart

theorem of_keys (apart : Moment.Apart ⟨s, d⟩) (globals : t.globals.keys = s.globals.keys)
    (frames : t.locals.frames.map Table.keys = s.locals.frames.map Table.keys) :
    Moment.Apart ⟨t, d⟩ :=
  Declared.Apart.of_keys apart globals frames

theorem declare (apart : Moment.Apart ⟨s, d⟩) {name : String} {value : Value}
    (declared : s.declare name value = .ok t) :
    Moment.Apart ⟨t, d.note s.inFunction name⟩ := by
  obtain ⟨noGlobal, noLocal⟩ := State.free_of_declare declared
  have free : ∀ frame ∈ s.locals.frames, name ∉ frame.keys := by
    simpa [State.hasLocal, Scope.contains_eq_any, Table.contains_iff_mem] using noLocal
  obtain ⟨inside, rfl⟩ | ⟨outside, rfl⟩ := State.eq_of_declare declared
  · rw [s.inFunction_iff.2 inside]
    cases d with
    | nil => exact absurd rfl apart.inhabited
    | cons names outer =>
      refine Declared.Apart.insertLocal apart value ?_ (List.forall_mem_cons.1 free).2
      rw [← Table.contains_iff_mem]
      exact Bool.not_eq_true _ ▸ noGlobal
  · have top : s.inFunction = false := by
      rw [State.inFunction, outside]
      rfl
    rw [top]
    exact Declared.Apart.insertGlobal apart value free

theorem assign (apart : Moment.Apart ⟨s, d⟩) {name : String} {value : Value}
    (assigned : s.assign name value = .ok t) : Moment.Apart ⟨t, d⟩ := by
  obtain ⟨locals, replaced, rfl⟩ | ⟨⟨_, _, known⟩, rfl⟩ := State.eq_of_assign assigned
  · exact apart.of_keys rfl (Scope.keys_of_replaceIn (Scope.replaceIn_of_replace replaced))
  · exact apart.of_keys (Table.keys_insert_of_contains known value) rfl

theorem openFrame (apart : Moment.Apart ⟨s, d⟩) (bindings : List (String × Value)) :
    Moment.Apart ⟨s.openFrame bindings, [] :: d⟩ :=
  .cons (fun _ member => absurd member List.not_mem_nil) apart

theorem closeFrame {names : List String} (apart : Moment.Apart ⟨s, names :: d⟩)
    (inhabited : d ≠ []) : Moment.Apart ⟨s.closeFrame, d⟩ :=
  Declared.Apart.drop apart inhabited

end Moment.Apart

namespace Eval.Course

variable {α : Type} {x : Eval α} {m : Machine} {d e : Declared} {moments : List Moment}

theorem apart_final (course : Course x m d moments e) (start : Moment.Apart ⟨m.state, d⟩)
    (all : ∀ moment ∈ moments, moment.Apart) : Moment.Apart ⟨(x.final m).state, e⟩ := by
  have last : (⟨(x.final m).state, e⟩ : Moment) ∈ ⟨m.state, d⟩ :: moments := by
    rw [← course.getLastD]
    exact List.getLastD_mem_cons
  exact List.forall_mem_cons.2 ⟨start, all⟩ _ last

theorem apart_between {s closed : State} {names : List String}
    (course : Course x { m with state := s } ([] :: d) moments (names :: d))
    (opened : Moment.Apart ⟨s, [] :: d⟩) (all : ∀ moment ∈ moments, moment.Apart)
    (closes : Moment.Apart ⟨(x.final { m with state := s }).state, names :: d⟩ →
      Moment.Apart ⟨closed, d⟩) :
    ∀ moment ∈ ⟨s, [] :: d⟩ :: moments ++ [⟨closed, d⟩], moment.Apart := by
  have ended := closes (course.apart_final opened all)
  exact List.forall_mem_append.2
    ⟨List.forall_mem_cons.2 ⟨opened, all⟩, List.forall_mem_singleton.2 ended⟩

/-- If the declared names are apart from the rest at the start of a course, they are so at each of
its moments. -/
theorem apart (course : Course x m d moments e) (start : Moment.Apart ⟨m.state, d⟩) :
    ∀ moment ∈ moments, moment.Apart := by
  induction course with
  | pure => exact List.forall_mem_nil _
  | throw => exact List.forall_mem_nil _
  | query => exact List.forall_mem_nil _
  | note => exact List.forall_mem_nil _
  | print => exact List.forall_mem_nil _
  | refused => exact List.forall_mem_nil _
  | declare d changed => exact List.forall_mem_singleton.2 (start.declare changed)
  | assign d changed => exact List.forall_mem_singleton.2 (start.assign changed)
  | define d changed =>
    rw [List.forall_mem_singleton, State.eq_of_define changed]
    exact start
  | clock f m d => exact List.forall_mem_singleton.2 start
  | @bind α β x f m n value d e k first second course ended _ one two =>
    have all := one start
    have middle := course.apart_final start all
    rw [final_of_ok ended] at middle
    exact List.forall_mem_append.2 ⟨all, two middle⟩
  | stopped _ _ here => exact here start
  | @frame α x bindings m d names moments course inside =>
    have opened := start.openFrame bindings
    refine course.apart_between opened (inside opened) fun ended => ?_
    rw [withFrame, final_between]
    exact ended.closeFrame start.inhabited
  | @call α x bindings m d names moments course inside =>
    have opened : Moment.Apart ⟨m.state.openCall bindings, [] :: d⟩ := start.openFrame bindings
    refine course.apart_between opened (inside opened) fun ended => ?_
    rw [withCall, final_between]
    exact ended.closeFrame start.inhabited

end Eval.Course

/-- The states of a session, with what has been declared in the frames that are open: those of a
fresh one, those after a frame or a call was opened or closed or the time has changed, and those in
the course of any computation, be it an evaluation or a single change. -/
inductive State.Reached : Declared → State → Prop where
  | bare : Reached [[]] State.bare
  | initial : Reached [[]] State.initial
  | course {α : Type} {x : Eval α} {m : Machine} {d e : Declared} {moments : List Moment}
    {moment : Moment} : Reached d m.state → Eval.Course x m d moments e → moment ∈ moments →
    Reached moment.declared moment.state
  | openFrame {d : Declared} {s : State} (bindings : List (String × Value)) : Reached d s →
    Reached ([] :: d) (s.openFrame bindings)
  | closeFrame {names inner : List String} {outer : Declared} {s : State} :
    Reached (names :: inner :: outer) s → Reached (inner :: outer) s.closeFrame
  | openCall {d : Declared} {s : State} (bindings : List (String × Value)) : Reached d s →
    Reached ([] :: d) (s.openCall bindings)
  | closeCall {names inner : List String} {outer : Declared} {s : State} :
    Reached (names :: inner :: outer) s → Reached (inner :: outer) s.closeCall
  | clock {d : Declared} {s : State} (clock : Clock) : Reached d s → Reached d { s with clock }

theorem State.Reached.apart {d : Declared} {s : State} (reached : Reached d s) :
    Moment.Apart ⟨s, d⟩ := by
  have fresh : ∀ s : State, s.locals = Scope.empty → Moment.Apart ⟨s, [[]]⟩ := by
    intro s locals
    unfold Moment.Apart
    rw [locals]
    exact .cons (List.forall_mem_nil _) .nil
  induction reached with
  | bare => exact fresh State.bare rfl
  | initial => exact fresh State.initial rfl
  | course _ course member start => exact course.apart start _ member
  | openFrame bindings _ start => exact start.openFrame bindings
  | closeFrame _ start => exact start.closeFrame (List.cons_ne_nil _ _)
  | openCall bindings _ start => exact start.openFrame bindings
  | closeCall _ start => exact start.closeFrame (List.cons_ne_nil _ _)
  | clock _ _ start => exact start

/-- A declared variable never shadows. In every state of a session, at every moment of an
evaluation, a name that was declared in a frame that is still open is no global and is bound in no
frame around that one. Every evaluation and every execution has its course, a moment for each
change, of which the last is its end. A name that was declared among the globals was not in sight as
a local. -/
theorem reached_declared_apart :
    (∀ (d : Declared) (s : State), State.Reached d s → Moment.Apart ⟨s, d⟩) ∧
    (∀ (limits : Limits) (node : Node) (x : Eval Value),
      x = evaluate limits node ∨ x = execute limits node →
      ∀ (m : Machine) (names : List String) (outer : Declared), ∃ moments names',
        Eval.Course x m (names :: outer) moments (names' :: outer) ∧
        moments.getLastD ⟨m.state, names :: outer⟩ = ⟨(x.final m).state, names' :: outer⟩) ∧
    (∀ (s t : State) (name : String) (value : Value), s.depth = 0 →
      s.declare name value = .ok t → name ∈ t.globals.keys ∧ s.hasLocal name = false) := by
  refine ⟨fun d s reached => reached.apart, ?_, ?_⟩
  · intro limits node x request m names outer
    have courses : Eval.HasCourse x := by
      obtain rfl | rfl := request
      · exact .evaluate limits node
      · exact .execute limits node
    obtain ⟨moments, names', course⟩ := courses m names outer
    exact ⟨moments, names', course, course.getLastD⟩
  · intro s t name value top declared
    refine ⟨?_, (State.free_of_declare declared).2⟩
    obtain ⟨inside, _⟩ | ⟨_, rfl⟩ := State.eq_of_declare declared
    · omega
    · exact (Table.mem_keys_insert _ _ _ _).2 (.inr rfl)

theorem reached_declared_apart_call :
    (∃ t, ((State.initial.openFrame [("i", Value.zero)]).openCall [("pi", Value.zero)]).declare "b"
        Value.zero = .ok t ∧
      State.Reached [["b"], [], []] t ∧ Moment.Apart ⟨t, [["b"], [], []]⟩) ∧
    (∃ moments names', Eval.Course (evaluate Limits.standard (.declare "x" (.identifier "e")))
        (Machine.ofState State.initial) [[]] moments [names'] ∧
      moments.getLastD ⟨State.initial, [[]]⟩ =
        ⟨((evaluate Limits.standard (.declare "x" (.identifier "e"))).final
          (Machine.ofState State.initial)).state, [names']⟩) ∧
    (∃ t, State.initial.declare "x" Value.zero = .ok t ∧ "x" ∈ t.globals.keys ∧
      State.initial.hasLocal "x" = false) := by
  obtain ⟨apart, courses, outside⟩ := reached_declared_apart
  refine ⟨?_, courses _ _ _ (.inl rfl) _ _ _, ⟨_, rfl, outside _ _ _ _ rfl rfl⟩⟩
  have start : State.Reached [[], [], []]
      ((State.initial.openFrame [("i", Value.zero)]).openCall [("pi", Value.zero)]) :=
    .openCall _ (.openFrame _ .initial)
  obtain ⟨t, declared⟩ : ∃ t, ((State.initial.openFrame [("i", Value.zero)]).openCall
      [("pi", Value.zero)]).declare "b" Value.zero = .ok t := ⟨_, rfl⟩
  have reached : State.Reached [["b"], [], []] t :=
    .course (m := Machine.ofState _) start (.declare _ declared) (List.mem_singleton_self _)
  exact ⟨t, declared, reached, apart _ _ reached⟩

end Reckoner
