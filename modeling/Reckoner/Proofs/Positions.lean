import Reckoner.Proofs.Program

/-! Loops and the lists of their positions. The positions of a loop are known before its first pass:
from the first bound on by steps, for as long as the next position is short of the second bound, and
then that bound itself. Running the loop is folding its passes over this list, each on the machine
that the pass before it left. -/
namespace Reckoner

section Walk

variable (move : Float → Float) (short : Float → Bool) (stop : Float)

/-- `position`, `move position`, `move (move position)` and so on, for as long as the next of these
is short of the end, and then `stop`. No more than `count` positions before `stop` are listed. -/
def walk : (count : Nat) → (position : Float) → List Float
  | 0, _ => []
  | count + 1, position =>
    position :: if short (move position) then walk count (move position) else [stop]

def walkEnds : (count : Nat) → (position : Float) → Bool
  | 0, _ => false
  | count + 1, position => !short (move position) || walkEnds count (move position)

theorem walk_eq_append (count : Nat) {position : Float} (start : short position = true) :
    ∃ earlier : List Float, (∀ p ∈ earlier, short p = true) ∧
      (walkEnds move short count position = true → earlier.head? = some position) ∧
      walk move short stop count position =
        earlier ++ if walkEnds move short count position then [stop] else [] := by
  induction count generalizing position with
  | zero => exact ⟨[], by simp, by simp [walkEnds], by simp [walk, walkEnds]⟩
  | succ count ih =>
    cases next : short (move position) with
    | false => exact ⟨[position], by simpa using start, by simp, by simp [walk, walkEnds, next]⟩
    | true =>
      obtain ⟨earlier, before, -, rest⟩ := ih next
      refine ⟨position :: earlier, ?_, by simp, ?_⟩
      · exact List.forall_mem_cons.2 ⟨start, before⟩
      · simp [walk, walkEnds, next, rest]

variable {move short stop}

theorem walk_of_walkEnds {count more : Nat} (le : count ≤ more) {position : Float}
    (ends : walkEnds move short count position = true) :
    walkEnds move short more position = true ∧
      walk move short stop more position = walk move short stop count position := by
  induction count generalizing more position with
  | zero => contradiction
  | succ count ih =>
    obtain ⟨more, rfl⟩ : ∃ fewer, more = fewer + 1 := ⟨more - 1, by omega⟩
    cases next : short (move position) with
    | false => simp [walk, walkEnds, next]
    | true =>
      have onward : walkEnds move short count (move position) = true := by
        simpa [walkEnds, next] using ends
      obtain ⟨ends', same⟩ := ih (Nat.le_of_succ_le_succ le) onward
      simp [walk, walkEnds, next, ends', same]

theorem walk_prefix {count more : Nat} (le : count ≤ more) (position : Float) :
    walk move short stop count position <+: walk move short stop more position := by
  induction count generalizing more position with
  | zero => exact List.nil_prefix
  | succ count ih =>
    obtain ⟨more, rfl⟩ : ∃ fewer, more = fewer + 1 := ⟨more - 1, by omega⟩
    rw [walk, walk, List.cons_prefix_cons]
    refine ⟨rfl, ?_⟩
    split
    · exact ih (by omega) _
    · exact List.prefix_refl _

end Walk

namespace Bounds

/-- The positions of a loop in order, but no more than `count` of those before the last. There are
none if neither bound is below the other. -/
def positions (b : Bounds) (count : Nat) : List Float :=
  if b.first < b.second then walk (· + b.step) (· < b.second) b.second count b.first
  else if b.first > b.second then walk (· - b.step) (· > b.second) b.second count b.first
  else []

def complete (b : Bounds) (count : Nat) : Bool :=
  if b.first < b.second then walkEnds (· + b.step) (· < b.second) count b.first
  else if b.first > b.second then walkEnds (· - b.step) (· > b.second) count b.first
  else true

variable (b : Bounds)

theorem walk_up (up : b.first < b.second) :
    b.short = (fun position => decide (position < b.second)) ∧
      b.next = fun position => position + b.step := by
  constructor <;> funext position <;> simp [short, next, ascending, up]

theorem walk_down (down : ¬b.first < b.second) :
    b.short = (fun position => decide (position > b.second)) ∧
      b.next = fun position => position - b.step := by
  constructor <;> funext position <;> simp [short, next, ascending, down]

theorem positions_eq (count : Nat) : b.positions count =
    if b.short b.first then walk b.next b.short b.second count b.first else [] := by
  unfold positions
  split
  · next up => simp [b.walk_up up, up]
  · next down => simp [b.walk_down down]

theorem complete_eq (count : Nat) : b.complete count =
    if b.short b.first then walkEnds b.next b.short count b.first else true := by
  unfold complete
  split
  · next up => simp [b.walk_up up, up]
  · next down => simp [b.walk_down down]

variable {b}

theorem positions_prefix {count more : Nat} (le : count ≤ more) :
    b.positions count <+: b.positions more := by
  rw [positions_eq, positions_eq]
  split
  · exact walk_prefix le _
  · exact List.prefix_refl _

theorem positions_of_complete {count more : Nat} (le : count ≤ more)
    (all : b.complete count = true) :
    b.complete more = true ∧ b.positions more = b.positions count := by
  rw [complete_eq] at all
  rw [complete_eq, positions_eq, positions_eq]
  split
  · next apart =>
    rw [if_pos apart] at all
    exact walk_of_walkEnds le all
  · exact ⟨rfl, rfl⟩

theorem positions_eq_append (count : Nat) (apart : b.first < b.second ∨ b.first > b.second) :
    ∃ earlier : List Float,
      (∀ p ∈ earlier, (b.first < b.second ∧ p < b.second) ∨
        (b.first > b.second ∧ p > b.second)) ∧
      (b.complete count = true → earlier.head? = some b.first) ∧
      b.positions count = earlier ++ if b.complete count then [b.second] else [] := by
  by_cases up : b.first < b.second
  · obtain ⟨earlier, before, rest⟩ :=
      walk_eq_append (· + b.step) (· < b.second) b.second count (decide_eq_true up)
    simp only [complete, positions, if_pos up]
    exact ⟨earlier, fun p member => .inl ⟨up, of_decide_eq_true (before p member)⟩, rest⟩
  · have down : b.first > b.second := apart.resolve_left up
    obtain ⟨earlier, before, rest⟩ :=
      walk_eq_append (· - b.step) (· > b.second) b.second count (decide_eq_true down)
    simp only [complete, positions, if_neg up, if_pos down]
    exact ⟨earlier, fun p member => .inr ⟨down, of_decide_eq_true (before p member)⟩, rest⟩

end Bounds

namespace Eval

def visit (eval : Node → Eval Value) (counter : String) (body : Node) (total : Value)
    (position : Float) : Eval Value := do
  let value ← withFrame [(counter, Value.real position)] (eval body)
  ofExcept (Operator.add.apply total value)

/-- A loop as a fold over its positions, in the first `count` of which it has to end. -/
def visitLoop (eval : Node → Eval Value) (counter : String) (first second step body : Node)
    (count : Nat) : Eval Value := do
  let a ← evalReal eval "the first bound must be a real number" first
  let b ← evalReal eval "the second bound must be a real number" second
  let s ← evalReal eval "the step must be a number" step
  if s == 0.0 then fail .zeroStep
  else
    let bounds : Bounds := ⟨a, b, s.abs⟩
    let total ← (bounds.positions count).foldlM (visit eval counter body) Value.zero
    if bounds.complete count then return total else throw .unfinished

theorem between_bind_ofExcept {α β : Type} (opening closing : State → State) (x : Eval α)
    (f : α → Except RuntimeError β) :
    between opening closing (x >>= fun value => ofExcept (f value)) =
      between opening closing x >>= fun value => ofExcept (f value) := by
  funext m
  cases ended : x { m with state := opening m.state } with
  | ok value n =>
    have inside : between opening closing x m = .ok value { n with state := closing n.state } := by
      rw [between, ended]
    rw [bind_of_ok inside, between, bind_of_ok ended]
    cases f value <;> rfl
  | error stop n =>
    have inside : between opening closing x m =
        .error stop { n with state := closing n.state } := by
      rw [between, ended]
    rw [bind_of_error inside, between, bind_of_error ended]

theorem evalPass_eq (eval : Node → Eval Value) (counter : String) (body : Node) :
    evalPass eval counter body = fun position total => visit eval counter body total position := by
  funext position total
  unfold evalPass visit withFrame
  exact between_bind_ofExcept _ _ _ _

theorem runPasses_eq (b : Bounds) (pass : Value → Float → Eval Value) (passes : Nat)
    (position : Float) (total : Value) :
    runPasses b (fun p t => pass t p) passes position total =
      ((walk b.next b.short b.second passes position).foldlM pass total >>= fun total =>
        if walkEnds b.next b.short passes position then pure total else throw .unfinished) := by
  induction passes generalizing position total with
  | zero => simp [runPasses, walk, walkEnds]
  | succ passes ih =>
    rw [runPasses, walk, walkEnds]
    cases next : b.short (b.next position) with
    | true => simp [ih]
    | false => simp

theorem runLoop_eq (b : Bounds) (pass : Value → Float → Eval Value) (passes : Nat) :
    runLoop b (fun p t => pass t p) passes =
      ((b.positions passes).foldlM pass Value.zero >>= fun total =>
        if b.complete passes then pure total else throw .unfinished) := by
  rw [runLoop, Bounds.positions_eq, Bounds.complete_eq]
  split
  · exact runPasses_eq b pass passes b.first Value.zero
  · simp

theorem step_loop_eq (eval : Node → Eval Value) (passes : Nat) (counter : String)
    (first second step body : Node) :
    Eval.step eval passes (.loop counter first second step body) =
      visitLoop eval counter first second step body passes := by
  simp only [Eval.step, evalBounds, visitLoop, bind_assoc, evalPass_eq, runLoop_eq]
  refine bind_congr fun a => bind_congr fun b => bind_congr fun s => ?_
  unfold Bounds.ofStep
  split <;> rfl

theorem bind_eq_of_ends {α β : Type} {x : Eval α} {f g : α → Eval β}
    (same : ∀ value n, (f value).Ends n → g value n = f value n) {m : Machine}
    (ends : (x >>= f).Ends m) : (x >>= g) m = (x >>= f) m := by
  cases ended : x m with
  | ok value n =>
    rw [bind_of_ok ended, bind_of_ok ended]
    refine same value n fun k cutOff => ends k ?_
    rw [bind_of_ok ended, cutOff]
  | error stop n => rw [bind_of_error ended, bind_of_error ended]

theorem foldlM_positions_of_ends {b : Bounds} {pass : Value → Float → Eval Value}
    {count more : Nat} (le : count ≤ more) {m : Machine}
    (ends : ((b.positions count).foldlM pass Value.zero >>= fun total =>
      if b.complete count then pure total else throw .unfinished).Ends m) :
    ((b.positions more).foldlM pass Value.zero >>= fun total =>
        if b.complete more then pure total else throw .unfinished) m =
      ((b.positions count).foldlM pass Value.zero >>= fun total =>
        if b.complete count then pure total else throw .unfinished) m := by
  cases all : b.complete count with
  | true =>
    obtain ⟨all', same⟩ := Bounds.positions_of_complete le all
    rw [all', same]
  | false =>
    -- Not all positions were visited, so the fold has failed at one of those that were.
    obtain ⟨rest, more_eq⟩ := Bounds.positions_prefix (b := b) le
    rw [← more_eq, List.foldlM_append, bind_assoc]
    cases visited : (b.positions count).foldlM pass Value.zero m with
    | ok total n =>
      refine absurd ?_ (ends n)
      rw [bind_of_ok visited, all]
      rfl
    | error stop n => rw [bind_of_error visited, bind_of_error visited]

theorem visitLoop_of_ends {eval : Node → Eval Value} {counter : String}
    {first second step body : Node} {count more : Nat} (le : count ≤ more) {m : Machine}
    (ends : (visitLoop eval counter first second step body count).Ends m) :
    visitLoop eval counter first second step body more m =
      visitLoop eval counter first second step body count m := by
  refine bind_eq_of_ends (fun a k ends => ?_) ends
  refine bind_eq_of_ends (fun b k ends => ?_) ends
  refine bind_eq_of_ends (fun s k ends => ?_) ends
  dsimp only at ends ⊢
  split
  · rfl
  · next nonzero =>
    rw [if_neg nonzero] at ends
    exact foldlM_positions_of_ends le ends

end Eval

/-- A loop is the fold of its passes over the positions of its bounds, which are evaluated first and
in order; up to the limit on passes, and if the loop ends, over all its positions. These depend on
the bounds and on nothing that a pass does. If the bounds lie apart, the last position is the second
bound, and all before it are strictly on the side of the first bound, which is the first of them. -/
theorem evaluate_loop_visits :
    (∀ (nesting passes : Nat) (counter : String) (first second step body : Node),
      evaluate ⟨nesting + 1, passes⟩ (.loop counter first second step body) =
        Eval.visitLoop (evaluate ⟨nesting, passes⟩) counter first second step body passes) ∧
    (∀ (nesting passes count : Nat) (counter : String) (first second step body : Node)
      (m : Machine),
      (evaluate ⟨nesting + 1, passes⟩ (.loop counter first second step body)).Ends m →
      passes ≤ count →
      evaluate ⟨nesting + 1, passes⟩ (.loop counter first second step body) m =
        Eval.visitLoop (evaluate ⟨nesting, passes⟩) counter first second step body count m) ∧
    (∀ (b : Bounds) (count : Nat), b.first < b.second ∨ b.first > b.second →
      ∃ earlier : List Float,
        (∀ p ∈ earlier, (b.first < b.second ∧ p < b.second) ∨
          (b.first > b.second ∧ p > b.second)) ∧
        (b.complete count = true → earlier.head? = some b.first) ∧
        b.positions count = earlier ++ if b.complete count then [b.second] else []) := by
  have whole (nesting passes : Nat) (counter : String) (first second step body : Node) :
      evaluate ⟨nesting + 1, passes⟩ (.loop counter first second step body) =
        Eval.visitLoop (evaluate ⟨nesting, passes⟩) counter first second step body passes :=
    Eval.step_loop_eq _ passes counter first second step body
  refine ⟨whole, ?_, fun b count apart => Bounds.positions_eq_append count apart⟩
  intro nesting passes count counter first second step body m ends le
  rw [whole] at ends ⊢
  exact (Eval.visitLoop_of_ends le ends).symm

set_option maxRecDepth 2000 in
/-- A loop whose step is negative and does not divide the way between the bounds, with a body that
assigns the counter. -/
theorem evaluate_loop_visits_assigned :
    let body : Node := .assign ["i"] (.number 10.0 false)
    let number (x : Float) : Node := .number x false
    let step := number (-0.75)
    let b : Bounds := ⟨1.0, 2.0, 0.75⟩
    let m := Machine.ofState State.initial
    b.positions 99 = [1.0, 1.75, 2.0] ∧
      (∃ earlier : List Float, (∀ p ∈ earlier, (b.first < b.second ∧ p < b.second) ∨
        (b.first > b.second ∧ p > b.second)) ∧ b.positions 99 = earlier ++ [b.second]) ∧
      ∃ n, evaluate ⟨400, 9⟩ (.loop "i" (number 1.0) (number 2.0) step body) m =
          .ok (Value.real 30.0) n ∧
        Eval.visitLoop (evaluate ⟨399, 9⟩) "i" (number 1.0) (number 2.0) step body 99 m =
          .ok (Value.real 30.0) n := by
  intro body number step b m
  obtain ⟨-, ending, sides⟩ := evaluate_loop_visits
  obtain ⟨earlier, before, -, all⟩ := sides b 99 (.inl (by decide +kernel))
  have listed : b.positions 99 = [1.0, 1.75, 2.0] := by decide +kernel
  have complete : b.complete 99 = true := by decide +kernel
  rw [if_pos complete] at all
  obtain ⟨n, value⟩ : ∃ n, evaluate ⟨400, 9⟩
      (.loop "i" (number 1.0) (number 2.0) step body) m = .ok (Value.real 30.0) n :=
    ⟨_, rfl⟩
  have ends : (evaluate ⟨400, 9⟩
      (.loop "i" (number 1.0) (number 2.0) step body)).Ends m := by
    intro k cutOff
    rw [value] at cutOff
    contradiction
  refine ⟨listed, ⟨earlier, before, all⟩, n, value, ?_⟩
  exact (ending 399 9 99 "i" _ _ _ body m ends (by decide)).symm.trans value

end Reckoner
