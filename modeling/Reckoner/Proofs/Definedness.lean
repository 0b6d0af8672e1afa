import Mathlib.Algebra.Group.Nat.Defs
import Reckoner.Proofs.Effect
import Reckoner.Proofs.Store

/-! The partial operations of an evaluation: the entry of a table under a name, the item of a list
at a position, the integer part of a double, the double nearest to an integer, the arguments that a
builtin reads. `Partial.evalNode` uses each of them as it stands, after the checks that the language
makes and no others, and leaves open what comes of an operation without a result. It is the same
evaluation whatever that is: the checks that are made leave no operation without one. -/
namespace Reckoner

/-- Why an operation has no result. -/
inductive Fault where
  | missingKey
  | missingItem
  | noInteger
  | tooLarge
deriving DecidableEq, Repr

namespace Double

def integer? (x : Float) : Option Int :=
  if x.isFinite then some ((exact x).num.tdiv (exact x).den) else none

/-- The first natural number that no finite double is nearest to. -/
def overflowBound : Nat := 2 ^ 1024 - 2 ^ 970

def ofNat? (n : Nat) : Option Float :=
  if n < overflowBound then some (Float.ofNat n) else none

theorem isInteger_iff (x : Float) :
    isInteger x = true ↔ x.isFinite = true ∧ (exact x).den = 1 := by
  simp [isInteger]

theorem integer?_of_isInteger {x : Float} (whole : isInteger x = true) :
    integer? x = some (exact x).num := by
  obtain ⟨finite, unit⟩ := (isInteger_iff x).1 whole
  rw [integer?, if_pos finite, unit]
  simp

end Double

namespace Value

def Outside (length : Nat) (index : Float) : Prop :=
  Double.exact index < 0 ∨ (length : Rat) ≤ Double.exact index

instance (length : Nat) (index : Float) : Decidable (Outside length index) :=
  inferInstanceAs (Decidable (_ ∨ _))

theorem outside_iff {index : Float} (whole : Double.isInteger index = true) (length : Nat) :
    Outside length index ↔
      (Double.exact index).num < 0 ∨ (length : Int) ≤ (Double.exact index).num := by
  have unit := ((Double.isInteger_iff index).1 whole).2
  rw [Outside, Rat.lt_iff, Rat.le_iff, unit]
  simp

theorem position?_eq (length : Nat) (index : Float) :
    position? length index =
      if Double.isInteger index = false ∨ Outside length index then none
      else some (Double.exact index).num.toNat := by
  rw [position?]
  cases whole : Double.isInteger index with
  | false => rfl
  | true =>
    simp only [outside_iff whole, if_true, Bool.true_eq_false, false_or]
    split
    · next inside => rw [if_neg (by omega)]
    · next outside => rw [if_pos (by omega)]

end Value

namespace Number

theorem natFactorial_le {n m : Nat} (le : n ≤ m) : natFactorial n ≤ natFactorial m := by
  induction le with
  | refl => exact Nat.le_refl _
  | @step m _ ih =>
    rw [natFactorial]
    exact Nat.le_trans ih (Nat.le_mul_of_pos_left _ m.succ_pos)

theorem ofNat?_natFactorial {n : Nat} (small : n ≤ largestFactorial) :
    Double.ofNat? (natFactorial n) = some (Float.ofNat (natFactorial n)) := by
  have largest : natFactorial largestFactorial < Double.overflowBound := by decide +kernel
  exact if_pos (Nat.lt_of_le_of_lt (natFactorial_le small) largest)

end Number

namespace Eval

theorem query_eq_bind {α : Type} (f : State → Except RuntimeError α) :
    query f = query .ok >>= fun s => ofExcept (f s) := by
  funext m
  change query f m = ofExcept (f m.state) m
  unfold query
  cases f m.state <;> rfl

theorem ofExcept_bind {α β : Type} (x : Except RuntimeError α)
    (f : α → Except RuntimeError β) :
    ofExcept (x >>= f) = ofExcept x >>= fun value => ofExcept (f value) := by
  cases x <;> rfl

end Eval

namespace Partial

open Eval

variable {α : Type} (undefined : (α : Type) → Fault → Eval α)

def expect (fault : Fault) : Option α → Eval α
  | some value => pure value
  | none => undefined α fault

@[simp] theorem expect_some (fault : Fault) (value : α) :
    expect undefined fault (some value) = pure value := rfl

def item (items : List α) : (position : Int) → Eval α
  | .ofNat i => expect undefined .missingItem items[i]?
  | .negSucc _ => undefined α .missingItem

def lookup (name : String) : Eval Value := do
  let s ← query .ok
  match s.locals.find? name with
  | some distance =>
    let frame ← expect undefined .missingItem s.locals.frames[distance]?
    expect undefined .missingKey (frame.get? name)
  | none =>
    if s.hasGlobal name then expect undefined .missingKey (s.globals.get? name)
    else fail (.unknownVariable name)

def applyOperator (operator : Operator) (left right : Value) : Eval Value := do
  let known ← expect undefined .missingKey (Operator.ofSymbol? operator.symbol)
  ofExcept (known.apply left right)

def assign (name : String) (value : Value) : Eval Unit := do
  let s ← query .ok
  if s.hasLocal name then
    let locals ← expect undefined .missingKey (s.locals.replace name value).toOption
    modifyState fun s => { s with locals }
  else if s.hasGlobal name then
    if s.inFunction then fail (.externalMutation name)
    else modifyState fun s => { s with globals := s.globals.insert name value }
  else fail (.undefinedAssignment name)

def assignAll (value : Value) : List String → Eval Unit
  | [] => pure ()
  | name :: rest => do
    assign undefined name value
    assignAll value rest

def numberFactorial (z : Number) : Eval Number :=
  if z.isReal && 0.0 < z.re && Double.isInteger z.re then do
    let n ← expect undefined .noInteger (Double.integer? z.re)
    if Number.largestFactorial < n then return Number.real Double.infinity
    else
      let product ← expect undefined .tooLarge (Double.ofNat? (Number.natFactorial n.toNat))
      return Number.real product
  else pure z.factorial

def factorial (value : Value) : Eval Value := do
  let z ← ofExcept (value.expectNumber "attempted to find factorial of non-number")
  let w ← numberFactorial undefined z
  return .number w

def itemAt (items : List Value) (index : Float) : Eval Value :=
  if Double.isInteger index = false then fail (.nonIntegerIndex index)
  else if Value.Outside items.length index then
    fail (.indexRange (Int.ofNat items.length) index)
  else do
    let i ← expect undefined .noInteger (Double.integer? index)
    item undefined items i

def position (signature : String) (items : List Value) (index : Float) : Eval Nat :=
  if Double.isInteger index = false ∨ Value.Outside items.length index then
    fail (.builtinIndex signature index)
  else do
    let i ← expect undefined .noInteger (Double.integer? index)
    return i.toNat

def remove (array index : Value) : Eval Value := do
  let items ← ofExcept (array.expectArray "expected an array to remove value from")
  let i ← ofExcept (index.expectReal "expected a real number to index array with in rm(x, y)")
  let p ← position undefined "rm(x, y)" items i
  return .array (items.take p ++ items.drop (p + 1))

def insert (array index new : Value) : Eval Value := do
  let items ← ofExcept (array.expectArray "expected an array to insert value into")
  let i ← ofExcept (index.expectReal "expected a real number to index array with in ins(x, y, z)")
  let p ← position undefined "ins(x, y, z)" items i
  return .array (items.take p ++ new :: items.drop p)

/-- A builtin that complains about the number of its arguments has looked for one that is not
there. -/
def applyBuiltin (elapsed : Float) : Builtin → List Value → Eval Value
  | .rm, [array, index] => remove undefined array index
  | .ins, [array, index, new] => insert undefined array index new
  -- `len` and `mem` count one by one, and never get as far as a number too large for a double.
  | builtin, arguments =>
    match builtin.apply elapsed arguments with
    | .error (.arity _ _ _) => undefined Value .missingItem
    | result => ofExcept result

def runBuiltin (builtin : Builtin) (arguments : List Value) : Eval Value := do
  print (builtin.printed arguments)
  let s ← query .ok
  let value ← applyBuiltin undefined s.clock.elapsed builtin arguments
  passTime builtin
  return value

variable (eval : Node → Eval Value)

def call (name : String) (arguments : List Node) : Eval Value := do
  let s ← query .ok
  if s.hasFunction name then
    match s.builtin? name with
    | some builtin =>
      if arguments.length = builtin.arity then
        let values ← evalAll eval arguments
        runBuiltin undefined builtin values
      else fail (.arity name (Int.ofNat builtin.arity) (Int.ofNat arguments.length))
    | none =>
      let declaration ← expect undefined .missingKey (s.functions.get? name)
      invoke eval name arguments (.function declaration)
  else fail (.unknownFunction name)

def block (nodes : List Node) : Eval Value :=
  if nodes.isEmpty then pure Value.zero
  else do
    let last ← expect undefined .missingItem nodes.getLast?
    if last.isDeclaration then fail .blockShape
    else withFrame [] (evalSequence eval Value.zero nodes)

def step (passes : Nat) : Node → Eval Value
  | .identifier name => lookup undefined name
  | .operation left operator right => do
    let a ← eval left
    let b ← eval right
    applyOperator undefined operator a b
  | .call name arguments => call undefined eval name arguments
  | .assign targets expression => do
    let value ← eval expression
    assignAll undefined value targets
    return value
  | .factorial expression => do
    let value ← eval expression
    factorial undefined value
  | .block nodes => block undefined eval nodes
  | .index array position => do
    let value ← eval array
    let items ← ofExcept (value.expectArray "cannot index a non-array")
    let i ← evalReal eval "tried to index using non-number" position
    itemAt undefined items i
  | node => Eval.step eval passes node

def evalNode (passes : Nat) : (nesting : Nat) → Node → Eval Value
  | 0, _ => fail .recursionLimit
  | nesting + 1, node => step undefined (evalNode passes nesting) passes node

/-! Each operation has a result where it is used. -/

theorem lookup_eq (name : String) : lookup undefined name = query (·.lookup name) := by
  rw [query_eq_bind]
  refine bind_congr fun s => ?_
  cases found : s.locals.find? name with
  | some distance =>
    obtain ⟨frame, value, there, known, same⟩ := Scope.get?_of_find? found
    simp only [there, expect_some, pure_bind, known, State.lookup, State.binding?, same]
    rfl
  | none =>
    have noLocal : s.locals.get? name = none := by
      simpa [Scope.contains, found] using Scope.isSome_get? s.locals name
    simp only [State.lookup, State.binding?, noLocal, State.hasGlobal, ← Table.isSome_get?]
    cases s.globals.get? name <;> rfl

theorem applyOperator_eq (operator : Operator) (left right : Value) :
    applyOperator undefined operator left right = ofExcept (operator.apply left right) := by
  rw [applyOperator, Operator.ofSymbol?_symbol]
  rfl

theorem assign_eq (name : String) (value : Value) :
    assign undefined name value = update (·.assign name value) := by
  funext m
  have here : (query .ok : Eval State) m = .ok m.state m := rfl
  rw [assign, bind_of_ok here]
  cases present : m.state.hasLocal name with
  | true =>
    obtain ⟨locals, replaced⟩ := Scope.exists_replace present value
    simp only [if_true, update, State.assign, replaced]
    rfl
  | false =>
    simp only [Bool.false_eq_true, if_false, update, State.assign,
      Scope.replace_of_not_contains present value]
    cases m.state.hasGlobal name with
    | false => rfl
    | true => cases m.state.inFunction <;> rfl

theorem assignAll_eq (value : Value) (names : List String) :
    assignAll undefined value names = Eval.assignAll value names := by
  induction names with
  | nil => rfl
  | cons name rest ih => rw [assignAll, Eval.assignAll, assign_eq, ih]

theorem numberFactorial_eq (z : Number) : numberFactorial undefined z = pure z.factorial := by
  unfold numberFactorial Number.factorial
  split
  · next integral =>
    have whole : Double.isInteger z.re = true := (Bool.and_eq_true _ _ ▸ integral).2
    rw [Double.integer?_of_isInteger whole]
    change (if (Number.largestFactorial : Int) < (Double.exact z.re).num then _ else _) = _
    rw [Number.integerFactorial]
    split
    · next large => rw [if_pos (by omega)]
    · next small =>
      have le : (Double.exact z.re).num.toNat ≤ Number.largestFactorial := by omega
      rw [if_neg (by omega), Number.ofNat?_natFactorial le]
      rfl
  · rfl

theorem factorial_eq (value : Value) : factorial undefined value = ofExcept value.factorial := by
  simp only [factorial, Value.factorial, numberFactorial_eq]
  cases value.expectNumber "attempted to find factorial of non-number" <;> rfl

theorem item_eq {items : List α} {i : Int} (low : 0 ≤ i) (high : i < items.length) :
    ∃ value, items[i.toNat]? = some value ∧ item undefined items i = pure value := by
  obtain ⟨n, rfl⟩ := Int.eq_ofNat_of_zero_le low
  have there : items[n]? = some items[n] := List.getElem?_eq_getElem (by omega)
  refine ⟨items[n], there, ?_⟩
  change expect undefined .missingItem items[n]? = _
  rw [there]
  rfl

theorem itemAt_eq (items : List Value) (index : Float) :
    itemAt undefined items index = ofExcept (Value.itemAt items index) := by
  rw [itemAt, Value.itemAt, Value.position?_eq]
  cases whole : Double.isInteger index with
  | false => rfl
  | true =>
    simp only [Bool.true_eq_false, if_false, if_true, false_or]
    split
    · rfl
    · next inside =>
      rw [Value.outside_iff whole] at inside
      have low : 0 ≤ (Double.exact index).num := by omega
      have high : (Double.exact index).num < items.length := by omega
      obtain ⟨value, there, same⟩ := item_eq undefined low high
      simp only [Double.integer?_of_isInteger whole, Option.bind_some, there]
      exact same

theorem position_eq (signature : String) (items : List Value) (index : Float) :
    position undefined signature items index =
      ofExcept (Builtin.position signature items index) := by
  rw [position, Builtin.position, Value.position?_eq]
  split
  · rfl
  · next inside =>
    have whole : Double.isInteger index = true := by simpa using (not_or.1 inside).1
    rw [Double.integer?_of_isInteger whole]
    rfl

theorem remove_eq (array index : Value) :
    remove undefined array index = ofExcept (Builtin.remove array index) := by
  simp only [remove, Builtin.remove, position_eq, ofExcept_bind]
  rfl

theorem insert_eq (array index new : Value) :
    insert undefined array index new = ofExcept (Builtin.insert array index new) := by
  simp only [insert, Builtin.insert, position_eq, ofExcept_bind]
  rfl

theorem applyBuiltin_eq {builtin : Builtin} {arguments : List Value} (elapsed : Float)
    (sized : arguments.length = builtin.arity) :
    applyBuiltin undefined elapsed builtin arguments =
      ofExcept (builtin.apply elapsed arguments) := by
  unfold applyBuiltin
  split
  · exact remove_eq undefined _ _
  · exact insert_eq undefined _ _ _
  · split
    · next failed =>
      -- A builtin finds all arguments that it reads, when there are as many as it takes.
      have counted : FailsOnly
          (fun error => ∀ name expected supplied, error ≠ .arity name expected supplied)
          (builtin.apply elapsed arguments) :=
        .apply (fun _ => nofun) (fun _ _ => nofun) elapsed sized
      exact absurd rfl (counted _ failed _ _ _)
    · rfl

theorem runBuiltin_eq {builtin : Builtin} {arguments : List Value}
    (sized : arguments.length = builtin.arity) :
    runBuiltin undefined builtin arguments = Eval.runBuiltin builtin arguments := by
  simp only [runBuiltin, Eval.runBuiltin, applyBuiltin_eq undefined _ sized,
    query_eq_bind fun s => builtin.apply s.clock.elapsed arguments, bind_assoc]

-- With fewer arguments than it takes, a builtin does look for one that is not there.
example : applyBuiltin undefined 0.0 .vec [Value.zero] = undefined Value .missingItem := rfl

theorem evalAll_bind_congr {eval : Node → Eval Value} {nodes : List Node}
    {f g : List Value → Eval α}
    (same : ∀ values, values.length = nodes.length → f values = g values) :
    evalAll eval nodes >>= f = evalAll eval nodes >>= g := by
  funext m
  cases evaluated : evalAll eval nodes m with
  | ok values n =>
    have sized := length_of_evalAll evaluated
    rw [bind_of_ok evaluated, bind_of_ok evaluated, same values sized]
  | error stop n => rw [bind_of_error evaluated, bind_of_error evaluated]

theorem call_eq (name : String) (arguments : List Node) :
    call undefined eval name arguments = evalCall eval name arguments := by
  refine bind_congr fun s => ?_
  rw [State.hasFunction, ← Table.isSome_get?]
  cases s.builtin? name with
  | some builtin =>
    simp only [Option.isSome_some, Bool.or_true, if_true]
    split
    · next counted =>
      -- There are as many values as arguments, so the check of the latter is one of the former.
      refine evalAll_bind_congr fun values sized => ?_
      exact runBuiltin_eq undefined (sized.trans counted)
    · rfl
  | none => cases s.functions.get? name <;> rfl

theorem block_eq (nodes : List Node) : block undefined eval nodes = evalBlock eval nodes := by
  cases nodes with
  | nil => rfl
  | cons node rest =>
    rw [block, evalBlock, List.getLast?_cons]
    rfl

theorem step_eq (passes : Nat) (node : Node) :
    step undefined eval passes node = Eval.step eval passes node := by
  cases node with
  | identifier name => exact lookup_eq undefined name
  | operation left operator right => simp only [step, Eval.step, applyOperator_eq]
  | call name arguments => exact call_eq undefined eval name arguments
  | assign targets expression => simp only [step, Eval.step, assignAll_eq]
  | factorial expression => simp only [step, Eval.step, factorial_eq]
  | block nodes => exact block_eq undefined eval nodes
  | index array position => simp only [step, Eval.step, itemAt_eq]
  | _ => rfl

theorem evalNode_eq (passes nesting : Nat) (node : Node) :
    evalNode undefined passes nesting node = Eval.evalNode passes nesting node := by
  induction nesting generalizing node with
  | zero => rfl
  | succ nesting ih =>
    have same : evalNode undefined passes nesting = Eval.evalNode passes nesting := funext ih
    rw [evalNode, Eval.evalNode, same, step_eq]

end Partial

end Reckoner
