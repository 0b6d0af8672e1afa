import Reckoner.Proofs.Definedness

/-! Access to arrays. Reading an item, removing one and inserting one each check the index they are
given, and all accept the same: the real numbers that are a position in the array. Inserting and
then removing at a position gives the array back; removing and then inserting does too, except at
the last position, which the shorter array does not have. -/
namespace Reckoner

namespace Value

/-- The value is a real number, and equal to this natural number. Both zeros are zero. -/
def IsPosition (index : Value) (i : Nat) : Prop :=
  ∃ z : Number, index = .number z ∧ z.isReal = true ∧ z.re.isFinite = true ∧
    Double.exact z.re = i

theorem isPosition_real_iff (x : Float) (i : Nat) :
    (Value.real x).IsPosition i ↔ x.isFinite = true ∧ Double.exact x = i := by
  simp only [IsPosition, real, number.injEq, exists_eq_left', Number.isReal_real, true_and]
  rfl

def locate? (length : Nat) : Value → Option Nat
  | .number z => if z.isReal then position? length z.re else none
  | _ => none

def item (array index : Value) : Except RuntimeError Value := do
  let items ← array.expectArray "cannot index a non-array"
  let i ← index.expectReal "tried to index using non-number"
  itemAt items i

theorem exact_eq_natCast_iff (x : Float) (i : Nat) :
    Double.exact x = i ↔ (Double.exact x).den = 1 ∧ (Double.exact x).num = i := by
  constructor
  · intro same
    simp [same]
  · rintro ⟨unit, whole⟩
    exact Rat.ext (by simp [whole]) (by simp [unit])

theorem position?_eq_some_iff (length : Nat) (x : Float) (i : Nat) :
    position? length x = some i ↔ i < length ∧ x.isFinite = true ∧ Double.exact x = i := by
  rw [exact_eq_natCast_iff, position?]
  simp only [Double.isInteger_iff]
  split
  · next whole =>
    simp only [whole, true_and]
    split
    · simp only [Option.some.injEq]
      omega
    · simp only [reduceCtorEq, false_iff]
      omega
  · next broken =>
    simp only [reduceCtorEq, false_iff]
    exact fun found => broken ⟨found.2.1, found.2.2.1⟩

theorem locate?_eq_some_iff (length : Nat) (index : Value) (i : Nat) :
    index.locate? length = some i ↔ i < length ∧ index.IsPosition i := by
  cases index with
  | number z =>
    simp only [locate?, IsPosition, number.injEq, exists_eq_left', Option.ite_none_right_eq_some,
      position?_eq_some_iff]
    exact and_left_comm
  | vector v => simp [locate?, IsPosition]
  | array items => simp [locate?, IsPosition]

theorem IsPosition.locate? {index : Value} {i : Nat} (named : index.IsPosition i) (length : Nat) :
    index.locate? length = if i < length then some i else none := by
  split
  · next inside => exact (locate?_eq_some_iff ..).2 ⟨inside, named⟩
  · next outside =>
    cases found : index.locate? length with
    | none => rfl
    | some j =>
      obtain ⟨inside, z, rfl, -, -, same⟩ := (locate?_eq_some_iff ..).1 found
      obtain ⟨_, ⟨rfl⟩, -, -, also⟩ := named
      rw [exact_eq_natCast_iff] at same also
      omega

theorem item_eq (items : List Value) (index : Value) :
    match index.locate? items.length with
    | some i => ∃ entry, items[i]? = some entry ∧ item (.array items) index = .ok entry
    | none => ∃ error, item (.array items) index = .error error := by
  cases index with
  | vector v => exact ⟨_, rfl⟩
  | array others => exact ⟨_, rfl⟩
  | number z =>
    cases real : z.isReal with
    | false => simp [locate?, item, expectArray, expectReal, real, bind, Except.bind]
    | true =>
      have read : item (.array items) (.number z) = itemAt items z.re := by
        simp [item, expectArray, expectReal, real, bind, Except.bind]
      simp only [locate?, real, if_true, read]
      cases found : position? items.length z.re with
      | none =>
        cases integer : Double.isInteger z.re with
        | true => exact ⟨.indexRange items.length z.re, by simp [itemAt, integer, found]⟩
        | false => exact ⟨.nonIntegerIndex z.re, by simp [itemAt, integer]⟩
      | some i =>
        obtain ⟨inside, finite, same⟩ := (position?_eq_some_iff ..).1 found
        have integer : Double.isInteger z.re = true :=
          (Double.isInteger_iff z.re).2 ⟨finite, by simp [same]⟩
        have there : items[i]? = some items[i] := List.getElem?_eq_getElem inside
        exact ⟨items[i], there, by simp [itemAt, integer, found, there]⟩

end Value

namespace Builtin

open Value

def refusal (message signature : String) : Value → RuntimeError
  | .number z => if z.isReal then .builtinIndex signature z.re else .valueKind message
  | _ => .valueKind message

/-- An edit at an index is made where the index names a position, and is refused elsewhere. -/
theorem edit_eq (message signature : String) (items : List Value) (index : Value)
    (edit : Nat → List Value) :
    (do
      let x ← index.expectReal message
      let p ← position signature items x
      return Value.array (edit p)) =
      match index.locate? items.length with
      | some i => .ok (.array (edit i))
      | none => .error (refusal message signature index) := by
  cases index with
  | number z =>
    simp only [expectReal, locate?, refusal, position]
    split
    · cases found : position? items.length z.re <;>
        simp [found, bind, Except.bind, pure, Except.pure]
    · rfl
  | vector v => rfl
  | array others => rfl

theorem remove_eq (items : List Value) (index : Value) :
    remove (.array items) index = match index.locate? items.length with
      | some i => .ok (.array (items.take i ++ items.drop (i + 1)))
      | none => .error
        (refusal "expected a real number to index array with in rm(x, y)" "rm(x, y)" index) :=
  edit_eq _ _ items index fun i => items.take i ++ items.drop (i + 1)

theorem insert_eq (items : List Value) (index v : Value) :
    insert (.array items) index v = match index.locate? items.length with
      | some i => .ok (.array (items.take i ++ v :: items.drop i))
      | none => .error
        (refusal "expected a real number to index array with in ins(x, y, z)" "ins(x, y, z)"
          index) :=
  edit_eq _ _ items index fun i => items.take i ++ v :: items.drop i

end Builtin

namespace Value

variable {items : List Value} {i : Nat}

theorem memSizeAll_insert (items : List Value) (i : Nat) (v : Value) :
    memSizeAll (items.take i ++ v :: items.drop i) = memSizeAll items + v.memSize := by
  have whole := memSizeAll_append (items.take i) (items.drop i)
  rw [List.take_append_drop] at whole
  rw [memSizeAll_append, memSizeAll]
  omega

theorem memSizeAll_remove {entry : Value} (there : items[i]? = some entry) :
    memSizeAll (items.take i ++ items.drop (i + 1)) + entry.memSize = memSizeAll items := by
  obtain ⟨inside, rfl⟩ := List.getElem?_eq_some_iff.1 there
  have whole := memSizeAll_append (items.take i) (items.drop i)
  rw [List.take_append_drop, ← List.getElem_cons_drop inside, memSizeAll] at whole
  rw [memSizeAll_append]
  omega

theorem getElem?_remove (inside : i < items.length) (j : Nat) :
    (items.take i ++ items.drop (i + 1))[j]? = if j < i then items[j]? else items[j + 1]? := by
  grind

theorem getElem?_insert (inside : i < items.length) (v : Value) (j : Nat) :
    (items.take i ++ v :: items.drop i)[j]? =
      if j < i then items[j]? else if j = i then some v else items[j - 1]? := by
  grind

theorem exists_item_iff (items : List Value) (index : Value) :
    (∃ w, item (.array items) index = .ok w) ↔ ∃ i, i < items.length ∧ index.IsPosition i := by
  simp only [← locate?_eq_some_iff]
  have accepted := item_eq items index
  cases found : index.locate? items.length with
  | some i =>
    rw [found] at accepted
    obtain ⟨entry, -, read⟩ := accepted
    simp [read]
  | none =>
    rw [found] at accepted
    obtain ⟨error, failed⟩ := accepted
    simp [failed]

end Value

namespace Builtin

theorem exists_remove_iff (items : List Value) (index : Value) :
    (∃ w, remove (.array items) index = .ok w) ↔
      ∃ i, i < items.length ∧ index.IsPosition i := by
  simp only [← Value.locate?_eq_some_iff, remove_eq]
  cases index.locate? items.length <;> simp

theorem exists_insert_iff (items : List Value) (index v : Value) :
    (∃ w, insert (.array items) index v = .ok w) ↔
      ∃ i, i < items.length ∧ index.IsPosition i := by
  simp only [← Value.locate?_eq_some_iff, insert_eq]
  cases index.locate? items.length <;> simp

section Position

variable {items : List Value} {index : Value} {i : Nat} (named : index.IsPosition i)
include named

theorem remove_insert (inside : i < items.length) (v : Value) :
    remove (.array (items.take i ++ v :: items.drop i)) index = .ok (.array items) := by
  have long : i < (items.take i ++ v :: items.drop i).length := by
    simp
    omega
  have short : (items.take i).length = i := by
    simp
    omega
  have past : (items.take i ++ v :: items.drop i).drop (i + 1) = items.drop i := by
    rw [List.append_cons]
    exact List.drop_left' (by simp [short])
  rw [remove_eq, named.locate?, if_pos long]
  simp only [List.take_left' short, past, List.take_append_drop]

theorem insert_remove {entry : Value} (there : items[i]? = some entry) :
    insert (.array (items.take i ++ items.drop (i + 1))) index entry =
      if i < items.length - 1 then .ok (.array items)
      else .error (refusal "expected a real number to index array with in ins(x, y, z)"
        "ins(x, y, z)" index) := by
  obtain ⟨inside, rfl⟩ := List.getElem?_eq_some_iff.1 there
  have length : (items.take i ++ items.drop (i + 1)).length = items.length - 1 := by
    simp
    omega
  have short : (items.take i).length = i := by
    simp
    omega
  rw [insert_eq, named.locate?, length]
  by_cases more : i < items.length - 1
  · simp only [if_pos more, List.take_left' short, List.drop_left' short,
      List.getElem_cons_drop, List.take_append_drop]
  · simp only [if_neg more]

theorem refusal_eq (message signature : String) :
    ∃ x, Double.exact x = i ∧ refusal message signature index = .builtinIndex signature x := by
  obtain ⟨z, rfl, real, -, same⟩ := named
  exact ⟨z.re, same, if_pos real⟩

end Position

end Builtin

theorem evaluate_index_eq {passes nesting : Nat} {array position : Node} {items : List Value}
    {index : Value} {m n k : Machine}
    (first : evaluate ⟨nesting, passes⟩ array m = .ok (.array items) n)
    (second : evaluate ⟨nesting, passes⟩ position n = .ok index k) :
    evaluate ⟨nesting + 1, passes⟩ (.index array position) m =
      Eval.ofExcept (Value.item (.array items) index) k := by
  change (evaluate ⟨nesting, passes⟩ array >>= fun value =>
    Eval.ofExcept (value.expectArray "cannot index a non-array") >>= fun items =>
      Eval.evalReal (evaluate ⟨nesting, passes⟩) "tried to index using non-number" position
        >>= fun i => Eval.ofExcept (Value.itemAt items i)) m = _
  rw [Eval.bind_of_ok first]
  change ((evaluate ⟨nesting, passes⟩ position >>= fun value =>
    Eval.ofExcept (value.expectReal "tried to index using non-number")) >>= _) n = _
  rw [bind_assoc, Eval.bind_of_ok second, ← Eval.ofExcept_bind]
  rfl

/-- An item is read and removed at a position, and another one is inserted there. -/
structure EditedAt (elapsed : Float) (items : List Value) (index : Value) (i : Nat) (new : Value)
    (entry : Value) (removed inserted : List Value) : Prop where
  there : items[i]? = some entry
  read : Value.item (.array items) index = .ok entry
  remove : Builtin.rm.apply elapsed [.array items, index] = .ok (.array removed)
  removed_length : removed.length = items.length - 1
  removed_getElem? : ∀ j, removed[j]? = if j < i then items[j]? else items[j + 1]?
  removed_memSize : (Value.array removed).memSize + entry.memSize = (Value.array items).memSize
  insert : Builtin.ins.apply elapsed [.array items, index, new] = .ok (.array inserted)
  inserted_length : inserted.length = items.length + 1
  inserted_getElem? : ∀ j, inserted[j]? =
    if j < i then items[j]? else if j = i then some new else items[j - 1]?
  inserted_memSize : (Value.array inserted).memSize = (Value.array items).memSize + new.memSize
  undone : Builtin.rm.apply elapsed [.array inserted, index] = .ok (.array items)
  redone : i < items.length - 1 →
    Builtin.ins.apply elapsed [.array removed, index, entry] = .ok (.array items)
  last : i = items.length - 1 → ∃ x, Double.exact x = i ∧
    Builtin.ins.apply elapsed [.array removed, index, entry] =
      .error (.builtinIndex "ins(x, y, z)" x)

theorem editedAt_of_isPosition {items : List Value} {index : Value} {i : Nat}
    (inside : i < items.length) (named : index.IsPosition i) (elapsed : Float) (new : Value) :
    EditedAt elapsed items index i new items[i] (items.take i ++ items.drop (i + 1))
      (items.take i ++ new :: items.drop i) := by
  have there : items[i]? = some items[i] := List.getElem?_eq_getElem inside
  have found : index.locate? items.length = some i :=
    (Value.locate?_eq_some_iff ..).2 ⟨inside, named⟩
  have back := Builtin.insert_remove named there
  exact
    { there := there
      read := by
        have accepted := Value.item_eq items index
        rw [found] at accepted
        obtain ⟨entry, same, read⟩ := accepted
        rw [read, Option.some.inj (there.symm.trans same)]
      remove := by
        change Builtin.remove (.array items) index = _
        rw [Builtin.remove_eq, found]
      removed_length := by
        simp
        omega
      removed_getElem? := Value.getElem?_remove inside
      removed_memSize := by
        simp only [Value.memSize, ← Value.memSizeAll_remove there]
        omega
      insert := by
        change Builtin.insert (.array items) index new = _
        rw [Builtin.insert_eq, found]
      inserted_length := by
        simp
        omega
      inserted_getElem? := Value.getElem?_insert inside new
      inserted_memSize := by
        simp only [Value.memSize, Value.memSizeAll_insert]
        omega
      undone := Builtin.remove_insert named inside new
      redone := fun more => back.trans (if_pos more)
      last := by
        intro last
        obtain ⟨x, same, refused⟩ := Builtin.refusal_eq named
          "expected a real number to index array with in ins(x, y, z)" "ins(x, y, z)"
        refine ⟨x, same, back.trans ?_⟩
        rw [if_neg (by omega), refused] }

/-- Reading, removing and inserting accept the same indices: the positions in the array. -/
theorem array_access_agrees (items : List Value) (index : Value) (elapsed : Float) :
    (∀ passes nesting array position m n k,
      evaluate ⟨nesting, passes⟩ array m = .ok (.array items) n →
      evaluate ⟨nesting, passes⟩ position n = .ok index k →
        evaluate ⟨nesting + 1, passes⟩ (.index array position) m =
          Eval.ofExcept (Value.item (.array items) index) k) ∧
    ((∃ w, Value.item (.array items) index = .ok w) ↔
      ∃ i, i < items.length ∧ index.IsPosition i) ∧
    ((∃ w, Builtin.rm.apply elapsed [.array items, index] = .ok w) ↔
      ∃ i, i < items.length ∧ index.IsPosition i) ∧
    (∀ new, (∃ w, Builtin.ins.apply elapsed [.array items, index, new] = .ok w) ↔
      ∃ i, i < items.length ∧ index.IsPosition i) ∧
    (∀ i new, i < items.length → index.IsPosition i →
      ∃ entry removed inserted, EditedAt elapsed items index i new entry removed inserted) ∧
    ∀ new, ∃ sum, Operator.add.apply (.array items) new = .ok sum ∧
      sum.memSize = (Value.array items).memSize + new.memSize := by
  refine ⟨fun _ _ _ _ _ _ _ => evaluate_index_eq, Value.exists_item_iff items index,
    Builtin.exists_remove_iff items index, Builtin.exists_insert_iff items index,
    fun i new inside named => ⟨_, _, _, editedAt_of_isPosition inside named elapsed new⟩,
    fun new => ⟨.array (items ++ [new]), rfl, ?_⟩⟩
  simp only [Value.memSize, Value.memSizeAll_append, Value.memSizeAll]
  omega

theorem array_access_agrees_positions :
    let items := [Value.real 1.0, Value.real 2.0, Value.real 3.0]
    let array : Node := .array [.number 1.0 false, .number 2.0 false, .number 3.0 false]
    let m := Machine.ofState State.initial
    (Value.real (-0.0)).IsPosition 0 ∧ (Value.real 1.0).IsPosition 1 ∧
      (Value.real 2.0).IsPosition 2 ∧
      (∃ entry removed inserted,
        EditedAt 0.0 items (Value.real (-0.0)) 0 Value.zero entry removed inserted ∧
        Builtin.ins.apply 0.0 [.array removed, Value.real (-0.0), entry] = .ok (.array items)) ∧
      (∃ entry removed inserted,
        EditedAt 0.0 items (Value.real 1.0) 1 Value.zero entry removed inserted ∧
        Builtin.ins.apply 0.0 [.array removed, Value.real 1.0, entry] = .ok (.array items)) ∧
      (∃ entry removed inserted x,
        EditedAt 0.0 items (Value.real 2.0) 2 Value.zero entry removed inserted ∧
        Builtin.ins.apply 0.0 [.array removed, Value.real 2.0, entry] =
          .error (.builtinIndex "ins(x, y, z)" x)) ∧
      evaluate ⟨3, 9⟩ (.index array (.number 1.0 false)) m = .ok (Value.real 2.0) m := by
  intro items array m
  have zero : (Value.real (-0.0)).IsPosition 0 :=
    (Value.isPosition_real_iff _ _).2 (by decide +kernel)
  have one : (Value.real 1.0).IsPosition 1 :=
    (Value.isPosition_real_iff _ _).2 (by decide +kernel)
  have two : (Value.real 2.0).IsPosition 2 :=
    (Value.isPosition_real_iff _ _).2 (by decide +kernel)
  have edited (index : Value) := (array_access_agrees items index 0.0).2.2.2.2.1
  obtain ⟨_, _, _, atFirst⟩ := edited (Value.real (-0.0)) 0 Value.zero (by decide) zero
  obtain ⟨_, _, _, atInner⟩ := edited (Value.real 1.0) 1 Value.zero (by decide) one
  obtain ⟨_, _, _, atLast⟩ := edited (Value.real 2.0) 2 Value.zero (by decide) two
  obtain ⟨x, -, refused⟩ := atLast.last rfl
  have read := (array_access_agrees items (Value.real 1.0) 0.0).1
  have found : Value.item (.array items) (Value.real 1.0) = .ok (Value.real 2.0) :=
    atInner.read.trans (congrArg _ (Option.some.inj (atInner.there.symm.trans rfl)))
  refine ⟨zero, one, two, ⟨_, _, _, atFirst, atFirst.redone (by decide)⟩,
    ⟨_, _, _, atInner, atInner.redone (by decide)⟩, ⟨_, _, _, x, atLast, refused⟩, ?_⟩
  rw [read 9 2 array (.number 1.0 false) m m m rfl rfl, found]
  rfl

end Reckoner
