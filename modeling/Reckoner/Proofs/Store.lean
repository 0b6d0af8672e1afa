import Reckoner.State

/-! What each change of a table, a chain of frames or a state does, said once: every change that
succeeds has one of a few shapes, and later proofs look at these shapes only. -/
namespace Reckoner

namespace Table

variable {α : Type}

theorem get?_insert (t : Table α) (key other : String) (value : α) :
    (t.insert key value).get? other = if other = key then some value else t.get? other := by
  split
  · next same => rw [same, get?_insert_self]
  · next apart => exact t.get?_insert_of_ne value apart

theorem keys_prefix_insert (t : Table α) (key : String) (value : α) :
    t.keys <+: (t.insert key value).keys := by
  rw [keys_insert]
  split
  · exact List.prefix_refl _
  · exact List.prefix_append _ _

theorem keys_insert_of_contains {t : Table α} {key : String} (present : t.contains key = true)
    (value : α) : (t.insert key value).keys = t.keys := by
  rw [keys_insert, if_pos present]

theorem contains_eq_of_get?_eq {t u : Table α} {key : String} (same : t.get? key = u.get? key) :
    t.contains key = u.contains key := by
  rw [← isSome_get?, ← isSome_get?, same]

theorem eq_empty_of_keys {t : Table α} (none : t.keys = []) : t = empty := by
  obtain ⟨entries⟩ := t
  exact congrArg Table.mk (List.map_eq_nil_iff.1 none)

theorem mem_keys_insert (t : Table α) (key other : String) (value : α) :
    other ∈ (t.insert key value).keys ↔ other ∈ t.keys ∨ other = key := by
  rw [keys_insert]
  split
  · next present =>
    rw [contains_iff_mem] at present
    constructor
    · exact Or.inl
    · rintro (member | rfl)
      · exact member
      · exact present
  · simp

theorem mem_keys_ofList (bindings : List (String × α)) (key : String) :
    key ∈ (ofList bindings).keys ↔ key ∈ bindings.map Prod.fst := by
  have from_table : ∀ t : Table α,
      key ∈ (bindings.foldl (fun t binding => t.insert binding.1 binding.2) t).keys ↔
        key ∈ t.keys ∨ key ∈ bindings.map Prod.fst := by
    induction bindings with
    | nil => simp
    | cons binding rest ih =>
      intro t
      rw [List.foldl_cons, ih, mem_keys_insert, List.map_cons, List.mem_cons, or_assoc]
  have empty_keys : key ∉ (empty : Table α).keys := List.not_mem_nil
  rw [ofList, from_table, or_iff_right empty_keys]

end Table

namespace Scope

variable {α : Type}

theorem get?_eq (s : Scope α) (key : String) :
    s.get? key = (s.frame.get? key).or (s.outer.findSome? fun frame => frame.get? key) := by
  rw [get?, frames, List.findSome?_cons]
  cases s.frame.get? key <;> rfl

theorem contains_eq_any (s : Scope α) (key : String) :
    s.contains key = s.frames.any fun frame => frame.contains key := by
  rw [contains, find?, List.findIdx?_isSome]

theorem mem_keys (s : Scope α) (key : String) : key ∈ s.keys ↔ s.contains key = true := by
  simp [keys, contains_eq_any, Table.contains_iff_mem, List.mem_eraseDups]

theorem get?_eq_none_of_not_mem {s : Scope α} {key : String} (absent : key ∉ s.keys) :
    s.get? key = none := by
  rw [mem_keys, ← isSome_get?] at absent
  simpa using absent

theorem get?_of_find? {s : Scope α} {key : String} {distance : Nat}
    (found : s.find? key = some distance) :
    ∃ frame value, s.frames[distance]? = some frame ∧ frame.get? key = some value ∧
      s.get? key = some value := by
  unfold find? at found
  unfold get?
  generalize s.frames = frames at found ⊢
  induction frames generalizing distance with
  | nil => contradiction
  | cons frame rest ih =>
    rw [List.findIdx?_cons] at found
    rw [List.findSome?_cons]
    cases present : frame.contains key with
    | true =>
      rw [present] at found
      cases found
      rw [← Table.isSome_get?] at present
      obtain ⟨value, known⟩ := Option.isSome_iff_exists.1 present
      exact ⟨frame, value, rfl, known, by rw [known]⟩
    | false =>
      simp only [present, Bool.false_eq_true, if_false] at found
      obtain ⟨below, foundBelow, rfl⟩ := Option.map_eq_some_iff.1 found
      have unknown : frame.get? key = none := by
        simpa [present] using Table.isSome_get? frame key
      rw [unknown]
      exact ih foundBelow

theorem get?_set (s : Scope α) (key other : String) (value : α) :
    (s.set key value).get? other = if other = key then some value else s.get? other := by
  rw [get?_eq, get?_eq, set, Table.get?_insert]
  split <;> rfl

theorem contains_eq_of_get?_eq {s t : Scope α} {key : String} (same : s.get? key = t.get? key) :
    s.contains key = t.contains key := by
  rw [← isSome_get?, ← isSome_get?, same]

theorem keys_of_replaceIn {key : String} {value : α} {frames changed : List (Table α)}
    (replaced : replaceIn key value frames = some changed) :
    changed.map Table.keys = frames.map Table.keys := by
  induction frames generalizing changed with
  | nil => contradiction
  | cons frame rest ih =>
    rw [replaceIn] at replaced
    split at replaced
    · next present =>
      cases replaced
      rw [List.map_cons, List.map_cons, Table.keys_insert_of_contains present]
    · obtain ⟨below, found, rfl⟩ := Option.map_eq_some_iff.1 replaced
      rw [List.map_cons, List.map_cons, ih found]

theorem findSome?_of_replaceIn {key : String} {value : α} {frames changed : List (Table α)}
    (replaced : replaceIn key value frames = some changed) (other : String) :
    (changed.findSome? fun frame => frame.get? other) =
      if other = key then some value else frames.findSome? fun frame => frame.get? other := by
  induction frames generalizing changed with
  | nil => contradiction
  | cons frame rest ih =>
    rw [replaceIn] at replaced
    split at replaced
    · cases replaced
      rw [List.findSome?_cons, List.findSome?_cons, Table.get?_insert]
      by_cases same : other = key
      · rw [if_pos same, if_pos same]
      · rw [if_neg same, if_neg same]
    · next absent =>
      obtain ⟨below, found, rfl⟩ := Option.map_eq_some_iff.1 replaced
      rw [List.findSome?_cons, List.findSome?_cons, ih found]
      by_cases same : other = key
      · have missing : frame.get? key = none := by
          rw [Table.get?_eq_none_iff, ← Table.contains_iff_mem]
          exact absent
        rw [if_pos same, if_pos same, same, missing]
      · rw [if_neg same, if_neg same]

theorem replaceIn_eq_none_iff (key : String) (value : α) (frames : List (Table α)) :
    replaceIn key value frames = none ↔ (frames.any fun frame => frame.contains key) = false := by
  induction frames with
  | nil => simp [replaceIn]
  | cons frame rest ih =>
    rw [replaceIn, List.any_cons]
    cases frame.contains key with
    | true => simp
    | false => simpa using ih

theorem replace_eq (s : Scope α) (key : String) (value : α) :
    s.replace key value = match replaceIn key value s.frames with
      | some (frame :: outer) => .ok ⟨frame, outer⟩
      | _ => .error ⟨some key⟩ := by
  rw [replace, frames, replaceIn]
  split
  · rfl
  · cases replaceIn key value s.outer <;> rfl

theorem replaceIn_of_replace {s t : Scope α} {key : String} {value : α}
    (replaced : s.replace key value = .ok t) : replaceIn key value s.frames = some t.frames := by
  rw [replace_eq] at replaced
  split at replaced
  · next found =>
    cases replaced
    exact found
  · contradiction

theorem replace_of_not_contains {s : Scope α} {key : String} (absent : s.contains key = false)
    (value : α) : s.replace key value = .error ⟨some key⟩ := by
  rw [contains_eq_any, ← replaceIn_eq_none_iff key value] at absent
  rw [replace_eq, absent]

theorem exists_replace {s : Scope α} {key : String} (present : s.contains key = true)
    (value : α) : ∃ t, s.replace key value = .ok t := by
  rw [replace]
  split
  · exact ⟨_, rfl⟩
  · next absent =>
    cases found : replaceIn key value s.outer with
    | some outer => exact ⟨_, rfl⟩
    | none =>
      rw [replaceIn_eq_none_iff] at found
      rw [contains_eq_any, frames, List.any_cons, found] at present
      simp [absent] at present

theorem keys_of_replace {s t : Scope α} {key : String} {value : α}
    (replaced : s.replace key value = .ok t) :
    t.frame.keys = s.frame.keys ∧ t.outer.map Table.keys = s.outer.map Table.keys :=
  List.cons_eq_cons.1 (keys_of_replaceIn (replaceIn_of_replace replaced))

theorem get?_of_replace {s t : Scope α} {key : String} {value : α}
    (replaced : s.replace key value = .ok t) (other : String) :
    t.get? other = if other = key then some value else s.get? other :=
  findSome?_of_replaceIn (replaceIn_of_replace replaced) other

/-! A chain opened by one frame over another chain. -/

theorem get?_cons (frame : Table α) (s : Scope α) (key : String) :
    (⟨frame, s.frames⟩ : Scope α).get? key = (frame.get? key).or (s.get? key) :=
  get?_eq _ key

theorem contains_cons (frame : Table α) (s : Scope α) (key : String) :
    (⟨frame, s.frames⟩ : Scope α).contains key = (frame.contains key || s.contains key) := by
  rw [contains_eq_any, contains_eq_any, frames, List.any_cons]

theorem replace_cons {frame : Table α} {key : String} (absent : frame.contains key = false)
    {s t : Scope α} {value : α} (replaced : s.replace key value = .ok t) :
    (⟨frame, s.frames⟩ : Scope α).replace key value = .ok ⟨frame, t.frames⟩ := by
  simp only [replace, absent, replaceIn_of_replace replaced, Bool.false_eq_true, if_false]

end Scope

namespace State

theorem declare_eq (s : State) (name : String) (value : Value) :
    s.declare name value =
      if s.hasGlobal name || s.hasLocal name then .error (.variableRedeclared name)
      else if s.inFunction then .ok { s with locals := s.locals.set name value }
      else .ok { s with globals := s.globals.insert name value } := by
  rw [declare, checkFree]
  cases s.hasGlobal name || s.hasLocal name with
  | true => rfl
  | false => cases s.inFunction <;> rfl

theorem inFunction_iff (s : State) : s.inFunction = true ↔ 0 < s.depth := by
  rw [inFunction, decide_eq_true_iff]

theorem eq_of_declare {s t : State} {name : String} {value : Value}
    (declared : s.declare name value = .ok t) :
    (0 < s.depth ∧ t = { s with locals := s.locals.set name value }) ∨
      (s.depth = 0 ∧ t = { s with globals := s.globals.insert name value }) := by
  rw [declare_eq] at declared
  split at declared
  · contradiction
  · split at declared
    · next inside =>
      cases declared
      exact .inl ⟨s.inFunction_iff.1 inside, rfl⟩
    · next outside =>
      cases declared
      rw [inFunction_iff] at outside
      exact .inr ⟨by omega, rfl⟩

theorem free_of_declare {s t : State} {name : String} {value : Value}
    (declared : s.declare name value = .ok t) :
    s.hasGlobal name = false ∧ s.hasLocal name = false := by
  rw [declare_eq] at declared
  split at declared
  · contradiction
  · next free => simpa using free

theorem eq_of_assign {s t : State} {name : String} {value : Value}
    (assigned : s.assign name value = .ok t) :
    (∃ locals, s.locals.replace name value = .ok locals ∧ t = { s with locals }) ∨
      ((s.depth = 0 ∧ s.hasLocal name = false ∧ s.hasGlobal name = true) ∧
        t = { s with globals := s.globals.insert name value }) := by
  rw [assign] at assigned
  split at assigned
  · next locals replaced =>
    cases assigned
    exact .inl ⟨locals, replaced, rfl⟩
  · next missing failed =>
    have absent : s.hasLocal name = false := by
      cases present : s.hasLocal name with
      | false => rfl
      | true =>
        obtain ⟨locals, replaced⟩ := Scope.exists_replace present value
        rw [replaced] at failed
        contradiction
    split at assigned
    · contradiction
    · next known =>
      split at assigned
      · contradiction
      · next outside =>
        cases assigned
        rw [inFunction_iff] at outside
        exact .inr ⟨⟨by omega, absent, by simpa using known⟩, rfl⟩

theorem eq_of_define {s t : State} {name : String} {declaration : Declaration}
    (defined : s.define name declaration = .ok t) :
    t = { s with functions := s.functions.insert name declaration } := by
  rw [define] at defined
  split at defined
  · contradiction
  · cases defined
    rfl

theorem free_of_define {s t : State} {name : String} {declaration : Declaration}
    (defined : s.define name declaration = .ok t) :
    s.functions.contains name = false ∧ s.builtin? name = none := by
  rw [define] at defined
  split at defined
  · contradiction
  · next free => simpa [hasFunction] using free

end State

end Reckoner
