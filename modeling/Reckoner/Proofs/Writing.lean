import Reckoner.Proofs.Iteration

/-! Writing to a chain of frames. Reading walks outward and erasing does not, so an operation that
reads a name before it erases it can fail half way. Each operation is given as the sequence of
single accesses that it makes, which keeps what was done before a failure, and that sequence is
shown to be all or nothing. Only a replacement reaches a frame around the innermost one, where it
changes one value; emptying a chain takes the bindings of the innermost frame one by one and then
stops. -/
namespace Reckoner

namespace Table

variable {α : Type}

theorem exists_entry {t : Table α} {key : String} (present : t.contains key = true) :
    ∃ before old after, t = ⟨before ++ (key, old) :: after⟩ := by
  rw [contains_iff_mem, keys, List.mem_map] at present
  obtain ⟨⟨name, old⟩, member, rfl⟩ := present
  obtain ⟨before, after, split⟩ := List.append_of_mem member
  exact ⟨before, old, after, congrArg Table.mk split⟩

section Entry

variable (before after : List (String × α)) {key : String} {old : α}

theorem contains_entry : (⟨before ++ (key, old) :: after⟩ : Table α).contains key = true := by
  simp [contains, keys]

theorem ne_of_nodup (distinct : (⟨before ++ (key, old) :: after⟩ : Table α).keys.Nodup) :
    (∀ entry ∈ before, entry.1 ≠ key) ∧ ∀ entry ∈ after, entry.1 ≠ key := by
  simp only [keys, List.map_append, List.map_cons, List.nodup_append, List.nodup_cons] at distinct
  obtain ⟨-, ⟨later, -⟩, apart⟩ := distinct
  constructor
  · intro entry member
    exact apart entry.1 (List.mem_map_of_mem member) key List.mem_cons_self
  · rintro entry member rfl
    exact later (List.mem_map_of_mem member)

theorem erase_entry (distinct : (⟨before ++ (key, old) :: after⟩ : Table α).keys.Nodup) :
    (⟨before ++ (key, old) :: after⟩ : Table α).erase key = ⟨before ++ after⟩ := by
  obtain ⟨earlier, later⟩ := ne_of_nodup before after distinct
  have first : before.filter (fun entry => entry.1 ≠ key) = before := by
    simpa using earlier
  have last : after.filter (fun entry => entry.1 ≠ key) = after := by
    simpa using later
  simp only [erase, List.filter_append, first, List.filter_cons, last]
  simp

theorem insert_entry (distinct : (⟨before ++ (key, old) :: after⟩ : Table α).keys.Nodup)
    (value : α) :
    (⟨before ++ (key, old) :: after⟩ : Table α).insert key value =
      ⟨before ++ (key, value) :: after⟩ := by
  obtain ⟨earlier, later⟩ := ne_of_nodup before after distinct
  have kept {entries : List (String × α)} (apart : ∀ entry ∈ entries, entry.1 ≠ key) :
      (entries.map fun entry => if entry.1 = key then (key, value) else entry) = entries := by
    conv_rhs => rw [← List.map_id entries]
    exact List.map_congr_left fun entry member => if_neg (apart entry member)
  rw [insert, if_pos (contains_entry before after)]
  simp [kept earlier, kept later]

theorem get?_entry (distinct : (⟨before ++ (key, old) :: after⟩ : Table α).keys.Nodup) :
    (⟨before ++ (key, old) :: after⟩ : Table α).get? key = some old := by
  have unchanged := insert_entry before after distinct old
  rw [← unchanged, get?_insert_self]

end Entry

end Table

namespace Scope

variable {α β : Type}

abbrev Access (α β : Type) := EStateM MissingKey (Scope α) β

namespace Access

variable {γ : Type}

def query (f : Scope α → Except MissingKey β) : Access α β := fun s =>
  match f s with
  | .ok value => .ok value s
  | .error missing => .error missing s

/-- A change that is made as a whole, or fails and leaves the chain as it is. -/
def attempt (f : Scope α → Except MissingKey (β × Scope α)) : Access α β := fun s =>
  match f s with
  | .ok (value, t) => .ok value t
  | .error missing => .error missing s

theorem attempt_eq_ok_iff {f : Scope α → Except MissingKey (β × Scope α)} {s t : Scope α}
    {value : β} : attempt f s = .ok value t ↔ f s = .ok (value, t) := by
  unfold attempt
  cases f s <;> simp [Prod.ext_iff]

theorem attempt_eq_error_iff {f : Scope α → Except MissingKey (β × Scope α)} {s t : Scope α}
    {missing : MissingKey} : attempt f s = .error missing t ↔ f s = .error missing ∧ s = t := by
  unfold attempt
  cases f s <;> simp

theorem attempt_map (f : Scope α → Except MissingKey (β × Scope α)) (g : β → γ) :
    (do return g (← attempt f)) = attempt fun s => (f s).map (Prod.map g id) := by
  funext s
  change EStateM.bind (attempt f) _ s = _
  simp only [EStateM.bind, attempt]
  cases f s <;> rfl

theorem query_bind_attempt (f : Scope α → Except MissingKey β)
    (g : β → Scope α → Except MissingKey (γ × Scope α)) :
    (query f >>= fun value => attempt (g value)) =
      attempt fun s => f s >>= fun value => g value s := by
  funext s
  change EStateM.bind (query f) _ s = _
  simp only [EStateM.bind, query, attempt]
  cases f s <;> rfl

def read (key : String) : Access α α :=
  query fun s => (s.get? key).elim (.error ⟨some key⟩) .ok

def write (key : String) (value : α) : Access α Unit :=
  attempt fun s => .ok ((), s.set key value)

def delete (key : String) : Access α Unit :=
  attempt fun s => (s.remove key).map fun t => ((), t)

def first : Access α String :=
  query fun s => s.keys.head?.elim (.error ⟨none⟩) .ok

def find (key : String) : Access α Nat :=
  query fun s => (s.find? key).elim (.error ⟨some key⟩) .ok

def writeAt (distance : Nat) (key : String) (value : α) : Access α Unit :=
  attempt fun s => .ok ((), match distance with
    | 0 => s.set key value
    | outward + 1 => { s with outer := s.outer.modify outward (·.insert key value) })

def replace (key : String) (value : α) : Access α Unit := do
  let distance ← find key
  writeAt distance key value

def take (key : String) : Access α α := do
  let value ← read key
  delete key
  return value

def takeFirst : Access α (String × α) := do
  let key ← first
  let value ← take key
  return (key, value)

def getOrSet (key : String) (value : α) : Access α α :=
  tryCatch (read key) fun _ => do
    write key value
    return value

theorem take_eq (key : String) : take (α := α) key = attempt fun s => s.take key := by
  simp only [take, read, delete, attempt_map, query_bind_attempt]
  congr 1
  funext s
  rw [Scope.take]
  cases s.get? key with
  | none => rfl
  | some value => cases s.remove key <;> rfl

theorem takeFirst_eq : takeFirst (α := α) = attempt Scope.takeFirst := by
  simp only [takeFirst, first, take_eq, attempt_map, query_bind_attempt]
  congr 1
  funext s
  rw [Scope.takeFirst]
  cases s.keys.head? <;> rfl

theorem getOrSet_eq (key : String) (value : α) :
    getOrSet key value = attempt fun s => .ok (s.getOrSet key value) := by
  funext s
  change EStateM.tryCatch (read key) _ s = _
  simp only [EStateM.tryCatch, read, query, attempt, Scope.getOrSet]
  cases s.get? key <;> rfl

theorem replaceIn_eq_modify (key : String) (value : α) (frames : List (Table α)) :
    replaceIn key value frames =
      (frames.findIdx? (·.contains key)).map fun distance =>
        frames.modify distance (·.insert key value) := by
  induction frames with
  | nil => rfl
  | cons frame rest ih =>
    rw [replaceIn, List.findIdx?_cons, ih]
    cases frame.contains key with
    | true => rfl
    | false => cases rest.findIdx? (·.contains key) <;> rfl

theorem replace_eq (key : String) (value : α) :
    replace key value = attempt fun s => (s.replace key value).map fun t => ((), t) := by
  simp only [replace, find, writeAt, query_bind_attempt]
  congr 1
  funext s
  rw [Scope.replace_eq, replaceIn_eq_modify, find?]
  cases s.frames.findIdx? (·.contains key) with
  | none => rfl
  | some distance => cases distance <;> rfl

end Access

namespace Operation

def result (s : Scope α) : Operation α → Except MissingKey (Scope α)
  | set key value => .ok (s.set key value)
  | remove key => s.remove key
  | replace key value => s.replace key value
  | take key => (s.take key).map Prod.snd
  | takeFirst => s.takeFirst.map Prod.snd
  | clear => .ok s.clear
  | getOrSet key value => .ok (s.getOrSet key value).2

/-- The accesses that an operation makes. How `clear` goes on and ends is said by `Clears`. -/
def perform : Operation α → Access α Unit
  | set key value => Access.write key value
  | remove key => Access.delete key
  | replace key value => Access.replace key value
  | take key => do let _ ← Access.take key
  | takeFirst => do let _ ← Access.takeFirst
  | clear => Access.attempt fun s => .ok ((), s.clear)
  | getOrSet key value => do let _ ← Access.getOrSet key value

theorem perform_eq (operation : Operation α) (s : Scope α) :
    operation.perform s = match operation.result s with
      | .ok t => .ok () t
      | .error missing => .error missing s := by
  cases operation with
  | set key value => rfl
  | remove key =>
    simp only [perform, Access.delete, Access.attempt, result]
    cases s.remove key <;> rfl
  | replace key value =>
    simp only [perform, Access.replace_eq, Access.attempt, result]
    cases s.replace key value <;> rfl
  | take key =>
    simp only [perform, Access.take_eq, Access.attempt_map, Access.attempt, result]
    cases s.take key <;> rfl
  | takeFirst =>
    simp only [perform, Access.takeFirst_eq, Access.attempt_map, Access.attempt, result]
    cases s.takeFirst <;> rfl
  | clear => rfl
  | getOrSet key value =>
    simp only [perform, Access.getOrSet_eq, Access.attempt_map]
    rfl

end Operation

/-- First bindings are taken, these in turn, until that fails. -/
inductive Clears : Scope α → List (String × α) → Scope α → Prop where
  | done {s t : Scope α} {missing : MissingKey} :
    Access.takeFirst s = .error missing t → Clears s [] t
  | next {s t u : Scope α} {first : String × α} {taken : List (String × α)} :
    Access.takeFirst s = .ok first t → Clears t taken u → Clears s (first :: taken) u

def Distinct (s : Scope α) : Prop := ∀ frame ∈ s.frames, frame.keys.Nodup

theorem Reached.distinct {s : Scope α} {dates : List (String → Nat)} {now : Nat}
    (reached : Reached s dates now) : s.Distinct := by
  have both := reached.ordered.imp fun _ _ ordered => And.intro ordered.nodup ordered
  exact ((List.forall₂_and_left _ _).1 both).1

section Own

variable {s : Scope α} {key : String} {value : α}

theorem take_of_own (own : s.frame.get? key = some value) :
    s.take key = .ok (value, { s with frame := s.frame.erase key }) := by
  have present : s.frame.contains key = true := by rw [← Table.isSome_get?, own]; rfl
  simp [take, get?_eq, own, remove, present, Except.map]

theorem take_of_not_own (absent : s.frame.contains key = false) :
    s.take key = .error ⟨some key⟩ := by
  rw [take, remove, absent]
  cases s.get? key <;> rfl

theorem takeFirst_of_own {rest : List (String × α)}
    (entries : s.frame.entries = (key, value) :: rest) (distinct : s.frame.keys.Nodup) :
    s.takeFirst = .ok ((key, value), ⟨⟨rest⟩, s.outer⟩) := by
  obtain ⟨⟨_⟩, outer⟩ := s
  cases entries
  have own : (⟨(key, value) :: rest⟩ : Table α).get? key = some value :=
    Table.get?_entry [] rest distinct
  have erased : (⟨(key, value) :: rest⟩ : Table α).erase key = ⟨rest⟩ :=
    Table.erase_entry [] rest distinct
  have head : (⟨⟨(key, value) :: rest⟩, outer⟩ : Scope α).keys.head? = some key := by
    simp [keys, frames, Table.keys, List.eraseDups_cons]
  have taken := take_of_own (s := ⟨⟨(key, value) :: rest⟩, outer⟩) own
  simp only [takeFirst, head, taken, erased]
  rfl

theorem takeFirst_of_empty (none : s.frame.entries = []) :
    s.takeFirst = .error ⟨s.keys.head?⟩ := by
  have absent (key : String) : s.frame.contains key = false := by
    simp [Table.contains, Table.keys, none]
  cases head : s.keys.head? with
  | none => simp only [takeFirst, head]
  | some key =>
    simp only [takeFirst, head, take_of_not_own (absent key)]
    rfl

end Own

theorem Clears.clear_eq {s t : Scope α} {taken : List (String × α)} (clears : Clears s taken t) :
    s.clear = t := by
  induction clears with
  | done failed =>
    rw [Access.takeFirst_eq, Access.attempt_eq_error_iff] at failed
    obtain ⟨failed, rfl⟩ := failed
    exact clear_of_takeFirst_error failed
  | next one _ ih =>
    rw [Access.takeFirst_eq, Access.attempt_eq_ok_iff] at one
    rw [clear_of_takeFirst one, ih]

theorem clears_of_distinct (entries : List (String × α)) (outer : List (Table α))
    (distinct : (⟨entries⟩ : Table α).keys.Nodup) :
    Clears ⟨⟨entries⟩, outer⟩ entries ⟨Table.empty, outer⟩ := by
  induction entries with
  | nil =>
    have failed := takeFirst_of_empty (s := ⟨Table.empty, outer⟩) rfl
    have ended := Access.attempt_eq_error_iff.2 ⟨failed, rfl⟩
    rw [← Access.takeFirst_eq] at ended
    exact .done ended
  | cons first rest ih =>
    have taken := takeFirst_of_own (s := ⟨⟨first :: rest⟩, outer⟩) rfl distinct
    rw [← Access.attempt_eq_ok_iff, ← Access.takeFirst_eq] at taken
    exact .next taken (ih distinct.tail)

theorem exists_entry_of_replaceIn {key : String} {value : α} {frames changed : List (Table α)}
    (distinct : ∀ frame ∈ frames, frame.keys.Nodup)
    (replaced : replaceIn key value frames = some changed) :
    ∃ nearer before old after further,
      frames = nearer ++ ⟨before ++ (key, old) :: after⟩ :: further ∧
      (∀ frame ∈ nearer, frame.contains key = false) ∧
      changed = nearer ++ ⟨before ++ (key, value) :: after⟩ :: further := by
  induction frames generalizing changed with
  | nil => contradiction
  | cons frame rest ih =>
    rw [List.forall_mem_cons] at distinct
    rw [replaceIn] at replaced
    split at replaced
    · next present =>
      cases replaced
      obtain ⟨before, old, after, rfl⟩ := Table.exists_entry present
      refine ⟨[], before, old, after, rest, rfl, by simp, ?_⟩
      rw [Table.insert_entry before after distinct.1]
      rfl
    · next absent =>
      obtain ⟨below, found, rfl⟩ := Option.map_eq_some_iff.1 replaced
      obtain ⟨nearer, before, old, after, further, rfl, unheld, rfl⟩ := ih distinct.2 found
      refine ⟨frame :: nearer, before, old, after, further, rfl, ?_, rfl⟩
      rw [List.forall_mem_cons]
      exact ⟨Bool.eq_false_iff.2 absent, unheld⟩

theorem outer_of_result {s t : Scope α} {operation : Operation α}
    (confined : ∀ key value, operation ≠ .replace key value)
    (done : operation.result s = .ok t) : t.outer = s.outer := by
  cases operation with
  | set key value =>
    cases done
    rfl
  | remove key => exact (reduced_of_remove done).2
  | replace key value => exact absurd rfl (confined key value)
  | take key =>
    cases taken : s.take key with
    | ok pair =>
      rw [Operation.result, taken] at done
      cases done
      exact (reduced_of_remove (remove_of_take taken)).2
    | error missing =>
      rw [Operation.result, taken] at done
      contradiction
  | takeFirst =>
    cases taken : s.takeFirst with
    | ok pair =>
      rw [Operation.result, taken] at done
      cases done
      exact (reduced_of_takeFirst taken).2
    | error missing =>
      rw [Operation.result, taken] at done
      contradiction
  | clear =>
    cases done
    exact s.reduced_clear.2
  | getOrSet key value =>
    cases done
    rw [getOrSet]
    cases s.get? key <;> rfl

/-- Writing to a chain in which no frame has a name twice. The accesses of an operation lead to the
chain that the operation is said to lead to, or fail and leave the whole chain as it was; only a
replacement reaches beyond the innermost frame. A replacement of a name in sight changes one value,
in the nearest frame that has the name, and no list of names. Emptying the chain takes the bindings
of the innermost frame in turn and ends there, with the names of the frames around it in sight. The
first binding is taken from the innermost frame or not at all, and a name is taken exactly if the
innermost frame has it. -/
theorem writes_confined {s : Scope α} (distinct : s.Distinct) :
    (∀ operation : Operation α, operation.perform s = match operation.result s with
      | .ok t => .ok () t
      | .error missing => .error missing s) ∧
    (∀ (operation : Operation α) (t : Scope α), (∀ key value, operation ≠ .replace key value) →
      operation.result s = .ok t → t.outer = s.outer) ∧
    (∀ key value, s.contains key = true → ∃ nearer before old after further t,
      s.frames = nearer ++ ⟨before ++ (key, old) :: after⟩ :: further ∧
      (∀ frame ∈ nearer, frame.contains key = false) ∧
      s.replace key value = .ok t ∧
      t.frames = nearer ++ ⟨before ++ (key, value) :: after⟩ :: further ∧
      t.frames.map Table.keys = s.frames.map Table.keys) ∧
    (∀ key value, s.contains key = false → s.replace key value = .error ⟨some key⟩) ∧
    (Clears s s.frame.entries s.clear ∧ s.clear = ⟨Table.empty, s.outer⟩ ∧
      s.clear.keys = match s.outer with
        | [] => []
        | parent :: rest => (⟨parent, rest⟩ : Scope α).keys) ∧
    (∀ first rest, s.frame.entries = first :: rest →
      s.takeFirst = .ok (first, ⟨⟨rest⟩, s.outer⟩)) ∧
    (s.frame.entries = [] → s.takeFirst = .error ⟨s.keys.head?⟩) ∧
    ∀ key, (∃ value t, s.take key = .ok (value, t)) ↔ key ∈ s.frame.keys := by
  have own : s.frame.keys.Nodup := distinct s.frame List.mem_cons_self
  have clears := clears_of_distinct s.frame.entries s.outer own
  have cleared : s.clear = ⟨Table.empty, s.outer⟩ := clears.clear_eq
  refine ⟨fun operation => operation.perform_eq s, fun operation t => outer_of_result, ?_,
    fun key value absent => replace_of_not_contains absent value,
    ⟨by rw [cleared]; exact clears, cleared, ?_⟩,
    fun first rest entries => takeFirst_of_own entries own, takeFirst_of_empty, fun key => ?_⟩
  · intro key value present
    obtain ⟨t, replaced⟩ := exists_replace present value
    have changed := replaceIn_of_replace replaced
    obtain ⟨nearer, before, old, after, further, shape, unheld, result⟩ :=
      exists_entry_of_replaceIn distinct changed
    exact ⟨nearer, before, old, after, further, t, shape, unheld, replaced, result,
      keys_of_replaceIn changed⟩
  · rw [cleared]
    cases s.outer <;> rfl
  · rw [← Table.contains_iff_mem]
    constructor
    · rintro ⟨value, t, taken⟩
      by_contra absent
      rw [take_of_not_own (Bool.eq_false_iff.2 absent)] at taken
      contradiction
    · intro present
      rw [← Table.isSome_get?] at present
      obtain ⟨value, known⟩ := Option.isSome_iff_exists.1 present
      exact ⟨value, _, take_of_own known⟩

/-- Two frames that both have `b`. The name `c` is in sight but cannot be taken, it can be replaced
where it is, and emptying the chain brings the outer `b` into sight again and stops. -/
theorem writes_confined_shadowed :
    ∃ s : Scope Nat, s.Distinct ∧
      s.frames = [⟨[("a", 1), ("b", 2)]⟩, ⟨[("b", 3), ("c", 4)]⟩] ∧
      (Operation.take "c").perform s = .error ⟨some "c"⟩ s ∧
      (∃ t, s.replace "c" 5 = .ok t ∧ t.frames.map Table.keys = [["a", "b"], ["b", "c"]]) ∧
      Clears s [("a", 1), ("b", 2)] ⟨Table.empty, s.outer⟩ ∧ s.clear.keys = ["b", "c"] := by
  have reached := Reached.empty (α := Nat)
    |>.operate (.set "b" 3) 0
    |>.operate (.set "c" 4) 0
    |>.push [("a", 1), ("b", 2)]
  obtain ⟨whole, -, one, -, ⟨clears, cleared, sight⟩, -⟩ := writes_confined reached.distinct
  obtain ⟨_, _, _, _, _, t, -, -, replaced, -, keys⟩ := one "c" 5 (by decide +kernel)
  refine ⟨_, reached.distinct, rfl, whole (.take "c"), ⟨t, replaced, keys⟩, ?_, sight⟩
  rw [← cleared]
  exact clears

end Scope

end Reckoner
