import Reckoner.Proofs.Binding

/-! Writing a value over what some names stand for, in a single pass and from the set of names
alone: in the nearest frame for a name that is a local, and else among the globals. An assignment to
one name is such a pass. A pass moves no name, so it changes neither which binding another name
stands for nor whether it can be assigned to, and one pass after another comes to the same as one
for all names. -/
namespace Reckoner

namespace Table

variable {α : Type}

def overwrite (t : Table α) (test : String → Bool) (value : α) : Table α :=
  ⟨t.entries.map fun entry => (entry.1, if test entry.1 then value else entry.2)⟩

@[simp] theorem keys_overwrite (t : Table α) (test : String → Bool) (value : α) :
    (t.overwrite test value).keys = t.keys := by
  simp [overwrite, keys, Function.comp_def]

@[simp] theorem contains_overwrite (t : Table α) (test : String → Bool) (value : α)
    (key : String) : (t.overwrite test value).contains key = t.contains key := by
  simp [contains]

theorem get?_overwrite (t : Table α) (test : String → Bool) (value : α) (key : String) :
    (t.overwrite test value).get? key =
      (t.get? key).map fun old => if test key then value else old := by
  obtain ⟨entries⟩ := t
  simp only [overwrite, get?]
  induction entries with
  | nil => rfl
  | cons entry rest ih =>
    rw [List.map_cons, List.lookup_cons, List.lookup_cons, ih]
    by_cases here : key = entry.1
    · simp [here]
    · simp [beq_eq_false_iff_ne.2 here]

theorem overwrite_overwrite (t : Table α) (first second : String → Bool) (value : α) :
    (t.overwrite first value).overwrite second value =
      t.overwrite (fun key => first key || second key) value := by
  simp only [overwrite, List.map_map, Function.comp_def]
  congr 2
  funext entry
  by_cases one : first entry.1 = true <;> simp [one]

theorem overwrite_of_absent {t : Table α} {test : String → Bool}
    (absent : ∀ key ∈ t.keys, test key = false) (value : α) : t.overwrite test value = t := by
  have same : ∀ entry ∈ t.entries,
      (entry.1, if test entry.1 then value else entry.2) = id entry := by
    intro entry member
    rw [absent entry.1 (List.mem_map_of_mem member)]
    rfl
  rw [overwrite, List.map_congr_left same, List.map_id]

theorem insert_eq_overwrite {t : Table α} {key : String} (present : t.contains key = true)
    (value : α) : t.insert key value = t.overwrite (· == key) value := by
  rw [insert, if_pos present, overwrite]
  congr 2
  funext entry
  by_cases same : entry.1 = key
  · simp [same]
  · simp [same]

end Table

namespace Scope

variable {α : Type}

def overwriteIn (test : String → Bool) (value : α) : List (Table α) → List (Table α)
  | [] => []
  | frame :: rest =>
    frame.overwrite test value ::
      overwriteIn (fun key => test key && !frame.contains key) value rest

theorem keys_overwriteIn (test : String → Bool) (value : α) (frames : List (Table α)) :
    (overwriteIn test value frames).map Table.keys = frames.map Table.keys := by
  induction frames generalizing test with
  | nil => rfl
  | cons frame rest ih => simp [overwriteIn, ih]

theorem overwriteIn_overwriteIn (first second : String → Bool) (value : α)
    (frames : List (Table α)) :
    overwriteIn second value (overwriteIn first value frames) =
      overwriteIn (fun key => first key || second key) value frames := by
  induction frames generalizing first second with
  | nil => rfl
  | cons frame rest ih =>
    simp only [overwriteIn, Table.overwrite_overwrite, Table.contains_overwrite, ih,
      Bool.and_or_distrib_right]

theorem overwriteIn_of_absent {test : String → Bool} {frames : List (Table α)}
    (absent : ∀ frame ∈ frames, ∀ key ∈ frame.keys, test key = false) (value : α) :
    overwriteIn test value frames = frames := by
  induction frames generalizing test with
  | nil => rfl
  | cons frame rest ih =>
    rw [List.forall_mem_cons] at absent
    rw [overwriteIn, Table.overwrite_of_absent absent.1, ih]
    intro further member key known
    simp [absent.2 further member key known]

theorem eq_overwriteIn_of_replaceIn {key : String} {value : α} {frames changed : List (Table α)}
    (replaced : replaceIn key value frames = some changed) :
    changed = overwriteIn (· == key) value frames := by
  induction frames generalizing changed with
  | nil => contradiction
  | cons frame rest ih =>
    rw [replaceIn] at replaced
    split at replaced
    · next present =>
      cases replaced
      have others : overwriteIn (fun name => name == key && !frame.contains name) value rest =
          rest := by
        refine overwriteIn_of_absent (fun _ _ name _ => ?_) value
        by_cases same : name = key <;> simp [same, present]
      rw [overwriteIn, others, Table.insert_eq_overwrite present]
    · next absent =>
      obtain ⟨below, found, rfl⟩ := Option.map_eq_some_iff.1 replaced
      have own : frame.overwrite (· == key) value = frame := by
        refine Table.overwrite_of_absent (fun name known => ?_) value
        rw [beq_eq_false_iff_ne]
        rintro rfl
        exact absent ((frame.contains_iff_mem name).2 known)
      have test : (fun name => name == key && !frame.contains name) = (· == key) := by
        funext name
        by_cases same : name = key <;> simp [same, absent]
      rw [overwriteIn, own, test, ← ih found]

/-- A name is written over in the nearest frame that has it, and in no other. -/
theorem getElem?_overwriteIn (test : String → Bool) (value : α) (frames : List (Table α))
    (distance : Nat) (key : String) :
    (overwriteIn test value frames)[distance]?.bind (·.get? key) =
      if test key = true ∧ frames.findIdx? (·.contains key) = some distance then some value
      else frames[distance]?.bind (·.get? key) := by
  induction frames generalizing test distance with
  | nil => simp [overwriteIn]
  | cons frame rest ih =>
    rw [overwriteIn, List.findIdx?_cons]
    cases distance with
    | zero =>
      simp only [List.getElem?_cons_zero, Option.bind_some, Table.get?_overwrite]
      cases present : frame.contains key with
      | true =>
        rw [← Table.isSome_get?] at present
        obtain ⟨old, known⟩ := Option.isSome_iff_exists.1 present
        cases passes : test key <;> simp [known]
      | false =>
        have unknown : frame.get? key = none := by
          simpa [present] using frame.isSome_get? key
        cases rest.findIdx? (·.contains key) <;> simp [unknown]
    | succ distance =>
      simp only [List.getElem?_cons_succ, ih]
      cases present : frame.contains key with
      | true => simp
      | false =>
        cases rest.findIdx? (·.contains key) <;> simp

def overwrite (s : Scope α) (test : String → Bool) (value : α) : Scope α :=
  ⟨s.frame.overwrite test value,
    overwriteIn (fun key => test key && !s.frame.contains key) value s.outer⟩

theorem frames_overwrite (s : Scope α) (test : String → Bool) (value : α) :
    (s.overwrite test value).frames = overwriteIn test value s.frames := rfl

theorem eq_of_frames {s t : Scope α} (same : s.frames = t.frames) : s = t := by
  obtain ⟨frame, outer⟩ := s
  cases same
  rfl

theorem overwrite_overwrite (s : Scope α) (first second : String → Bool) (value : α) :
    (s.overwrite first value).overwrite second value =
      s.overwrite (fun key => first key || second key) value := by
  apply eq_of_frames
  simp only [frames_overwrite, overwriteIn_overwriteIn]

@[simp] theorem find?_overwrite (s : Scope α) (test : String → Bool) (value : α) (key : String) :
    (s.overwrite test value).find? key = s.find? key := by
  have held (frames : List (Table α)) : (frames.findIdx? fun frame => frame.contains key) =
      (frames.map Table.keys).findIdx? fun names => names.contains key := by
    rw [List.findIdx?_map]
    rfl
  rw [find?, find?, held, held, frames_overwrite, keys_overwriteIn]

@[simp] theorem contains_overwrite (s : Scope α) (test : String → Bool) (value : α)
    (key : String) : (s.overwrite test value).contains key = s.contains key := by
  rw [contains, contains, find?_overwrite]

theorem overwrite_of_absent {s : Scope α} {test : String → Bool}
    (absent : ∀ key, s.contains key = true → test key = false) (value : α) :
    s.overwrite test value = s := by
  apply eq_of_frames
  rw [frames_overwrite]
  refine overwriteIn_of_absent (fun frame member key known => absent key ?_) value
  rw [contains_eq_any, List.any_eq_true]
  exact ⟨frame, member, (frame.contains_iff_mem key).2 known⟩

theorem eq_overwrite_of_replace {s t : Scope α} {key : String} {value : α}
    (replaced : s.replace key value = .ok t) : t = s.overwrite (· == key) value := by
  apply eq_of_frames
  rw [frames_overwrite, ← eq_overwriteIn_of_replaceIn (replaceIn_of_replace replaced)]

end Scope

namespace State

/-- The state with `value` for what these names stand for: for each the nearest local, or the global
if there is no local of that name. -/
def overwrite (s : State) (names : List String) (value : Value) : State :=
  { s with
    locals := s.locals.overwrite names.contains value
    globals := s.globals.overwrite (fun name => names.contains name && !s.hasLocal name) value }

variable (s : State) (names : List String) (value : Value)

@[simp] theorem hasLocal_overwrite (name : String) :
    (s.overwrite names value).hasLocal name = s.hasLocal name :=
  s.locals.contains_overwrite _ value name

@[simp] theorem hasGlobal_overwrite (name : String) :
    (s.overwrite names value).hasGlobal name = s.hasGlobal name :=
  s.globals.contains_overwrite _ value name

theorem overwrite_nil : s.overwrite [] value = s := by
  rw [overwrite, Scope.overwrite_of_absent (by simp), Table.overwrite_of_absent (by simp)]

theorem overwrite_append (others : List String) :
    s.overwrite (names ++ others) value = (s.overwrite names value).overwrite others value := by
  have test : (names ++ others).contains =
      fun name => names.contains name || others.contains name := by
    funext name
    rw [List.contains_append]
  simp only [overwrite, test, hasLocal, Scope.overwrite_overwrite, Table.overwrite_overwrite,
    Scope.contains_overwrite, List.contains_append, Bool.and_or_distrib_right]

theorem overwrite_congr {names others : List String}
    (same : ∀ name, name ∈ others ↔ name ∈ names) :
    s.overwrite others value = s.overwrite names value := by
  have test : others.contains = names.contains := by
    funext name
    rw [Bool.eq_iff_iff, List.contains_iff_mem, List.contains_iff_mem, same]
  rw [overwrite, overwrite, test]

section Assign

variable {s names value}
variable {name : String}

theorem eq_overwrite_of_assign {t : State} (assigned : s.assign name value = .ok t) :
    t = s.overwrite [name] value := by
  have test : [name].contains = (· == name) := by
    funext other
    rw [List.contains_cons, List.contains_nil, Bool.or_false]
  obtain ⟨locals, replaced, rfl⟩ | ⟨⟨-, unseen, known⟩, rfl⟩ := eq_of_assign assigned
  · have present : s.hasLocal name = true := by
      cases present : s.hasLocal name with
      | true => rfl
      | false =>
        rw [Scope.replace_of_not_contains present] at replaced
        contradiction
    have kept : s.globals.overwrite (fun other => other == name && !s.hasLocal other) value =
        s.globals := by
      refine Table.overwrite_of_absent (fun other _ => ?_) value
      by_cases same : other = name <;> simp [same, present]
    rw [overwrite, test, kept, Scope.eq_overwrite_of_replace replaced]
  · have kept : s.locals.overwrite (· == name) value = s.locals := by
      refine Scope.overwrite_of_absent (fun other present => ?_) value
      rw [beq_eq_false_iff_ne]
      rintro rfl
      rw [hasLocal, present] at unseen
      contradiction
    have one : (fun other => other == name && !s.hasLocal other) = (· == name) := by
      funext other
      by_cases same : other = name <;> simp [same, unseen]
    rw [overwrite, test, kept, one, Table.insert_eq_overwrite known]

theorem exists_assign_overwrite (assignable : ∃ t, s.assign name value = .ok t) :
    ∃ t, (s.overwrite names value).assign name value = .ok t := by
  rw [exists_assign_iff, ← hasLocal_iff, ← hasGlobal_iff] at assignable ⊢
  rw [hasLocal_overwrite, hasGlobal_overwrite]
  exact assignable

theorem assign_overwrite_error {error : RuntimeError}
    (failed : s.assign name value = .error error) :
    (s.overwrite names value).assign name value = .error error := by
  have unseen : s.hasLocal name = false := by
    simpa [← hasLocal_iff] using (error_of_assign failed).1
  have still : (s.overwrite names value).hasLocal name = false := by
    rw [hasLocal_overwrite, unseen]
  rw [assign_of_not_local unseen] at failed
  rw [assign_of_not_local still, hasGlobal_overwrite]
  change (if _ then if 0 < s.depth then _ else _ else _) = _
  split at failed
  · split at failed
    · next known inside => rw [if_pos known, if_pos inside, failed]
    · contradiction
  · next unknown => rw [if_neg unknown, failed]

end Assign

end State

inductive Place where
  | frame (distance : Nat)
  | globals
deriving DecidableEq

namespace State

def at? (s : State) (place : Place) (name : String) : Option Value :=
  match place with
  | .frame distance => s.locals.frames[distance]?.bind (·.get? name)
  | .globals => s.globals.get? name

def place? (s : State) (name : String) : Option Place :=
  match s.locals.find? name with
  | some distance => some (.frame distance)
  | none => if s.hasGlobal name then some .globals else none

theorem place?_eq_frame_iff (s : State) (name : String) (distance : Nat) :
    s.place? name = some (.frame distance) ↔ s.locals.find? name = some distance := by
  unfold place?
  cases s.locals.find? name with
  | some nearest => simp
  | none => cases s.hasGlobal name <;> simp

theorem place?_eq_globals_iff (s : State) (name : String) :
    s.place? name = some .globals ↔ s.hasLocal name = false ∧ s.hasGlobal name = true := by
  rw [place?, hasLocal, Scope.contains]
  cases s.locals.find? name with
  | some nearest => simp
  | none => cases s.hasGlobal name <;> simp

theorem binding?_of_place? {s : State} {name : String} {place : Place}
    (found : s.place? name = some place) : s.binding? name = s.at? place name := by
  unfold place? at found
  split at found
  · next distance holder =>
    cases found
    obtain ⟨frame, value, there, known, seen⟩ := Scope.get?_of_find? holder
    simp [binding?, seen, at?, there, known]
  · next unheld =>
    split at found
    · cases found
      have unseen : s.locals.get? name = none := by
        simpa [Scope.contains, unheld] using s.locals.isSome_get? name
      simp [binding?, unseen, at?]
    · contradiction

theorem exists_place_of_assign {s t : State} {name : String} {value : Value}
    (assigned : s.assign name value = .ok t) : ∃ place, s.place? name = some place := by
  have assignable := (s.exists_assign_iff name value).1 ⟨t, assigned⟩
  rw [← hasLocal_iff, ← hasGlobal_iff, hasLocal, Scope.contains] at assignable
  unfold place?
  cases holder : s.locals.find? name with
  | some distance => exact ⟨_, rfl⟩
  | none =>
    rw [holder] at assignable
    have known := assignable.resolve_left Bool.false_ne_true
    exact ⟨.globals, if_pos known.1⟩

variable (s : State) (names : List String) (value : Value)

@[simp] theorem place?_overwrite (name : String) :
    (s.overwrite names value).place? name = s.place? name := by
  rw [place?, place?, hasGlobal_overwrite]
  simp [overwrite]

/-- What is written over is the one binding that each of the names stands for. -/
theorem at?_overwrite (place : Place) (name : String) :
    (s.overwrite names value).at? place name =
      if name ∈ names ∧ s.place? name = some place then some value else s.at? place name := by
  cases place with
  | frame distance =>
    simp only [place?_eq_frame_iff, ← List.contains_iff_mem]
    exact Scope.getElem?_overwriteIn names.contains value s.locals.frames distance name
  | globals =>
    simp only [at?, overwrite, Table.get?_overwrite, place?_eq_globals_iff]
    rw [hasGlobal, ← Table.isSome_get?]
    cases s.globals.get? name with
    | none => simp
    | some old =>
      by_cases member : name ∈ names <;> cases s.hasLocal name <;> simp [member]

theorem lookup_overwrite {names : List String} {name : String} (member : name ∈ names)
    {t : State} (assigned : s.assign name value = .ok t) :
    (s.overwrite names value).lookup name = .ok value := by
  obtain ⟨place, found⟩ := exists_place_of_assign assigned
  have still : (s.overwrite names value).place? name = some place := by
    rw [place?_overwrite, found]
  apply lookup_of_binding?
  rw [binding?_of_place? still, at?_overwrite, if_pos ⟨member, found⟩]

end State

end Reckoner
