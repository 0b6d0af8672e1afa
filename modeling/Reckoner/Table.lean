/-! Finite tables from names to values, in order of first insertion. Overwriting keeps the place
of a name; erasing and inserting again moves it to the end. -/
namespace Reckoner

structure Table (α : Type) where
  entries : List (String × α)

namespace Table

variable {α : Type}

def empty : Table α := ⟨[]⟩

def keys (t : Table α) : List String := t.entries.map Prod.fst

def size (t : Table α) : Nat := t.entries.length

def get? (t : Table α) (key : String) : Option α := t.entries.lookup key

def contains (t : Table α) (key : String) : Bool := t.keys.contains key

def insert (t : Table α) (key : String) (value : α) : Table α :=
  if t.contains key then
    ⟨t.entries.map fun entry => if entry.1 = key then (key, value) else entry⟩
  else ⟨t.entries ++ [(key, value)]⟩

def erase (t : Table α) (key : String) : Table α :=
  ⟨t.entries.filter fun entry => entry.1 ≠ key⟩

/-- The table of a list of bindings: of a repeated name the last value, at the first place. -/
def ofList (bindings : List (String × α)) : Table α :=
  bindings.foldl (fun t binding => t.insert binding.1 binding.2) empty

theorem contains_iff_mem (t : Table α) (key : String) : t.contains key = true ↔ key ∈ t.keys := by
  simp [contains]

theorem get?_eq_none_iff (t : Table α) (key : String) : t.get? key = none ↔ key ∉ t.keys := by
  obtain ⟨entries⟩ := t
  induction entries with
  | nil => simp [get?, keys]
  | cons entry rest ih =>
    simp only [get?, keys, List.map_cons, List.mem_cons, not_or] at ih ⊢
    rw [List.lookup_cons]
    by_cases h : key = entry.1
    · simp [h]
    · simp only [beq_eq_false_iff_ne.2 h, ih, h, not_false_eq_true, true_and]

theorem isSome_get? (t : Table α) (key : String) : (t.get? key).isSome = t.contains key := by
  have none_iff := t.get?_eq_none_iff key
  rw [← contains_iff_mem] at none_iff
  cases found : t.get? key <;> simp_all

theorem lookup_replace (entries : List (String × α)) (key other : String) (value : α) :
    (entries.map fun entry => if entry.1 = key then (key, value) else entry).lookup other =
      if other = key then (entries.lookup key).map fun _ => value else entries.lookup other := by
  induction entries with
  | nil => simp
  | cons entry rest ih =>
    rw [List.map_cons, List.lookup_cons, List.lookup_cons, List.lookup_cons, ih]
    by_cases here : entry.1 = key
    · by_cases same : other = key
      · simp [here, same]
      · simp [here, same, beq_eq_false_iff_ne.2 same]
    · by_cases same : other = key
      · simp [here, same, beq_eq_false_iff_ne.2 (Ne.symm here)]
      · simp [here, same]

theorem get?_insert_self (t : Table α) (key : String) (value : α) :
    (t.insert key value).get? key = some value := by
  have found := t.isSome_get? key
  unfold insert
  split
  · next present =>
    rw [present] at found
    obtain ⟨old, known⟩ := Option.isSome_iff_exists.1 found
    simp only [get?] at known
    simp [get?, lookup_replace, known]
  · next absent =>
    have unknown : t.entries.lookup key = none := by simpa [absent, get?] using found
    simp [get?, List.lookup_append, unknown]

theorem get?_insert_of_ne (t : Table α) {key other : String} (value : α) (h : other ≠ key) :
    (t.insert key value).get? other = t.get? other := by
  unfold insert
  split
  · simp [get?, lookup_replace, h]
  · have apart : (other == key) = false := beq_eq_false_iff_ne.2 h
    simp [get?, List.lookup_append, List.lookup_cons, apart]

theorem keys_insert (t : Table α) (key : String) (value : α) :
    (t.insert key value).keys = if t.contains key then t.keys else t.keys ++ [key] := by
  unfold insert
  split
  · simp only [keys, List.map_map]
    apply List.map_congr_left
    intro entry _
    simp only [Function.comp_apply]
    split
    · next same => exact same.symm
    · rfl
  · simp [keys]

theorem keys_erase (t : Table α) (key : String) :
    (t.erase key).keys = t.keys.filter fun other => other ≠ key := by
  simp only [erase, keys, List.filter_map]
  rfl

theorem size_erase_lt (t : Table α) {key : String} (present : t.contains key = true) :
    (t.erase key).size < t.size := by
  rw [contains_iff_mem, keys, List.mem_map] at present
  obtain ⟨entry, member, rfl⟩ := present
  simp only [erase, size]
  exact List.length_filter_lt_length_iff_exists.2 ⟨entry, member, by simp⟩

end Table

end Reckoner
