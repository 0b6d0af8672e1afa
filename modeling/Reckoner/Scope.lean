import Reckoner.Table

/-! Chains of frames. A look-up walks outward from the innermost frame; a plain write always
binds in the innermost frame, and only `replace` reaches the frames around it. -/
namespace Reckoner

/-- The innermost frame, and the frames around it from the inside out. -/
structure Scope (α : Type) where
  frame : Table α
  outer : List (Table α)

structure MissingKey where
  key : Option String
deriving DecidableEq

namespace Scope

variable {α : Type}

def empty : Scope α := ⟨Table.empty, []⟩

def frames (s : Scope α) : List (Table α) := s.frame :: s.outer

def push (s : Scope α) (bindings : List (String × α)) : Scope α :=
  ⟨Table.ofList bindings, s.frames⟩

/-- The chain without its innermost frame; a chain of one frame stays as it is. -/
def drop (s : Scope α) : Scope α :=
  match s.outer with
  | [] => s
  | parent :: rest => ⟨parent, rest⟩

@[simp] theorem drop_push (s : Scope α) (bindings : List (String × α)) :
    (s.push bindings).drop = s := rfl

def keys (s : Scope α) : List String :=
  (s.frames.flatMap Table.keys).eraseDups

def size (s : Scope α) : Nat :=
  s.keys.foldl (fun count _ => count + 1) 0

def get? (s : Scope α) (key : String) : Option α :=
  s.frames.findSome? fun frame => frame.get? key

def find? (s : Scope α) (key : String) : Option Nat :=
  s.frames.findIdx? fun frame => frame.contains key

def contains (s : Scope α) (key : String) : Bool := (s.find? key).isSome

theorem isSome_get? (s : Scope α) (key : String) : (s.get? key).isSome = s.contains key := by
  simp only [get?, contains, find?, List.isSome_findSome?, List.findIdx?_isSome,
    Table.isSome_get?]

def set (s : Scope α) (key : String) (value : α) : Scope α :=
  { s with frame := s.frame.insert key value }

def replaceIn (key : String) (value : α) : List (Table α) → Option (List (Table α))
  | [] => none
  | frame :: rest =>
    if frame.contains key then some (frame.insert key value :: rest)
    else (replaceIn key value rest).map (frame :: ·)

def replace (s : Scope α) (key : String) (value : α) : Except MissingKey (Scope α) :=
  if s.frame.contains key then .ok (s.set key value)
  else match replaceIn key value s.outer with
    | some outer => .ok { s with outer }
    | none => .error ⟨some key⟩

def remove (s : Scope α) (key : String) : Except MissingKey (Scope α) :=
  if s.frame.contains key then .ok { s with frame := s.frame.erase key }
  else .error ⟨some key⟩

/-- Reads a name outward and removes it from the innermost frame. -/
def take (s : Scope α) (key : String) : Except MissingKey (α × Scope α) :=
  match s.get? key with
  | none => .error ⟨some key⟩
  | some value => (s.remove key).map fun rest => (value, rest)

def takeFirst (s : Scope α) : Except MissingKey ((String × α) × Scope α) :=
  match s.keys.head? with
  | none => .error ⟨none⟩
  | some key => (s.take key).map fun taken => ((key, taken.1), taken.2)

theorem size_lt_of_remove {s rest : Scope α} {key : String} (removed : s.remove key = .ok rest) :
    rest.frame.size < s.frame.size := by
  unfold remove at removed
  split at removed
  · next present =>
    cases removed
    exact s.frame.size_erase_lt present
  · contradiction

theorem size_lt_of_take {s rest : Scope α} {key : String} {value : α}
    (taken : s.take key = .ok (value, rest)) : rest.frame.size < s.frame.size := by
  unfold take at taken
  split at taken
  · contradiction
  · cases removed : s.remove key with
    | error missing => rw [removed] at taken; contradiction
    | ok left =>
      rw [removed] at taken
      cases taken
      exact size_lt_of_remove removed

theorem size_lt_of_takeFirst {s rest : Scope α} {first : String × α}
    (taken : s.takeFirst = .ok (first, rest)) : rest.frame.size < s.frame.size := by
  unfold takeFirst at taken
  split at taken
  · contradiction
  · next key _ =>
    cases found : s.take key with
    | error missing => rw [found] at taken; contradiction
    | ok pair =>
      rw [found] at taken
      cases taken
      exact size_lt_of_take found

/-- Takes first names until that fails. -/
def clear (s : Scope α) : Scope α :=
  match taken : s.takeFirst with
  | .ok (_, rest) =>
    have := size_lt_of_takeFirst taken
    clear rest
  | .error _ => s
termination_by s.frame.size

def getOrSet (s : Scope α) (key : String) (value : α) : α × Scope α :=
  match s.get? key with
  | some found => (found, s)
  | none => (value, s.set key value)

end Scope

end Reckoner
