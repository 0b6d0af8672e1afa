import Mathlib.Data.List.Forall2
import Mathlib.Data.List.Induction
import Mathlib.Tactic.TFAE
import Reckoner.Proofs.Store

/-! Reading a chain of frames. However a chain came about, the names in sight come from the
innermost frame outward, those of one frame in the order in which they were first inserted there,
and a name that several frames have at the place of the nearest one. The ways to ask for a name
agree on which names there are, and a look-up ends in the nearest frame that has the name. -/
namespace Reckoner

namespace Table

variable {α : Type}

theorem contains_eq_false {t : Table α} {key : String} (absent : key ∉ t.keys) :
    t.contains key = false :=
  Bool.eq_false_iff.2 (mt (t.contains_iff_mem key).1 absent)

structure Ordered (t : Table α) (date : String → Nat) (now : Nat) : Prop where
  increasing : t.keys.Pairwise fun a b => date a < date b
  past : ∀ key ∈ t.keys, date key < now

def Edited (t u : Table α) : Prop :=
  u.keys.Sublist t.keys ∨ ∃ key, key ∉ t.keys ∧ u.keys = t.keys ++ [key]

theorem Edited.of_keys {t u : Table α} (same : u.keys = t.keys) : Edited t u :=
  .inl (same ▸ List.Sublist.refl _)

theorem edited_insert (t : Table α) (key : String) (value : α) : Edited t (t.insert key value) := by
  by_cases present : t.contains key = true
  · exact .of_keys (keys_insert_of_contains present value)
  · refine .inr ⟨key, mt (t.contains_iff_mem key).2 present, ?_⟩
    rw [keys_insert, if_neg present]

def redated (now : Nat) (t : Table α) (date : String → Nat) : String → Nat :=
  fun key => if t.contains key then date key else now

theorem redated_of_mem {t : Table α} {key : String} (member : key ∈ t.keys) (now : Nat)
    (date : String → Nat) : t.redated now date key = date key :=
  if_pos ((t.contains_iff_mem key).2 member)

theorem redated_of_not_mem {t : Table α} {key : String} (absent : key ∉ t.keys) (now : Nat)
    (date : String → Nat) : t.redated now date key = now :=
  if_neg (mt (t.contains_iff_mem key).1 absent)

theorem Ordered.nodup {t : Table α} {date : String → Nat} {now : Nat}
    (ordered : t.Ordered date now) : t.keys.Nodup :=
  ordered.increasing.imp fun earlier same => by
    rw [same] at earlier
    exact Nat.lt_irrefl _ earlier

theorem Ordered.redated {t : Table α} {date : String → Nat} {now : Nat}
    (ordered : t.Ordered date now) : t.Ordered (t.redated now date) (now + 1) := by
  constructor
  · refine ordered.increasing.imp_of_mem fun {a b} first second earlier => ?_
    rwa [redated_of_mem first, redated_of_mem second]
  · intro key member
    rw [redated_of_mem member]
    exact Nat.lt_succ_of_lt (ordered.past key member)

theorem Ordered.edited {t u : Table α} {date : String → Nat} {now : Nat}
    (ordered : t.Ordered date now) (edited : Edited t u) :
    u.Ordered (t.redated now date) (now + 1) := by
  have kept := ordered.redated
  obtain fewer | ⟨key, new, more⟩ := edited
  · exact ⟨kept.increasing.sublist fewer, fun key member => kept.past key (fewer.subset member)⟩
  · constructor
    · rw [more, List.pairwise_append]
      refine ⟨kept.increasing, List.pairwise_singleton _ _, fun a member b last => ?_⟩
      rw [List.mem_singleton.1 last, redated_of_mem member, redated_of_not_mem new]
      exact ordered.past a member
    · intro other member
      rw [more, List.mem_append, List.mem_singleton] at member
      obtain old | rfl := member
      · exact kept.past other old
      · rw [redated_of_not_mem new]
        exact Nat.lt_succ_self now

theorem ordered_ofList (bindings : List (String × α)) (now : Nat) :
    (ofList bindings).Ordered (fun key => now + (bindings.map Prod.fst).idxOf key)
      (now + bindings.length) := by
  induction bindings using List.reverseRecOn with
  | nil => exact ⟨List.Pairwise.nil, by simp [ofList, keys, empty]⟩
  | append_singleton bindings binding ih =>
    have last : ofList (bindings ++ [binding]) =
        (ofList bindings).insert binding.1 binding.2 := by simp [ofList]
    have place {key : String} (member : key ∈ (ofList bindings).keys) :
        ((bindings ++ [binding]).map Prod.fst).idxOf key = (bindings.map Prod.fst).idxOf key := by
      rw [List.map_append, List.idxOf_append, if_pos ((mem_keys_ofList bindings key).1 member)]
    have earlier : (ofList bindings).Ordered
        (fun key => now + ((bindings ++ [binding]).map Prod.fst).idxOf key)
        (now + bindings.length) := by
      constructor
      · refine ih.increasing.imp_of_mem fun {a b} first second less => ?_
        rwa [place first, place second]
      · intro key member
        rw [place member]
        exact ih.past key member
    rw [last, List.length_append, List.length_singleton, ← Nat.add_assoc]
    by_cases present : (ofList bindings).contains binding.1 = true
    · have same := keys_insert_of_contains present binding.2
      refine ⟨by rw [same]; exact earlier.increasing, fun key member => ?_⟩
      rw [same] at member
      exact Nat.lt_succ_of_lt (earlier.past key member)
    · have absent : binding.1 ∉ bindings.map Prod.fst := by
        rwa [contains_iff_mem, mem_keys_ofList] at present
      have added : ((bindings ++ [binding]).map Prod.fst).idxOf binding.1 = bindings.length := by
        rw [List.map_append, List.idxOf_append, if_neg absent]
        simp
      constructor
      · rw [keys_insert, if_neg present, List.pairwise_append]
        refine ⟨earlier.increasing, List.pairwise_singleton _ _, fun a member b here => ?_⟩
        rw [List.mem_singleton.1 here, added]
        exact earlier.past a member
      · intro key member
        rw [mem_keys_insert] at member
        obtain old | rfl := member
        · exact Nat.lt_succ_of_lt (earlier.past key old)
        · rw [added]
          exact Nat.lt_succ_self _

end Table

namespace Scope

variable {α : Type}

inductive Operation (α : Type) where
  | set (key : String) (value : α)
  | remove (key : String)
  | replace (key : String) (value : α)
  | take (key : String)
  | takeFirst
  | clear
  | getOrSet (key : String) (value : α)

namespace Operation

def run (s : Scope α) : Operation α → Scope α
  | set key value => s.set key value
  | remove key => (s.remove key).toOption.getD s
  | replace key value => (s.replace key value).toOption.getD s
  | take key => ((s.take key).map Prod.snd).toOption.getD s
  | takeFirst => (s.takeFirst.map Prod.snd).toOption.getD s
  | clear => s.clear
  | getOrSet key value => (s.getOrSet key value).2

def runAt (operation : Operation α) : (outward : Nat) → Scope α → Scope α
  | 0, s => operation.run s
  | outward + 1, ⟨frame, parent :: rest⟩ =>
    ⟨frame, (operation.runAt outward ⟨parent, rest⟩).frames⟩
  | _ + 1, ⟨frame, []⟩ => ⟨frame, []⟩

end Operation

/-- How a chain came about: from a single empty frame, by opening and closing frames and by
operations on it or on any part of it that starts further out. For each of its frames, `dates` has
the times at which names were inserted in it while it did not have them. -/
inductive Reached : Scope α → (dates : List (String → Nat)) → (now : Nat) → Prop where
  | empty : Reached Scope.empty [fun _ => 0] 0
  | push {s : Scope α} {dates : List (String → Nat)} {now : Nat} (bindings : List (String × α)) :
    Reached s dates now →
    Reached (s.push bindings) ((fun key => now + (bindings.map Prod.fst).idxOf key) :: dates)
      (now + bindings.length)
  | drop {frame parent : Table α} {rest : List (Table α)} {date : String → Nat}
    {dates : List (String → Nat)} {now : Nat} :
    Reached ⟨frame, parent :: rest⟩ (date :: dates) now → Reached ⟨parent, rest⟩ dates now
  | operate {s : Scope α} {dates : List (String → Nat)} {now : Nat} (operation : Operation α)
    (outward : Nat) : Reached s dates now →
    Reached (operation.runAt outward s) (List.zipWith (Table.redated now) s.frames dates) (now + 1)

section Operations

variable {s t : Scope α} {key : String}

theorem eq_of_remove (removed : s.remove key = .ok t) :
    t = { s with frame := s.frame.erase key } := by
  unfold remove at removed
  split at removed
  · cases removed
    rfl
  · contradiction

theorem remove_of_take {value : α} (taken : s.take key = .ok (value, t)) :
    s.remove key = .ok t := by
  unfold take at taken
  split at taken
  · contradiction
  · cases removed : s.remove key with
    | error missing => rw [removed] at taken; contradiction
    | ok rest =>
      rw [removed] at taken
      cases taken
      rfl

theorem take_of_takeFirst {first : String × α} (taken : s.takeFirst = .ok (first, t)) :
    s.take first.1 = .ok (first.2, t) := by
  unfold takeFirst at taken
  split at taken
  · contradiction
  · next head _ =>
    cases found : s.take head with
    | error missing => rw [found] at taken; contradiction
    | ok pair =>
      rw [found] at taken
      cases taken
      exact found

def Reduced (s t : Scope α) : Prop :=
  t.frame.keys.Sublist s.frame.keys ∧ t.outer = s.outer

theorem reduced_of_remove (removed : s.remove key = .ok t) : Reduced s t := by
  rw [eq_of_remove removed]
  refine ⟨?_, rfl⟩
  rw [Table.keys_erase]
  exact List.filter_sublist

theorem reduced_of_takeFirst {first : String × α} (taken : s.takeFirst = .ok (first, t)) :
    Reduced s t :=
  reduced_of_remove (remove_of_take (take_of_takeFirst taken))

theorem clear_of_takeFirst {first : String × α} (taken : s.takeFirst = .ok (first, t)) :
    s.clear = t.clear := by
  rw [clear]
  split
  · next rest again =>
    rw [taken] at again
    cases again
    rfl
  · next failed =>
    rw [taken] at failed
    contradiction

theorem clear_of_takeFirst_error {missing : MissingKey} (failed : s.takeFirst = .error missing) :
    s.clear = s := by
  rw [clear]
  split
  · next taken =>
    rw [failed] at taken
    contradiction
  · rfl

theorem reduced_clear (s : Scope α) : Reduced s s.clear := by
  induction s using clear.induct with
  | case1 s first rest taken smaller ih =>
    have one := reduced_of_takeFirst taken
    rw [clear_of_takeFirst taken]
    exact ⟨ih.1.trans one.1, ih.2.trans one.2⟩
  | case2 s missing failed =>
    rw [clear_of_takeFirst_error failed]
    exact ⟨List.Sublist.refl _, rfl⟩

theorem Reduced.edited (reduced : Reduced s t) :
    Table.Edited s.frame t.frame ∧ t.outer.map Table.keys = s.outer.map Table.keys :=
  ⟨.inl reduced.1, congrArg _ reduced.2⟩

theorem edited_refl (s : Scope α) :
    Table.Edited s.frame s.frame ∧ s.outer.map Table.keys = s.outer.map Table.keys :=
  ⟨.of_keys rfl, rfl⟩

theorem edited_set (s : Scope α) (key : String) (value : α) :
    Table.Edited s.frame (s.set key value).frame ∧
      (s.set key value).outer.map Table.keys = s.outer.map Table.keys :=
  ⟨s.frame.edited_insert key value, rfl⟩

theorem edited_run (operation : Operation α) (s : Scope α) :
    Table.Edited s.frame (operation.run s).frame ∧
      (operation.run s).outer.map Table.keys = s.outer.map Table.keys := by
  cases operation with
  | set key value => exact s.edited_set key value
  | remove key =>
    rw [Operation.run]
    cases removed : s.remove key with
    | ok t => exact (reduced_of_remove removed).edited
    | error missing => exact s.edited_refl
  | replace key value =>
    rw [Operation.run]
    cases replaced : s.replace key value with
    | ok t =>
      obtain ⟨own, outer⟩ := keys_of_replace replaced
      exact ⟨.of_keys own, outer⟩
    | error missing => exact s.edited_refl
  | take key =>
    rw [Operation.run]
    cases taken : s.take key with
    | ok pair => exact (reduced_of_remove (remove_of_take taken)).edited
    | error missing => exact s.edited_refl
  | takeFirst =>
    rw [Operation.run]
    cases taken : s.takeFirst with
    | ok pair => exact (reduced_of_takeFirst taken).edited
    | error missing => exact s.edited_refl
  | clear => exact s.reduced_clear.edited
  | getOrSet key value =>
    rw [Operation.run, getOrSet]
    cases s.get? key with
    | some found => exact s.edited_refl
    | none => exact s.edited_set key value

end Operations

open List (Forall₂)

theorem edited_runAt (operation : Operation α) (outward : Nat) (s : Scope α) :
    Forall₂ Table.Edited s.frames (operation.runAt outward s).frames := by
  have same (frames : List (Table α)) : Forall₂ Table.Edited frames frames :=
    List.forall₂_same.2 fun frame _ => .of_keys rfl
  induction outward generalizing s with
  | zero =>
    obtain ⟨own, outer⟩ := edited_run operation s
    refine .cons own ?_
    have keys : Forall₂ (· = ·) (s.outer.map Table.keys)
        ((operation.run s).outer.map Table.keys) := by rw [outer, List.forall₂_eq_eq_eq]
    rw [List.forall₂_map_left_iff, List.forall₂_map_right_iff] at keys
    exact keys.imp fun frame changed same => .of_keys same.symm
  | succ outward ih =>
    obtain ⟨frame, outer⟩ := s
    cases outer with
    | nil => exact same _
    | cons parent rest => exact .cons (.of_keys rfl) (ih ⟨parent, rest⟩)

theorem ordered_edited {frames changed : List (Table α)} {dates : List (String → Nat)} {now : Nat}
    (ordered : Forall₂ (fun frame date => frame.Ordered date now) frames dates)
    (edited : Forall₂ Table.Edited frames changed) :
    Forall₂ (fun frame date => frame.Ordered date (now + 1)) changed
      (List.zipWith (Table.redated now) frames dates) := by
  induction ordered generalizing changed with
  | nil =>
    cases edited
    exact .nil
  | cons own _ rest =>
    cases edited with
    | cons one others => exact .cons (own.edited one) (rest others)

/-- The names of every frame are in the order in which they were first inserted there. -/
theorem Reached.ordered {s : Scope α} {dates : List (String → Nat)} {now : Nat}
    (reached : Reached s dates now) :
    Forall₂ (fun frame date => frame.Ordered date now) s.frames dates := by
  induction reached with
  | empty => exact .cons ⟨List.Pairwise.nil, by simp [Scope.empty, Table.keys, Table.empty]⟩ .nil
  | @push s dates now bindings _ ih =>
    refine .cons (Table.ordered_ofList bindings now) (ih.imp fun frame date ordered => ?_)
    exact ⟨ordered.increasing, fun key member => Nat.lt_add_right _ (ordered.past key member)⟩
  | drop _ ih =>
    cases ih with
    | cons own outer => exact outer
  | @operate s dates now operation outward _ ih =>
    exact ordered_edited ih (edited_runAt operation outward s)

/-- `a` comes before `b` among the names in sight: the nearest frame that has it is nearer, or it is
the same frame and `a` has the earlier date there. -/
def Precedes (frames : List (Table α)) (dates : List (String → Nat)) (a b : String) : Prop :=
  ∃ i j, frames.findIdx? (·.contains a) = some i ∧ frames.findIdx? (·.contains b) = some j ∧
    (i < j ∨ i = j ∧ ∃ date ∈ dates[i]?, date a < date b)

theorem Precedes.ne {frames : List (Table α)} {dates : List (String → Nat)} {a b : String}
    (precedes : Precedes frames dates a b) : a ≠ b := by
  rintro rfl
  obtain ⟨i, j, first, second, nearer | ⟨same, date, dated, earlier⟩⟩ := precedes
  · rw [first] at second
    cases second
    exact Nat.lt_irrefl i nearer
  · exact Nat.lt_irrefl _ earlier

theorem Precedes.cons {frames : List (Table α)} {dates : List (String → Nat)} {a b : String}
    (precedes : Precedes frames dates a b) {frame : Table α} (absent : a ∉ frame.keys)
    (absent' : b ∉ frame.keys) (date : String → Nat) :
    Precedes (frame :: frames) (date :: dates) a b := by
  obtain ⟨i, j, first, second, order⟩ := precedes
  have outward {key : String} (missing : key ∉ frame.keys) {distance : Nat}
      (found : frames.findIdx? (·.contains key) = some distance) :
      (frame :: frames).findIdx? (·.contains key) = some (distance + 1) := by
    rw [List.findIdx?_cons, Table.contains_eq_false missing, found]
    rfl
  refine ⟨i + 1, j + 1, outward absent first, outward absent' second, ?_⟩
  exact order.imp (by omega) (And.imp_left (by omega))

theorem eraseDups_of_nodup {names : List String} (distinct : names.Nodup) :
    names.eraseDups = names := by
  induction names with
  | nil => rfl
  | cons name rest ih =>
    obtain ⟨new, others⟩ := List.nodup_cons.1 distinct
    have kept : rest.filter (fun other => !other == name) = rest := by
      refine List.filter_eq_self.2 fun other member => ?_
      have apart : other ≠ name := fun same => new (same ▸ member)
      simp [apart]
    rw [List.eraseDups_cons, kept, ih others]

theorem pairwise_precedes {frames : List (Table α)} {dates : List (String → Nat)} {now : Nat}
    (ordered : Forall₂ (fun frame date => frame.Ordered date now) frames dates)
    (test : String → Bool) :
    ((frames.flatMap Table.keys).filter test).eraseDups.Pairwise (Precedes frames dates) := by
  -- The test stands for what the frames further in have left over, so the induction has it free.
  induction ordered generalizing test with
  | nil => exact List.Pairwise.nil
  | @cons frame date frames dates own _ ih =>
    have here {key : String} (member : key ∈ (frame.keys.filter test)) :
        (frame :: frames).findIdx? (·.contains key) = some 0 := by
      have present := (frame.contains_iff_mem key).2 (List.mem_of_mem_filter member)
      simp [List.findIdx?_cons, present]
    have further {key : String} (member : key ∈ ((frames.flatMap Table.keys).filter fun key =>
        !(frame.keys.filter test).elem key && test key).eraseDups) :
        key ∉ frame.keys ∧ ∃ j, (frame :: frames).findIdx? (·.contains key) = some (j + 1) := by
      rw [List.mem_eraseDups, List.mem_filter, Bool.and_eq_true] at member
      obtain ⟨known, unlisted, passes⟩ := member
      have absent : key ∉ frame.keys := fun own => by simp [own, passes] at unlisted
      obtain ⟨holder, held, has⟩ := List.mem_flatMap.1 known
      have present : (frames.findIdx? (·.contains key)).isSome = true := by
        rw [List.findIdx?_isSome, List.any_eq_true]
        exact ⟨holder, held, (holder.contains_iff_mem key).2 has⟩
      obtain ⟨j, found⟩ := Option.isSome_iff_exists.1 present
      have missing := Table.contains_eq_false absent
      exact ⟨absent, j, by simp [List.findIdx?_cons, missing, found]⟩
    rw [List.flatMap_cons, List.filter_append, List.eraseDups_append,
      eraseDups_of_nodup (own.nodup.filter _), List.removeAll, List.filter_filter,
      List.pairwise_append]
    refine ⟨?_, ?_, fun a first b second => ?_⟩
    · refine (own.increasing.filter _).imp_of_mem fun first second earlier => ?_
      exact ⟨0, 0, here first, here second, .inr ⟨rfl, date, rfl, earlier⟩⟩
    · refine (ih _).imp_of_mem fun first second precedes => ?_
      exact precedes.cons (further first).1 (further second).1 date
    · obtain ⟨-, j, found⟩ := further second
      exact ⟨0, j + 1, here first, found, .inl j.succ_pos⟩

theorem size_eq_length_keys (s : Scope α) : s.size = s.keys.length := by
  simp [size]

theorem not_contains_of_find? {s : Scope α} {key : String} {distance : Nat}
    (found : s.find? key = some distance) :
    ∀ nearer ∈ s.frames.take distance, nearer.contains key = false := by
  intro nearer member
  obtain ⟨_, _, before⟩ := List.findIdx?_eq_some_iff_getElem.1 found
  obtain ⟨j, short, rfl⟩ := List.mem_take_iff_getElem.1 member
  exact Bool.eq_false_iff.2 (before j (by omega))

/-- Reading a chain, however it came about. The names in sight are listed once each, those of nearer
frames first and those of one frame by the dates at which they were inserted there; they are as many
as the chain counts. To be listed, to be contained, to be found in some frame and to have a value
are the same, and the value is that of the nearest frame that has the name. -/
theorem reached_reads_agree {s : Scope α} {dates : List (String → Nat)} {now : Nat}
    (reached : Reached s dates now) :
    s.keys.Nodup ∧ s.keys.Pairwise (Precedes s.frames dates) ∧ s.size = s.keys.length ∧
    (∀ key, [key ∈ s.keys, s.contains key = true, s.find? key ≠ none, s.get? key ≠ none].TFAE) ∧
    ∀ key distance, s.find? key = some distance → ∃ frame value,
      s.frames[distance]? = some frame ∧ frame.get? key = some value ∧ s.get? key = some value ∧
        ∀ nearer ∈ s.frames.take distance, nearer.contains key = false := by
  have order : s.keys.Pairwise (Precedes s.frames dates) := by
    simpa [keys] using pairwise_precedes reached.ordered fun _ => true
  refine ⟨order.imp Precedes.ne, order, s.size_eq_length_keys, fun key => ?_, ?_⟩
  · tfae_have 1 ↔ 2 := s.mem_keys key
    tfae_have 2 ↔ 3 := Option.isSome_iff_ne_none
    tfae_have 2 ↔ 4 := by rw [← isSome_get?, Option.isSome_iff_ne_none]
    tfae_finish
  · intro key distance found
    obtain ⟨frame, value, there, known, seen⟩ := get?_of_find? found
    exact ⟨frame, value, there, known, seen, not_contains_of_find? found⟩

theorem reached_reads_agree_shadowed :
    ∃ (s : Scope Nat) (dates : List (String → Nat)) (now : Nat), Reached s dates now ∧
      s.frames.map Table.keys = [["a", "c"], ["a", "b", "d"]] ∧
      s.keys = ["a", "c", "b", "d"] ∧ s.keys.Pairwise (Precedes s.frames dates) ∧ s.size = 4 ∧
      s.find? "b" = some 1 ∧ ∃ frame value, s.frames[1]? = some frame ∧
        frame.get? "b" = some value ∧ s.get? "b" = some value := by
  have reached := Reached.empty (α := Nat)
    |>.operate (.set "a" 1) 0
    |>.operate (.set "b" 2) 0
    |>.push [("c", 3), ("a", 4)]
    |>.operate (.remove "c") 0
    |>.operate (.set "c" 5) 0
    |>.operate (.set "d" 6) 1
  obtain ⟨-, order, counted, -, nearest⟩ := reached_reads_agree reached
  obtain ⟨frame, value, there, known, seen, -⟩ := nearest "b" 1 (by decide +kernel)
  exact ⟨_, _, _, reached, by decide +kernel, by decide +kernel, order, counted,
    by decide +kernel, frame, value, there, known, seen⟩

end Scope

end Reckoner
