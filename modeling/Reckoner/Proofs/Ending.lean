import Reckoner.Proofs.Positions
import Reckoner.Proofs.Sums

/-! When loops end. A step that is small beside the position is lost in rounding, and then the
position is the same at the next pass and at all later ones. This is the only way in which a loop
with finite bounds fails to end: each position that is not the one before lies strictly further on,
and only finitely many doubles are left between it and the second bound. -/
namespace Reckoner

namespace Double

open Float.Model Float.Model.UnpackedFloat

theorem finite_float : Finite Float := by
  have injective : Function.Injective fun x : Float => x.toBits.toFin := by
    rintro ⟨⟨a, _⟩⟩ ⟨⟨b, _⟩⟩ same
    obtain rfl : a = b := UInt64.toFin_inj.1 same
    rfl
  exact Finite.of_injective _ injective

def between (x y : Float) : Set Float := {z | z.isFinite = true ∧ x < z ∧ z < y}

theorem finite_between (x y : Float) : (between x y).Finite :=
  haveI := finite_float
  Set.toFinite _

section Between

variable {x y z : Float} (finite : y.isFinite = true) (less : x < y) (less' : y < z)
include finite less less'

theorem ncard_between_lt_left (finite' : x.isFinite = true) :
    (between y z).ncard < (between x z).ncard := by
  have order := (lt_iff_exact finite' finite).1 less
  refine Set.ncard_lt_ncard ⟨fun w member => ?_, fun all => ?_⟩ (finite_between x z)
  · obtain ⟨known, after, before⟩ := member
    rw [lt_iff_exact finite known] at after
    exact ⟨known, (lt_iff_exact finite' known).2 (order.trans after), before⟩
  · obtain ⟨-, after, -⟩ := all ⟨finite, less, less'⟩
    exact not_lt_self finite after

theorem ncard_between_lt_right (finite' : z.isFinite = true) :
    (between x y).ncard < (between x z).ncard := by
  have order := (lt_iff_exact finite finite').1 less'
  refine Set.ncard_lt_ncard ⟨fun w member => ?_, fun all => ?_⟩ (finite_between x z)
  · obtain ⟨known, after, before⟩ := member
    rw [lt_iff_exact known finite] at before
    exact ⟨known, after, (lt_iff_exact known finite').2 (before.trans order)⟩
  · obtain ⟨-, -, before⟩ := all ⟨finite, less, less'⟩
    exact not_lt_self finite before

end Between

theorem add_of_not_finite {x y : Float} (finite : x.isFinite = true)
    (unbounded : y.isFinite = false) : x + y = y := by
  have same : add Format.binary64 x.toModel.unpack y.toModel.unpack = y.toModel.unpack := by
    change y.toModel.unpack.isFinite = false at unbounded
    obtain ⟨s, h⟩ | ⟨s, m, e, c, -, h⟩ := finite_cases finite <;> rw [h] <;>
      cases k : y.toModel.unpack with
      | infinity t | notANumber => rfl
      | zero t | finite t => rw [k] at unbounded; contradiction
  change Float.ofModel (.pack (add Format.binary64 x.toModel.unpack y.toModel.unpack)) = y
  rw [same, pack_unpack]

theorem not_finite_cases {x : Float} (unbounded : x.isFinite = false)
    (sign : isNegative x = false) : x = nan ∨ x = infinity := by
  obtain rfl | rfl | rfl := eq_of_not_finite (Bool.eq_false_iff.1 unbounded)
  · exact .inl rfl
  · exact .inr rfl
  · contradiction

section Steps

variable {position step stop : Float} (finite : position.isFinite = true)
  (sign : isNegative step = false)
include finite sign

theorem add_lt_cases (less : position + step < stop) :
    step.isFinite = true ∧ (position + step).isFinite = true ∧
      exact position ≤ exact (position + step) := by
  have bounded : step.isFinite = true := by
    by_contra unbounded
    rw [Bool.not_eq_true] at unbounded
    rw [add_of_not_finite finite unbounded] at less
    obtain rfl | rfl := not_finite_cases unbounded sign
    · exact not_nan_lt stop less
    · exact not_infinity_lt stop less
  have nonneg := exact_nonneg sign
  obtain infinite | ⟨known, least⟩ := (rounds_add finite bounded).ge_or finite (by linarith)
  · rw [infinite] at less
    exact absurd less (not_infinity_lt stop)
  · exact ⟨bounded, known, least⟩

theorem lt_sub_cases (less : stop < position - step) :
    step.isFinite = true ∧ (position - step).isFinite = true ∧
      exact (position - step) ≤ exact position := by
  have bounded : step.isFinite = true := by
    by_contra unbounded
    rw [Bool.not_eq_true] at unbounded
    rw [sub_eq, add_of_not_finite finite ((isFinite_neg step).trans unbounded)] at less
    obtain rfl | rfl := not_finite_cases unbounded sign
    · exact not_lt_neg_nan stop less
    · exact not_lt_neg_infinity stop less
  have nonneg := exact_nonneg sign
  obtain infinite | ⟨known, most⟩ := (rounds_sub finite bounded).le_or finite (by linarith)
  · rw [infinite] at less
    exact absurd less (not_lt_neg_infinity stop)
  · exact ⟨bounded, known, most⟩

end Steps

section Standing

variable {x y z : Float}

theorem Rounds.eq_of_exact_eq (h : Rounds (exact x + exact y) z) (nonzero : exact y ≠ 0)
    (finite : x.isFinite = true) (finite' : y.isFinite = true) (known : z.isFinite = true)
    (same : exact z = exact x) : z = x := by
  refine eq_of_exact_eq_of_ne known finite same fun zero => ?_
  rw [zero, zero_add] at h
  obtain ⟨-, value⟩ := h.exact_eq finite'
  exact nonzero (by rw [← value, same, zero])

theorem least_le_exact (finite : x.isFinite = true) (nonzero : exact x ≠ 0) :
    2 ^ (-1074 : ℤ) ≤ |exact x| := by
  obtain ⟨s, h⟩ | ⟨s, m, e, c, -, h⟩ := finite_cases finite
  · exact absurd (exact_of_zero h) nonzero
  · have one : (1 : ℚ) ≤ m := by exact_mod_cast c.pos
    have size : |((s.apply m : ℤ) : ℚ)| = m := by cases s <;> simp [Sign.apply]
    rw [exact_of_finite h, abs_mul, size, abs_of_pos (by positivity)]
    calc (2 : ℚ) ^ (-1074 : ℤ) ≤ 2 ^ e := zpow_le_zpow_right₀ one_le_two c.low
      _ ≤ m * 2 ^ e := le_mul_of_one_le_left (by positivity) one

end Standing

end Double

section Walk

/-- What is known of moves from `fine` positions to ones short of the end: each goes on to a fine
position, with less `ahead` of it than before, or stands still. -/
structure Advancing (move : Float → Float) (short : Float → Bool) (fine : Float → Prop)
    (before : Float → Float → Prop) (ahead : Float → ℕ) : Prop where
  fine_move : ∀ p, fine p → short (move p) = true → fine (move p)
  before_or_eq : ∀ p, fine p → short (move p) = true → before p (move p) ∨ move p = p
  ahead_lt : ∀ p, fine p → short (move p) = true → before p (move p) → ahead (move p) < ahead p

variable {move : Float → Float} {short : Float → Bool} {stop position : Float}
  {fine : Float → Prop} {before : Float → Float → Prop} {ahead : Float → ℕ}

theorem mem_walk_move {count : ℕ} {p : Float} (onward : short (move position) = true)
    (member : p ∈ walk move short stop count (move position)) :
    p ∈ walk move short stop (count + 1) position := by
  rw [walk, if_pos onward]
  exact List.mem_cons_of_mem _ member

theorem walk_of_stalled {p : Float} (stalled : move p = p) (onward : short p = true) (count : ℕ) :
    walk move short stop count p = List.replicate count p := by
  induction count with
  | zero => rfl
  | succ count ih => simp [walk, stalled, onward, ih, List.replicate_succ]

theorem walkEnds_of_stalled {p : Float} (stalled : move p = p) (onward : short p = true)
    (arrived : short stop = false) {count : ℕ} (member : p ∈ walk move short stop count position)
    (more : ℕ) : walkEnds move short more position = false := by
  induction count generalizing position more with
  | zero => simp [walk] at member
  | succ count ih =>
    rw [walk, List.mem_cons] at member
    obtain rfl | member := member
    · induction more with
      | zero => rfl
      | succ more ih => simp [walkEnds, stalled, onward, ih]
    · split at member
      · next on =>
        cases more with
        | zero => rfl
        | succ more => simp [walkEnds, on, ih member]
      · rw [List.mem_singleton.1 member, arrived] at onward
        contradiction

namespace Advancing

variable (advancing : Advancing move short fine before ahead)
include advancing

theorem fine_of_mem (start : fine position) (finish : fine stop) {count : ℕ} {p : Float}
    (member : p ∈ walk move short stop count position) : fine p := by
  induction count generalizing position with
  | zero => simp [walk] at member
  | succ count ih =>
    rw [walk, List.mem_cons] at member
    obtain rfl | member := member
    · exact start
    · split at member
      · next on => exact ih (advancing.fine_move _ start on) member
      · exact List.mem_singleton.1 member ▸ finish

/-- A walk whose positions move on comes to its end, as less and less is ahead of it. -/
theorem walkEnds_of_moves (start : fine position)
    (moves : ∀ count, ∀ p ∈ walk move short stop count position,
      short (move p) = true → before p (move p)) {count : ℕ} (enough : ahead position < count) :
    walkEnds move short count position = true := by
  induction count generalizing position with
  | zero => contradiction
  | succ count ih =>
    cases on : short (move position) with
    | false => simp [walkEnds, on]
    | true =>
      have here : before position (move position) := moves 1 position (by simp [walk]) on
      have less := advancing.ahead_lt position start on here
      have rest := ih (advancing.fine_move position start on)
        (fun count p member => moves (count + 1) p (mem_walk_move on member)) (by omega)
      simp [walkEnds, rest]

theorem walkEnds_iff_moves (start : fine position) (finish : fine stop)
    (arrived : short stop = false) :
    (∃ count, walkEnds move short count position = true) ↔
      ∀ count, ∀ p ∈ walk move short stop count position,
        short (move p) = true → before p (move p) := by
  constructor
  · rintro ⟨more, ends⟩ count p member on
    obtain moved | stalled :=
      advancing.before_or_eq p (advancing.fine_of_mem start finish member) on
    · exact moved
    · rw [stalled] at on
      rw [walkEnds_of_stalled stalled on arrived member more] at ends
      contradiction
  · intro moves
    exact ⟨ahead position + 1, advancing.walkEnds_of_moves start moves (Nat.lt_succ_self _)⟩

end Advancing

end Walk

section Directions

open Double

variable (first : Float) {second step : Float} (finite : second.isFinite = true)
  (sign : isNegative step = false) (nonzero : step.isFinite = true → exact step ≠ 0)
include finite sign nonzero

theorem advancing_add : Advancing (· + step) (· < second)
    (fun p => p.isFinite = true ∧ exact p ∈ Set.Icc (exact first) (exact second)) (· < ·)
    (fun p => (between p second).ncard) where
  fine_move p fine short := by
    obtain ⟨known, least, -⟩ := fine
    have less := of_decide_eq_true short
    obtain ⟨-, known', onward⟩ := add_lt_cases known sign less
    exact ⟨known', least.trans onward, ((lt_iff_exact known' finite).1 less).le⟩
  before_or_eq p fine short := by
    obtain ⟨known, -, -⟩ := fine
    obtain ⟨bounded, known', onward⟩ := add_lt_cases known sign (of_decide_eq_true short)
    obtain further | same := onward.lt_or_eq
    · exact .inl ((lt_iff_exact known known').2 further)
    · exact .inr ((rounds_add known bounded).eq_of_exact_eq (nonzero bounded) known bounded known'
        same.symm)
  ahead_lt p fine short moved := by
    obtain ⟨known, -, -⟩ := fine
    have less := of_decide_eq_true short
    obtain ⟨-, known', -⟩ := add_lt_cases known sign less
    exact ncard_between_lt_left known' moved less known

theorem advancing_sub : Advancing (· - step) (· > second)
    (fun p => p.isFinite = true ∧ exact p ∈ Set.Icc (exact second) (exact first)) (· > ·)
    (fun p => (between second p).ncard) where
  fine_move p fine short := by
    obtain ⟨known, -, most⟩ := fine
    have less := of_decide_eq_true short
    obtain ⟨-, known', onward⟩ := lt_sub_cases known sign less
    exact ⟨known', ((lt_iff_exact finite known').1 less).le, onward.trans most⟩
  before_or_eq p fine short := by
    obtain ⟨known, -, -⟩ := fine
    obtain ⟨bounded, known', onward⟩ := lt_sub_cases known sign (of_decide_eq_true short)
    obtain further | same := onward.lt_or_eq
    · exact .inl ((lt_iff_exact known' known).2 further)
    · have bounded' : (-step).isFinite = true := (isFinite_neg step).trans bounded
      have nonzero' : exact (-step) ≠ 0 := by
        rw [exact_neg]
        exact neg_ne_zero.2 (nonzero bounded)
      have sum := rounds_add known bounded'
      rw [← sub_eq] at sum
      exact .inr (sum.eq_of_exact_eq nonzero' known bounded' known' same)
  ahead_lt p fine short moved := by
    obtain ⟨known, -, -⟩ := fine
    have less := of_decide_eq_true short
    obtain ⟨-, known', -⟩ := lt_sub_cases known sign less
    exact ncard_between_lt_right known' less moved known

end Directions

namespace Eval

theorem Ends.foldlM {pass : Value → Float → Eval Value}
    (ends : ∀ total position n, (pass total position).Ends n) (positions : List Float)
    (total : Value) (m : Machine) : (positions.foldlM pass total).Ends m := by
  induction positions generalizing total m with
  | nil => intro n cutOff; contradiction
  | cons position positions ih =>
    intro n cutOff
    rw [List.foldlM_cons] at cutOff
    cases ended : pass total position m with
    | ok value k =>
      rw [bind_of_ok ended] at cutOff
      exact ih value k n cutOff
    | error stop k =>
      rw [bind_of_error ended] at cutOff
      cases cutOff
      exact ends total position m n ended

end Eval

namespace Bounds

open Double

/-- No step is lost: where the next position is short of the second bound, it lies strictly further
on toward it. -/
def Moves (b : Bounds) : Prop :=
  ∀ count, ∀ p ∈ b.positions count,
    (b.first < b.second → p + b.step < b.second → p < p + b.step) ∧
      (b.first > b.second → p - b.step > b.second → p - b.step < p)

/-- A loop between the bounds comes to its end whenever each of its passes does. -/
def Ends (b : Bounds) : Prop :=
  ∃ count, ∀ (pass : Float → Value → Eval Value) (m : Machine),
    (∀ position total n, (pass position total).Ends n) → (Eval.runLoop b pass count).Ends m

structure Proper (b : Bounds) : Prop where
  first : b.first.isFinite = true
  second : b.second.isFinite = true
  sign : isNegative b.step = false
  nonzero : b.step.isFinite = true → exact b.step ≠ 0

variable {b : Bounds}

theorem proper_of_ofStep {first second step : Float} (finite : first.isFinite = true)
    (finite' : second.isFinite = true) (made : ofStep first second step = .ok b) : b.Proper := by
  unfold ofStep at made
  split at made
  · contradiction
  · next nonzero =>
    cases made
    refine ⟨finite, finite', isNegative_abs step, fun bounded => ?_⟩
    rw [isFinite_abs] at bounded
    rw [exact_abs, abs_ne_zero]
    exact mt (beq_zero_iff bounded).2 nonzero

namespace Proper

variable (proper : b.Proper)
include proper

theorem up_iff : b.first < b.second ↔ exact b.first < exact b.second :=
  lt_iff_exact proper.first proper.second

theorem down_iff : b.first > b.second ↔ exact b.second < exact b.first :=
  lt_iff_exact proper.second proper.first

/-- A loop is complete after some number of positions exactly if all its positions move on. -/
theorem complete_iff_moves : (∃ count, b.complete count = true) ↔ b.Moves := by
  unfold complete Moves positions
  by_cases up : b.first < b.second
  · have order := proper.up_iff.1 up
    have down : ¬b.first > b.second := fun down => order.asymm (proper.down_iff.1 down)
    have ends := (advancing_add b.first proper.second proper.sign
      proper.nonzero).walkEnds_iff_moves ⟨proper.first, le_rfl, order.le⟩
        ⟨proper.second, order.le, le_rfl⟩ (decide_eq_false (not_lt_self proper.second))
    simpa only [up, down, if_true, forall_const, false_implies, and_true,
      decide_eq_true_eq] using ends
  · by_cases down : b.first > b.second
    · have order := proper.down_iff.1 down
      have ends := (advancing_sub b.first proper.second proper.sign
        proper.nonzero).walkEnds_iff_moves ⟨proper.first, order.le, le_rfl⟩
          ⟨proper.second, le_rfl, order.le⟩ (decide_eq_false (not_lt_self proper.second))
      simpa only [up, down, if_true, if_false, forall_const, false_implies, true_and,
        decide_eq_true_eq] using ends
    · simp [up, down]

theorem fine_of_mem {count : ℕ} {p : Float} (member : p ∈ b.positions count) :
    p.isFinite = true ∧ |exact p| ≤ max |exact b.first| |exact b.second| := by
  unfold positions at member
  split at member
  · next up =>
    have order := (proper.up_iff.1 up).le
    obtain ⟨known, least, most⟩ := (advancing_add b.first proper.second proper.sign
      proper.nonzero).fine_of_mem ⟨proper.first, le_rfl, order⟩ ⟨proper.second, order, le_rfl⟩
        member
    exact ⟨known, abs_le_max_abs_abs least most⟩
  · split at member
    · next down =>
      have order := (proper.down_iff.1 down).le
      obtain ⟨known, least, most⟩ := (advancing_sub b.first proper.second proper.sign
        proper.nonzero).fine_of_mem ⟨proper.first, order, le_rfl⟩ ⟨proper.second, le_rfl, order⟩
          member
      exact ⟨known, max_comm |exact b.first| _ ▸ abs_le_max_abs_abs least most⟩
    · contradiction

theorem moves_of_lt (near : b.step.isFinite = true →
    |exact b.first| < 2 ^ 53 * exact b.step ∧ |exact b.second| < 2 ^ 53 * exact b.step) :
    b.Moves := by
  intro count p member
  obtain ⟨known, size⟩ := proper.fine_of_mem member
  have apart {q : Float} {v : ℚ} (bounded : b.step.isFinite = true) (known' : q.isFinite = true)
      (rounds : Rounds v q) (away : |v - exact p| = exact b.step) : exact q ≠ exact p := by
    have least := least_le_exact bounded (proper.nonzero bounded)
    rw [abs_of_nonneg (exact_nonneg proper.sign)] at least
    have large : |exact p| < 2 ^ 53 * exact b.step := size.trans_lt (max_lt_iff.2 (near bounded))
    rw [← away] at least large
    exact rounds.exact_ne known' least large
  have distance : |exact b.step| = exact b.step := abs_of_nonneg (exact_nonneg proper.sign)
  constructor
  · intro _ less
    obtain ⟨bounded, known', onward⟩ := add_lt_cases known proper.sign less
    have further := apart bounded known' (rounds_add known bounded) (by simpa using distance)
    exact (lt_iff_exact known known').2 (lt_of_le_of_ne onward further.symm)
  · intro _ less
    obtain ⟨bounded, known', onward⟩ := lt_sub_cases known proper.sign less
    have further := apart bounded known' (rounds_sub known bounded) (by simpa using distance)
    exact (lt_iff_exact known' known).2 (lt_of_le_of_ne onward further)

end Proper

theorem runLoop_of_complete (pass : Float → Value → Eval Value) {count more : ℕ}
    (le : count ≤ more) (all : b.complete count = true) :
    Eval.runLoop b pass more =
      (b.positions count).foldlM (fun total position => pass position total) Value.zero := by
  obtain ⟨all', same⟩ := positions_of_complete le all
  rw [Eval.runLoop_eq b (fun total position => pass position total) more, all', same]
  simp

theorem runLoop_idle (count : ℕ) (m : Machine) :
    Eval.runLoop b (fun _ total => pure total) count m =
      if b.complete count then .ok Value.zero m else .error .unfinished m := by
  rw [Eval.runLoop_eq b (fun total _ => pure total) count, List.foldlM_pure, List.foldl_fixed]
  cases b.complete count <;> rfl

theorem ends_iff_complete : b.Ends ↔ ∃ count, b.complete count = true := by
  constructor
  · rintro ⟨count, ends⟩
    refine ⟨count, ?_⟩
    by_contra left
    refine ends (fun _ total => pure total) (Machine.ofState State.initial)
      (fun _ _ _ _ => nofun) (Machine.ofState State.initial) ?_
    rw [runLoop_idle, if_neg left]
  · rintro ⟨count, all⟩
    refine ⟨count, fun pass m ends => ?_⟩
    rw [runLoop_of_complete pass le_rfl all]
    exact Eval.Ends.foldlM (fun total position n => ends position total n) _ _ m

/-- With finite bounds, a loop ends, given that each of its passes does, exactly if no step is lost
to rounding; it then makes the same finitely many passes whatever they do. No step is lost if its
size is not finite, or if both bounds are less than `2 ^ 53` steps away from zero. -/
theorem ends_iff_moves {first second step : Float} (finite : first.isFinite = true)
    (finite' : second.isFinite = true) (made : ofStep first second step = .ok b) :
    (b.Ends ↔ b.Moves) ∧
      (b.Moves → ∃ count, ∀ (pass : Float → Value → Eval Value) (more : ℕ), count ≤ more →
        Eval.runLoop b pass more =
          (b.positions count).foldlM (fun total position => pass position total) Value.zero) ∧
      ((step.isFinite = true → |exact first| < 2 ^ 53 * |exact step| ∧
        |exact second| < 2 ^ 53 * |exact step|) → b.Moves) := by
  have proper := proper_of_ofStep finite finite' made
  have ends := proper.complete_iff_moves
  refine ⟨ends_iff_complete.trans ends, fun moves => ?_, fun near => proper.moves_of_lt ?_⟩
  · obtain ⟨count, all⟩ := ends.2 moves
    exact ⟨count, fun pass more le => runLoop_of_complete pass le all⟩
  · unfold ofStep at made
    split at made
    · contradiction
    · cases made
      rwa [isFinite_abs, exact_abs]

theorem ends_iff_moves_down :
    let b : Bounds := ⟨1.0, -2.0, 0.75⟩
    ofStep 1.0 (-2.0) (-0.75) = .ok b ∧ b.Moves ∧ b.Ends ∧
      b.positions 9 = [1.0, 0.25, -0.5, -1.25, -2.0] := by
  intro b
  have made : ofStep 1.0 (-2.0) (-0.75) = .ok b := by decide +kernel
  obtain ⟨ends, -, near⟩ := ends_iff_moves (by decide +kernel) (by decide +kernel) made
  have values : exact 1.0 = 1 ∧ exact (-2.0) = -2 ∧ exact (-0.75) = -3 / 4 := by decide +kernel
  have moves : b.Moves := near fun _ => by
    rw [values.1, values.2.1, values.2.2]
    norm_num
  exact ⟨made, moves, ends.2 moves, by decide +kernel⟩

/-- At `2 ^ 53` a step of `1` is lost, and the loop makes its first pass over and over. -/
theorem not_ends_of_lost_step :
    let b : Bounds := ⟨9007199254740992.0, 9007199254740994.0, 1.0⟩
    b.first.isFinite = true ∧ b.second.isFinite = true ∧ ofStep b.first b.second b.step = .ok b ∧
      ¬b.Ends ∧ (∀ count, b.positions count = List.replicate count b.first) ∧
      ∀ count m, Eval.runLoop b (fun _ total => pure total) count m = .error .unfinished m := by
  intro b
  have finite : b.first.isFinite = true := by decide +kernel
  have finite' : b.second.isFinite = true := by decide +kernel
  have made : ofStep b.first b.second b.step = .ok b := by decide +kernel
  have up : b.first < b.second := by decide +kernel
  have lost : b.first + b.step = b.first := by decide +kernel
  have proper := proper_of_ofStep finite finite' made
  clear_value b
  have repeated (count : ℕ) : b.positions count = List.replicate count b.first := by
    rw [positions, if_pos up]
    exact walk_of_stalled lost (decide_eq_true up) count
  have endless : ¬∃ count, b.complete count = true := by
    rw [proper.complete_iff_moves]
    intro moves
    have further := (moves 1 b.first (by simp [repeated])).1 up (by rwa [lost])
    rw [lost] at further
    exact not_lt_self finite further
  refine ⟨finite, finite', made, mt ends_iff_complete.1 endless, repeated, fun count m => ?_⟩
  rw [runLoop_idle, if_neg fun all => endless ⟨count, all⟩]

end Bounds

end Reckoner
