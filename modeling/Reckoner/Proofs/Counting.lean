import Reckoner.Proofs.Positions
import Reckoner.Proofs.Sums
import Reckoner.Proofs.Totals

/-! Loops that count by integers. Up to `2 ^ 53` the integers are doubles and their sums are exact,
so such a loop visits exactly the integers that it should: one for each step that starts short of
the second bound, and then this bound. The step that would go beyond it may be rounded, but not
back to the near side. -/
namespace Reckoner

namespace Double

open Float.Model Float.Model.UnpackedFloat

theorem ofNat_small {n : ℕ} (small : n ≤ 2 ^ 53) : (Float.ofNat n).isFinite = true ∧
    isNegative (Float.ofNat n) = false ∧ exact (Float.ofNat n) = n := by
  have held := holds_ofNat n
  rw [rounded_natCast small] at held
  refine held.of_lt ?_
  calc (n : ℚ) ≤ 2 ^ (53 : ℤ) := by exact_mod_cast small
    _ < overflow := zpow_lt_zpow_right₀ one_lt_two (by norm_num)

section Integers

variable {p q : ℤ} (small : |p| ≤ 2 ^ 53) (small' : |q| ≤ 2 ^ 53)

include small in
theorem ofInt_small : (Float.ofInt p).isFinite = true ∧
    isNegative (Float.ofInt p) = decide (p < 0) ∧ exact (Float.ofInt p) = p := by
  cases p with
  | ofNat n =>
    obtain ⟨finite, sign, value⟩ := ofNat_small (n := n) (by simpa [abs_le] using small)
    exact ⟨finite, sign.trans (by simp), value.trans (by simp)⟩
  | negSucc n =>
    obtain ⟨finite, sign, value⟩ := ofNat_small (n := n + 1) (by
      rw [Int.negSucc_eq, abs_neg] at small
      exact_mod_cast small)
    change (-Float.ofNat (n + 1)).isFinite = true ∧ isNegative (-Float.ofNat (n + 1)) = _ ∧
      exact (-Float.ofNat (n + 1)) = _
    rw [isFinite_neg, isNegative_neg finite, exact_neg, sign, value]
    exact ⟨finite, by simp, by simp [Int.negSucc_eq]⟩

include small in
theorem eq_ofInt {x : Float} (finite : x.isFinite = true) (value : exact x = p)
    (sign : p = 0 → isNegative x = false) : x = Float.ofInt p := by
  obtain ⟨finite', sign', value'⟩ := ofInt_small small
  by_cases zero : p = 0
  · refine eq_of_exact_eq finite finite' ?_ (value.trans value'.symm)
    rw [sign zero, sign', zero]
    rfl
  · refine eq_of_exact_eq_of_ne finite finite' (value.trans value'.symm) ?_
    rw [value']
    exact_mod_cast zero

include small in
theorem neg_ofInt (nonzero : p ≠ 0) : -Float.ofInt p = Float.ofInt (-p) := by
  obtain ⟨finite, -, value⟩ := ofInt_small small
  refine eq_ofInt (by rwa [abs_neg]) ((isFinite_neg _).trans finite) ?_ (by omega)
  rw [exact_neg, value, Int.cast_neg]

include small in
theorem abs_ofInt : (Float.ofInt p).abs = Float.ofInt |p| := by
  obtain ⟨finite, -, value⟩ := ofInt_small small
  refine eq_ofInt (by rwa [abs_abs]) ((isFinite_abs _).trans finite) ?_ fun _ => isNegative_abs _
  rw [exact_abs, value, Int.cast_abs]

include small small' in
theorem ofInt_lt_iff : Float.ofInt p < Float.ofInt q ↔ p < q := by
  obtain ⟨finite, -, value⟩ := ofInt_small small
  obtain ⟨finite', -, value'⟩ := ofInt_small small'
  rw [lt_iff_exact finite finite', value, value', Int.cast_lt]

theorem isNegative_add_of_eq_zero {x y : Float} (finite : x.isFinite = true)
    (finite' : y.isFinite = true) (zero : exact x + exact y = 0) (nonzero : exact y ≠ 0) :
    isNegative (x + y) = false := by
  obtain ⟨s, h⟩ | ⟨s, m, e, c, -, h⟩ := finite_cases finite <;>
    obtain ⟨t, k⟩ | ⟨t, n, f, d, -, k⟩ := finite_cases finite'
  · exact absurd (exact_of_zero k) nonzero
  · exact absurd (by rwa [exact_of_zero h, zero_add] at zero) nonzero
  · exact absurd (exact_of_zero k) nonzero
  · obtain ⟨i, e, value, sum⟩ := add_eq_normalize h k
    have power : (2 : ℚ) ^ e ≠ 0 := by positivity
    rw [value, mul_eq_zero_iff_right power, Int.cast_eq_zero] at zero
    rw [sum, zero, normalize_zero]
    rfl

include small small' in
theorem ofInt_add (sum : |p + q| ≤ 2 ^ 53) (nonzero : q ≠ 0) :
    Float.ofInt p + Float.ofInt q = Float.ofInt (p + q) := by
  obtain ⟨finite, -, value⟩ := ofInt_small small
  obtain ⟨finite', -, value'⟩ := ofInt_small small'
  obtain ⟨finite'', -, value''⟩ := ofInt_small sum
  have exactly : exact (Float.ofInt p) + exact (Float.ofInt q) = exact (Float.ofInt (p + q)) := by
    rw [value, value', value'', Int.cast_add]
  have rounds := rounds_add finite finite'
  rw [exactly] at rounds
  obtain ⟨known, same⟩ := rounds.exact_eq finite''
  refine eq_ofInt sum known (same.trans value'') fun zero => ?_
  refine isNegative_add_of_eq_zero finite finite' ?_ ?_
  · rw [exactly, value'', zero, Int.cast_zero]
  · rw [value']
    exact_mod_cast nonzero

include small small' in
theorem ofInt_sub (difference : |p - q| ≤ 2 ^ 53) (nonzero : q ≠ 0) :
    Float.ofInt p - Float.ofInt q = Float.ofInt (p - q) := by
  rw [sub_eq, neg_ofInt small' nonzero, ofInt_add small (by rwa [abs_neg]) difference (by omega)]
  rfl

variable {b : ℤ} (small'' : |b| ≤ 2 ^ 53)
include small small' small''

theorem not_ofInt_add_lt (reached : b ≤ p + q) :
    ¬Float.ofInt p + Float.ofInt q < Float.ofInt b := by
  obtain ⟨finite, -, value⟩ := ofInt_small small
  obtain ⟨finite', -, value'⟩ := ofInt_small small'
  obtain ⟨finite'', -, value''⟩ := ofInt_small small''
  have least : exact (Float.ofInt b) ≤ exact (Float.ofInt p) + exact (Float.ofInt q) := by
    rw [value, value', value'']
    exact_mod_cast reached
  obtain infinite | ⟨known, beyond⟩ := (rounds_add finite finite').ge_or finite'' least
  · rw [infinite]
    exact not_infinity_lt _
  · rw [lt_iff_exact known finite'']
    exact beyond.not_gt

theorem not_lt_ofInt_sub (reached : p - q ≤ b) :
    ¬Float.ofInt b < Float.ofInt p - Float.ofInt q := by
  obtain ⟨finite, -, value⟩ := ofInt_small small
  obtain ⟨finite', -, value'⟩ := ofInt_small small'
  obtain ⟨finite'', -, value''⟩ := ofInt_small small''
  have most : exact (Float.ofInt p) - exact (Float.ofInt q) ≤ exact (Float.ofInt b) := by
    rw [value, value', value'']
    exact_mod_cast reached
  obtain infinite | ⟨known, beyond⟩ := (rounds_sub finite finite').le_or finite'' most
  · rw [infinite]
    exact not_lt_neg_infinity _
  · rw [lt_iff_exact finite'' known]
    exact beyond.not_gt

end Integers

end Double

section Walk

variable {move : Float → Float} {short : Float → Bool} {stop : Float}

theorem walk_eq_map {stage : ℕ → Float} {n count : ℕ}
    (onward : ∀ k < n, move (stage k) = stage (k + 1) ∧ short (stage (k + 1)) = true)
    (last : short (move (stage n)) = false) (enough : n < count) :
    walk move short stop count (stage 0) = (List.range (n + 1)).map stage ++ [stop] ∧
      walkEnds move short count (stage 0) = true := by
  induction n generalizing stage count with
  | zero =>
    obtain ⟨count, rfl⟩ : ∃ fewer, count = fewer + 1 := ⟨count - 1, by omega⟩
    simp [walk, walkEnds, last]
  | succ n ih =>
    obtain ⟨count, rfl⟩ : ∃ fewer, count = fewer + 1 := ⟨count - 1, by omega⟩
    obtain ⟨next, on⟩ := onward 0 (by omega)
    obtain ⟨rest, ends⟩ := @ih (fun k => stage (k + 1)) count
      (fun k less => onward (k + 1) (by omega)) last (by omega)
    rw [zero_add] at rest ends
    rw [walk, walkEnds, next, on, List.range_succ_eq_map]
    simp [rest, ends, Function.comp_def]

end Walk

namespace Bounds

open Double

def stepCount (a b s : ℤ) : ℕ := ⌈(|b - a| : ℚ) / |s|⌉₊

def countAt (a b s : ℤ) (k : ℕ) : ℤ := if a < b then a + k * |s| else a - k * |s|

/-- The positions of a loop from `a` to `b` by steps of the size of `s`. -/
def counted (a b s : ℤ) : List Float :=
  if a = b then []
  else
    (List.range (stepCount a b s)).map (fun k => Float.ofInt (countAt a b s k)) ++ [Float.ofInt b]

section Integers

variable {a b s : ℤ}

theorem lt_stepCount_iff (nonzero : s ≠ 0) (k : ℕ) :
    k < stepCount a b s ↔ k * |s| < |b - a| := by
  have size : (0 : ℚ) < (|s| : ℤ) := by exact_mod_cast abs_pos.2 nonzero
  rw [stepCount, Nat.lt_ceil, lt_div_iff₀ size]
  exact_mod_cast Iff.rfl

theorem length_counted (a b s : ℤ) :
    (counted a b s).length = if a = b then 0 else stepCount a b s + 1 := by
  unfold counted
  split <;> simp

theorem walk_counted {move : Float → Float} {short : Float → Bool} (nonzero : s ≠ 0)
    (apart : a ≠ b)
    (onward : ∀ k, k + 1 < stepCount a b s →
      move (Float.ofInt (countAt a b s k)) = Float.ofInt (countAt a b s (k + 1)) ∧
        short (Float.ofInt (countAt a b s (k + 1))) = true)
    (last : ∀ k, k + 1 = stepCount a b s → short (move (Float.ofInt (countAt a b s k))) = false)
    {count : ℕ} (enough : stepCount a b s ≤ count) :
    walk move short (Float.ofInt b) count (Float.ofInt a) = counted a b s ∧
      walkEnds move short count (Float.ofInt a) = true := by
  have positive : 0 < stepCount a b s := by
    rw [lt_stepCount_iff nonzero]
    simpa using sub_ne_zero.2 apart.symm
  obtain ⟨n, steps⟩ : ∃ n, stepCount a b s = n + 1 := ⟨stepCount a b s - 1, by omega⟩
  have start : countAt a b s 0 = a := by simp [countAt]
  have walked := @walk_eq_map move short (Float.ofInt b) (fun k => Float.ofInt (countAt a b s k)) n
    count (fun k less => onward k (by omega)) (last n steps.symm) (by omega)
  rw [start, ← steps] at walked
  rwa [counted, if_neg apart]

variable (small : |a| ≤ 2 ^ 53) (small' : |b| ≤ 2 ^ 53) (small'' : |s| ≤ 2 ^ 53) (nonzero : s ≠ 0)

include small small' nonzero in
theorem countAt_small {k : ℕ} (before : k < stepCount a b s) : |countAt a b s k| ≤ 2 ^ 53 := by
  rw [lt_stepCount_iff nonzero] at before
  have forward : 0 ≤ k * |s| := by positivity
  rw [abs_le] at small small' ⊢
  unfold countAt
  split
  · next up =>
    rw [abs_of_pos (sub_pos.2 up)] at before
    constructor <;> linarith
  · next down =>
    rw [abs_of_nonpos (sub_nonpos.2 (not_lt.1 down))] at before
    constructor <;> linarith

include small small' small'' nonzero

theorem walk_counted_up (up : a < b) {count : ℕ} (enough : stepCount a b s ≤ count) :
    walk (· + Float.ofInt |s|) (· < Float.ofInt b) (Float.ofInt b) count (Float.ofInt a) =
        counted a b s ∧
      walkEnds (· + Float.ofInt |s|) (· < Float.ofInt b) count (Float.ofInt a) = true := by
  have size : |(|s|)| ≤ 2 ^ 53 := by rwa [abs_abs]
  have short_iff (k : ℕ) : k < stepCount a b s ↔ countAt a b s k < b := by
    rw [lt_stepCount_iff nonzero, abs_of_pos (sub_pos.2 up), countAt, if_pos up, lt_sub_iff_add_lt']
  have next (k : ℕ) : countAt a b s k + |s| = countAt a b s (k + 1) := by
    simp only [countAt, if_pos up]
    push_cast
    ring
  refine walk_counted nonzero up.ne (fun k before => ?_) (fun k last => ?_) enough
  · have here := countAt_small small small' nonzero (k.lt_succ_self.trans before)
    have there := countAt_small small small' nonzero before
    refine ⟨?_, decide_eq_true ((ofInt_lt_iff there small').2 ((short_iff _).1 before))⟩
    rw [← next] at there ⊢
    exact ofInt_add here size there (abs_ne_zero.2 nonzero)
  · have here := countAt_small small small' nonzero (k.lt_succ_self.trans_eq last)
    have reached : b ≤ countAt a b s k + |s| := by
      rw [next, ← not_lt, ← short_iff]
      omega
    exact decide_eq_false (not_ofInt_add_lt here size small' reached)

theorem walk_counted_down (down : b < a) {count : ℕ} (enough : stepCount a b s ≤ count) :
    walk (· - Float.ofInt |s|) (· > Float.ofInt b) (Float.ofInt b) count (Float.ofInt a) =
        counted a b s ∧
      walkEnds (· - Float.ofInt |s|) (· > Float.ofInt b) count (Float.ofInt a) = true := by
  have size : |(|s|)| ≤ 2 ^ 53 := by rwa [abs_abs]
  have short_iff (k : ℕ) : k < stepCount a b s ↔ b < countAt a b s k := by
    rw [lt_stepCount_iff nonzero, abs_of_neg (sub_neg.2 down), countAt, if_neg down.not_gt, neg_sub,
      lt_sub_comm]
  have next (k : ℕ) : countAt a b s k - |s| = countAt a b s (k + 1) := by
    simp only [countAt, if_neg down.not_gt]
    push_cast
    ring
  refine walk_counted nonzero down.ne' (fun k before => ?_) (fun k last => ?_) enough
  · have here := countAt_small small small' nonzero (k.lt_succ_self.trans before)
    have there := countAt_small small small' nonzero before
    refine ⟨?_, decide_eq_true ((ofInt_lt_iff small' there).2 ((short_iff _).1 before))⟩
    rw [← next] at there ⊢
    exact ofInt_sub here size there (abs_ne_zero.2 nonzero)
  · have here := countAt_small small small' nonzero (k.lt_succ_self.trans_eq last)
    have reached : countAt a b s k - |s| ≤ b := by
      rw [next, ← not_lt, ← short_iff]
      omega
    exact decide_eq_false (not_lt_ofInt_sub here size small' reached)

theorem positions_ofInt {count : ℕ} (enough : stepCount a b s ≤ count) :
    positions ⟨Float.ofInt a, Float.ofInt b, (Float.ofInt s).abs⟩ count = counted a b s ∧
      complete ⟨Float.ofInt a, Float.ofInt b, (Float.ofInt s).abs⟩ count = true := by
  simp only [positions, complete, abs_ofInt small'', GT.gt, ofInt_lt_iff small small',
    ofInt_lt_iff small' small]
  obtain up | rfl | down := lt_trichotomy a b
  · rw [if_pos up, if_pos up]
    exact walk_counted_up small small' small'' nonzero up enough
  · simp [counted]
  · rw [if_neg down.not_gt, if_pos down, if_neg down.not_gt, if_pos down]
    exact walk_counted_down small small' small'' nonzero down enough

end Integers

end Bounds

namespace Eval

/-- The body is run at each of some positions in turn, in a frame of its own, with these values, and
the last run leaves the machine `n`. -/
inductive Ran (eval : Node → Eval Value) (counter : String) (body : Node) :
    List Float → List Value → (m n : Machine) → Prop where
  | nil {m : Machine} : Ran eval counter body [] [] m m
  | cons {position : Float} {value : Value} {positions : List Float} {values : List Value}
      {m k n : Machine} :
      withFrame [(counter, Value.real position)] (eval body) m = .ok value k →
      Ran eval counter body positions values k n →
      Ran eval counter body (position :: positions) (value :: values) m n

theorem Ran.foldlM_visit {eval : Node → Eval Value} {counter : String} {body : Node}
    {positions : List Float} {values : List Value} {m n : Machine}
    (ran : Ran eval counter body positions values m n) {start total : Value}
    (added : Value.totalOnto start values = .ok total) :
    positions.foldlM (visit eval counter body) start m = .ok total n := by
  induction ran generalizing start with
  | nil =>
    cases added
    rfl
  | @cons position value positions values m k n here rest ih =>
    rw [Value.totalOnto_cons] at added
    cases sum : Operator.add.apply start value with
    | error error =>
      rw [sum] at added
      contradiction
    | ok onto =>
      rw [sum] at added
      have pass : visit eval counter body start position m = .ok onto k := by
        rw [visit, bind_of_ok here, sum]
        rfl
      rw [List.foldlM_cons, bind_of_ok pass]
      exact ih added

theorem evalReal_of_ok {eval : Node → Eval Value} {node : Node} {x : Float} {m n : Machine}
    (value : eval node m = .ok (Value.real x) n) (message : String) :
    evalReal eval message node m = .ok x n := by
  rw [evalReal, bind_of_ok value, Value.real, Value.expectReal, if_pos (Number.isReal_real x)]
  rfl

end Eval

/-- A loop from the integer `a` to the integer `b` by steps of the integer `s`, none of them beyond
`2 ^ 53`, makes no pass if the bounds are equal. Otherwise it makes one more than the steps from `a`
that start short of `b`: pass `k` stands exactly `k` steps from `a` toward `b`, and the last pass
at `b`. If the body has a value on each of them and these can be added up, their total is the
value of the loop. -/
theorem evaluate_loop_counts {a b s : ℤ} (small : |a| ≤ 2 ^ 53) (small' : |b| ≤ 2 ^ 53)
    (small'' : |s| ≤ 2 ^ 53) (nonzero : s ≠ 0) {limits : Limits} {first second step : Node}
    {m m₁ m₂ n : Machine}
    (fromA : evaluate limits first m = .ok (Value.real (Float.ofInt a)) m₁)
    (toB : evaluate limits second m₁ = .ok (Value.real (Float.ofInt b)) m₂)
    (byS : evaluate limits step m₂ = .ok (Value.real (Float.ofInt s)) n)
    (enough : ⌈(|b - a| : ℚ) / |s|⌉₊ ≤ limits.passes) (counter : String) (body : Node) :
    let visited := Bounds.counted a b s
    let loop := evaluate ⟨limits.nesting + 1, limits.passes⟩ (.loop counter first second step body)
    loop m = visited.foldlM (Eval.visit (evaluate limits) counter body) Value.zero n ∧
      visited.length = (if a = b then 0 else ⌈(|b - a| : ℚ) / |s|⌉₊ + 1) ∧
      (∀ k < ⌈(|b - a| : ℚ) / |s|⌉₊, ∃ x, visited[k]? = some x ∧ x.isFinite = true ∧
        Double.exact x = (if a < b then a + k * |s| else a - k * |s| : ℤ)) ∧
      (a ≠ b → visited.getLast? = some (Float.ofInt b)) ∧
      ∀ (values : List Value) (total : Value) (n' : Machine),
        Eval.Ran (evaluate limits) counter body visited values n n' →
          Value.total values = .ok total → loop m = .ok total n' := by
  intro visited loop
  have passes : loop m =
      visited.foldlM (Eval.visit (evaluate limits) counter body) Value.zero n := by
    obtain ⟨listed, complete⟩ := Bounds.positions_ofInt small small' small'' nonzero enough
    obtain ⟨finite, -, value⟩ := Double.ofInt_small small''
    have counts : ¬(Float.ofInt s == 0.0) = true := by
      rw [Double.beq_zero_iff finite, value]
      exact_mod_cast nonzero
    change Eval.step (evaluate limits) limits.passes (.loop counter first second step body) m = _
    rw [Eval.step_loop_eq, Eval.visitLoop, Eval.bind_of_ok (Eval.evalReal_of_ok fromA _),
      Eval.bind_of_ok (Eval.evalReal_of_ok toB _), Eval.bind_of_ok (Eval.evalReal_of_ok byS _),
      if_neg counts]
    simp only [visited, listed, complete, if_true, bind_pure]
  refine ⟨passes, ?_, fun k before => ?_, fun apart => ?_, fun values total n' ran added => ?_⟩
  · exact Bounds.length_counted a b s
  · have apart : a ≠ b := by
      rintro rfl
      simp at before
    have within : k < Bounds.stepCount a b s := before
    obtain ⟨finite, -, value⟩ :=
      Double.ofInt_small (Bounds.countAt_small small small' nonzero before)
    refine ⟨Float.ofInt (Bounds.countAt a b s k), ?_, finite, value⟩
    simp [visited, Bounds.counted, apart, List.getElem?_append_left, within]
  · simp [visited, Bounds.counted, apart]
  · rw [passes]
    exact ran.foldlM_visit added

set_option maxRecDepth 2000 in
theorem evaluate_loop_counts_down :
    let number (k : ℤ) : Node := .number (Float.ofInt k) false
    let m := Machine.ofState State.initial
    Bounds.counted 2 (-3) (-2) = [2, 0, -2, -3].map Float.ofInt ∧
      ∃ n, evaluate ⟨400, 9⟩
        (.loop "i" (number 2) (number (-3)) (number (-2)) (.identifier "i")) m =
          .ok (Value.real (Float.ofInt (-3))) n := by
  intro number m
  have listed : Bounds.counted 2 (-3) (-2) = [2, 0, -2, -3].map Float.ofInt := by decide +kernel
  have enough : ⌈(|-3 - 2| : ℚ) / |-2|⌉₊ ≤ 9 := by decide +kernel
  have start : evaluate ⟨399, 9⟩ (number 2) m = .ok (Value.real (Float.ofInt 2)) m := rfl
  have stop : evaluate ⟨399, 9⟩ (number (-3)) m = .ok (Value.real (Float.ofInt (-3))) m := rfl
  have step : evaluate ⟨399, 9⟩ (number (-2)) m = .ok (Value.real (Float.ofInt (-2))) m := rfl
  obtain ⟨-, -, -, -, value⟩ := evaluate_loop_counts (a := 2) (b := -3) (s := -2) (by decide)
    (by decide) (by decide) (by decide) start stop step (by exact_mod_cast enough) "i"
    (.identifier "i")
  have ran : Eval.Ran (evaluate ⟨399, 9⟩) "i" (.identifier "i") (Bounds.counted 2 (-3) (-2))
      ([2, 0, -2, -3].map fun k => Value.real (Float.ofInt k)) m m := by
    rw [listed]
    exact .cons rfl (.cons rfl (.cons rfl (.cons rfl .nil)))
  have total : Value.total ([2, 0, -2, -3].map fun k => Value.real (Float.ofInt k)) =
      .ok (Value.real (Float.ofInt (-3))) := rfl
  exact ⟨listed, m, value _ _ m ran total⟩

set_option maxRecDepth 2000 in
/-- A body with a value at each of the counted positions, of which the loop visits only the first:
the vector found there cannot be added to zero. -/
theorem evaluate_loop_stops_at_vector :
    let number (k : ℤ) : Node := .number (Float.ofInt k) false
    let body : Node := .call "print" [.call "vec" [.identifier "i", number 1]]
    let m := Machine.ofState State.initial
    Bounds.counted 1 3 1 = [1, 2, 3].map Float.ofInt ∧
      (∃ values n, Eval.Ran (evaluate ⟨399, 9⟩) "i" body (Bounds.counted 1 3 1) values m n ∧
        n.output.size = 3) ∧
      ∃ n, evaluate ⟨400, 9⟩ (.loop "i" (number 1) (number 3) (number 1) body) m =
          .error (.error (.operatorType "+" "number" "vector" false)) n ∧
        n.output.size = 1 := by
  intro number body m
  have listed : Bounds.counted 1 3 1 = [1, 2, 3].map Float.ofInt := by decide +kernel
  rw [listed]
  exact ⟨rfl, ⟨_, _, .cons rfl (.cons rfl (.cons rfl .nil)), rfl⟩, _, rfl, rfl⟩

end Reckoner
