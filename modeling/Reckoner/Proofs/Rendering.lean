import Reckoner.Proofs.Reading
import Reckoner.Value.Text

/-! What the text of a value shows. Two values have the same text if and only if they are the same
but for the signs of zeros that are not written. The text of a double has none of the characters
that separate and enclose values, so that a value that stands before a separator or a bracket can be
told from all that follows. -/
namespace Reckoner

namespace Decimal.Positional

variable {negative : Bool} {whole fraction text : List Char}

theorem mem_cases (h : Positional negative whole fraction text) {c : Char} (member : c ∈ text) :
    c = '-' ∨ c = '.' ∨ c.isDigit = true := by
  rw [h.layout, List.mem_append, List.mem_append] at member
  obtain (sign | inWhole) | inFraction := member
  · cases negative <;> simp_all
  · exact .inr (.inr (h.whole_digits c inWhole))
  · split at inFraction
    · simp at inFraction
    · obtain rfl | later := List.mem_cons.1 inFraction
      · exact .inr (.inl rfl)
      · exact .inr (.inr (h.fraction_digits c later))

theorem ne_nil (h : Positional negative whole fraction text) : text ≠ [] := by
  have := h.nonempty
  simp [h.layout, this]

theorem isDigit_getLast? (h : Positional negative whole fraction text) {c : Char}
    (last : text.getLast? = some c) : c.isDigit = true := by
  rw [h.layout] at last
  by_cases none : fraction = []
  · rw [if_pos none, List.append_nil, List.getLast?_append_of_ne_nil _ h.nonempty] at last
    exact h.whole_digits c (List.mem_of_getLast? last)
  · rw [if_neg none, List.getLast?_append_of_ne_nil _ (by simp),
      List.getLast?_cons_of_ne_nil none] at last
    exact h.fraction_digits c (List.mem_of_getLast? last)

end Decimal.Positional

namespace Double

def isMark (c : Char) : Bool := c.isDigit || ['-', '.', 'N', 'a', 'i', 'n', 'f'].contains c

theorem render_cases {P : List Char → Prop} (x : Float) (nan : P ['N', 'a', 'N'])
    (negative : P ['-', 'i', 'n', 'f']) (positive : P ['i', 'n', 'f'])
    (finite : ∀ {sign whole fraction text}, Decimal.Positional sign whole fraction text → P text) :
    P (render x) := by
  unfold render
  split_ifs
  · exact nan
  · exact negative
  · exact positive
  · obtain ⟨whole, fraction, positional, -⟩ := Decimal.writes_layout (Decimal.shortest x)
    exact finite positional

theorem all_render (x : Float) : (render x).all isMark = true := by
  refine render_cases (P := fun text => text.all isMark = true) x rfl rfl rfl fun positional => ?_
  rw [List.all_eq_true]
  intro c member
  obtain rfl | rfl | digit := positional.mem_cases member
  · rfl
  · rfl
  · rw [isMark, digit, Bool.true_or]

theorem render_ne_nil (x : Float) : render x ≠ [] :=
  render_cases (P := fun text => text ≠ []) x nofun nofun nofun fun positional => positional.ne_nil

theorem getLast?_render_ne (x : Float) : (render x).getLast? ≠ some 'i' := by
  refine render_cases (P := fun text => text.getLast? ≠ some 'i') x (by decide) (by decide)
    (by decide) fun positional last => ?_
  have digit := positional.isDigit_getLast? last
  contradiction

def dropZeroSign (x : Float) : Float := if x == 0.0 then 0.0 else x

theorem eq_one {x : Float} (same : (x == 1.0) = true) : x = 1.0 := by
  obtain ⟨-, -, here | ⟨-, zero⟩ | ⟨-, zero⟩⟩ := Float.beq_iff_ne_nan_and_eq.1 same
  · exact here
  · exact absurd zero (by decide)
  · exact absurd zero (by decide)

end Double

theorem append_inj_of_all {α : Type} {p : α → Bool} {a b rest others : List α}
    (left : ∀ c ∈ a, p c = true) (right : ∀ c ∈ b, p c = true)
    (ends : ∀ c ∈ rest.head?, p c = false) (ends' : ∀ c ∈ others.head?, p c = false)
    (same : a ++ rest = b ++ others) : a = b ∧ rest = others := by
  have taken {l r : List α} (all : ∀ c ∈ l, p c = true) (ends : ∀ c ∈ r.head?, p c = false) :
      (l ++ r).takeWhile p = l := by
    rw [List.takeWhile_append_of_pos all]
    cases r with
    | nil => simp
    | cons c r => simp_all
  have heads : a = b := by rw [← taken left ends, same, taken right ends']
  subst heads
  exact ⟨rfl, List.append_cancel_left same⟩

/-- A double is known from its text, and so is what follows, if that starts with a character that
no text of a double has. -/
theorem Double.render_append_inj {x y : Float} {c : Char} {rest others : List Char}
    (other : isMark c = false) (same : render x ++ c :: rest = render y ++ c :: others) :
    x = y ∧ rest = others := by
  obtain ⟨texts, tails⟩ := append_inj_of_all (List.all_eq_true.1 (all_render x))
    (List.all_eq_true.1 (all_render y)) (by simp [other]) (by simp [other]) same
  exact ⟨render_injective texts, List.tail_eq_of_cons_eq tails⟩

namespace Number

open Double

/-- The number without the sign of a zero imaginary part, and without that of a zero real part
beside an imaginary part that is not zero. Of NaNs there is but one. -/
def shown (n : Number) : Number :=
  ⟨if n.im == 0.0 then n.re else dropZeroSign n.re, dropZeroSign n.im⟩

section Shown

variable {n : Number}

theorem shown_of_real (real : (n.im == 0.0) = true) : n.shown = ⟨n.re, 0.0⟩ := by
  simp only [shown, dropZeroSign, real, if_true]

theorem shown_of_imaginary (unreal : ¬(n.im == 0.0) = true) (imaginary : (n.re == 0.0) = true) :
    n.shown = ⟨0.0, n.im⟩ := by
  simp only [shown, dropZeroSign, if_neg unreal, if_pos imaginary]

theorem shown_of_both (unreal : ¬(n.im == 0.0) = true) (unimaginary : ¬(n.re == 0.0) = true) :
    n.shown = n := by
  simp only [shown, dropZeroSign, if_neg unreal, if_neg unimaginary]

theorem render_shown (n : Number) : n.shown.render = n.render := by
  have zero : ((0.0 : Float) == 0.0) = true := rfl
  by_cases real : (n.im == 0.0) = true
  · rw [shown_of_real real, render, render, if_pos zero, if_pos real]
  · by_cases imaginary : (n.re == 0.0) = true
    · rw [shown_of_imaginary real imaginary, render, render, if_neg real, if_pos zero, if_neg real,
        if_pos imaginary]
    · rw [shown_of_both real imaginary]

end Shown

def renderBeforeUnit (n : Number) : List Char :=
  if n.re == 0.0 then if n.im == 1.0 then [] else Double.render n.im
  else Double.render n.re ++ ' ' ::
    if 0.0 < n.im then '+' :: ' ' :: Double.render n.im else '-' :: ' ' :: Double.render (-n.im)

theorem render_eq (n : Number) : n.render =
    if n.im == 0.0 then Double.render n.re else n.renderBeforeUnit ++ ['i'] := by
  unfold render renderBeforeUnit
  split_ifs <;> simp

theorem mem_renderBeforeUnit (n : Number) : ' ' ∈ n.renderBeforeUnit ↔ ¬(n.re == 0.0) = true := by
  unfold renderBeforeUnit
  split_ifs with imaginary one positive
  · simp [imaginary]
  · simp only [imaginary, not_true, iff_false]
    exact fun member => absurd (List.all_eq_true.1 (Double.all_render n.im) _ member) (by decide)
  · simp [imaginary]
  · simp [imaginary]

theorem im_eq_of_imaginary {m n : Number} (left : (m.re == 0.0) = true)
    (right : (n.re == 0.0) = true) (same : m.renderBeforeUnit = n.renderBeforeUnit) :
    m.im = n.im := by
  unfold renderBeforeUnit at same
  rw [if_pos left, if_pos right] at same
  split_ifs at same with one one' one'
  · rw [eq_one one, eq_one one']
  · exact absurd same.symm (render_ne_nil _)
  · exact absurd same (render_ne_nil _)
  · exact render_injective same

theorem eq_of_both {m n : Number} (left : ¬(m.re == 0.0) = true) (right : ¬(n.re == 0.0) = true)
    (same : m.renderBeforeUnit = n.renderBeforeUnit) : m = n := by
  unfold renderBeforeUnit at same
  rw [if_neg left, if_neg right] at same
  obtain ⟨re, rest⟩ := render_append_inj rfl same
  have im : m.im = n.im := by
    split_ifs at rest
    · exact render_injective (List.tail_eq_of_cons_eq (List.tail_eq_of_cons_eq rest))
    · exact absurd (List.head_eq_of_cons_eq rest) (by decide)
    · exact absurd (List.head_eq_of_cons_eq rest) (by decide)
    · exact negation_involutive.injective
        (render_injective (List.tail_eq_of_cons_eq (List.tail_eq_of_cons_eq rest)))
  exact congrArg₂ Number.mk re im

theorem shown_eq_of_render_eq {m n : Number} (same : m.render = n.render) : m.shown = n.shown := by
  rw [render_eq, render_eq] at same
  by_cases real : (m.im == 0.0) = true <;> by_cases real' : (n.im == 0.0) = true
  · rw [if_pos real, if_pos real'] at same
    rw [shown_of_real real, shown_of_real real', render_injective same]
  · rw [if_pos real, if_neg real'] at same
    exact absurd (by rw [same, List.getLast?_concat]) (getLast?_render_ne m.re)
  · rw [if_neg real, if_pos real'] at same
    exact absurd (by rw [← same, List.getLast?_concat]) (getLast?_render_ne n.re)
  · rw [if_neg real, if_neg real'] at same
    have before := List.append_cancel_right same
    have both : ¬(m.re == 0.0) = true ↔ ¬(n.re == 0.0) = true := by
      rw [← mem_renderBeforeUnit, before, mem_renderBeforeUnit]
    by_cases imaginary : (m.re == 0.0) = true
    · have imaginary' : (n.re == 0.0) = true := not_not.1 fun h => both.2 h imaginary
      rw [shown_of_imaginary real imaginary, shown_of_imaginary real' imaginary',
        im_eq_of_imaginary imaginary imaginary' before]
    · rw [eq_of_both imaginary (both.1 imaginary) before]

def isMark (c : Char) : Bool := Double.isMark c || c == ' ' || c == '+'

theorem all_render (n : Number) : n.render.all isMark = true := by
  have double (x : Float) : (Double.render x).all isMark = true := by
    rw [List.all_eq_true]
    intro c member
    rw [isMark, List.all_eq_true.1 (Double.all_render x) c member, Bool.true_or, Bool.true_or]
  have unit : ['i'].all isMark = true := rfl
  have plus : [' ', '+', ' '].all isMark = true := rfl
  have minus : [' ', '-', ' '].all isMark = true := rfl
  unfold render
  split_ifs <;> simp only [List.all_append, double, unit, plus, minus, Bool.and_self]

theorem render_ne_nil (n : Number) : n.render ≠ [] := by
  rw [render_eq]
  split
  · exact Double.render_ne_nil n.re
  · simp

theorem render_append_ne (n : Number) {c : Char} (bracket : isMark c = false)
    (rest others : List Char) : n.render ++ rest ≠ c :: others := by
  obtain ⟨d, tail, starts⟩ := List.exists_cons_of_ne_nil n.render_ne_nil
  have mark := List.all_eq_true.1 n.all_render d (by simp [starts])
  rw [starts]
  intro same
  rw [List.head_eq_of_cons_eq same, bracket] at mark
  contradiction

end Number

theorem Vec.render_append_inj {v w : Vec} {rest others : List Char}
    (same : v.render ++ rest = w.render ++ others) : v = w ∧ rest = others := by
  simp only [Vec.render, List.cons_append, List.append_assoc, List.nil_append,
    List.cons.injEq, true_and] at same
  obtain ⟨x, same⟩ := Double.render_append_inj rfl same
  obtain ⟨y, same⟩ := Double.render_append_inj rfl (List.tail_eq_of_cons_eq same)
  exact ⟨congrArg₂ Vec.mk x y, same⟩

namespace Value

mutual

def shown : Value → Value
  | .number n => .number n.shown
  | .vector v => .vector v
  | .array items => .array (shownAll items)

def shownAll : List Value → List Value
  | [] => []
  | item :: rest => item.shown :: shownAll rest

end

mutual

theorem render_shown : (v : Value) → v.shown.render = v.render
  | .number n => n.render_shown
  | .vector _ => rfl
  | .array items => by rw [shown, render, render, renderItems_shownAll items]

theorem renderItems_shownAll :
    (items : List Value) → renderItems (shownAll items) = renderItems items
  | [] => rfl
  | [item] => by
    rw [shownAll, shownAll, renderItems, renderItems, render_shown item]
  | item :: next :: rest => by
    have others := renderItems_shownAll (next :: rest)
    rw [shownAll] at others
    rw [shownAll, shownAll, renderItems, renderItems, render_shown item, others]

end

theorem render_append_ne (v : Value) (rest others : List Char) :
    v.render ++ rest ≠ ']' :: others := by
  cases v with
  | number n => exact n.render_append_ne rfl rest others
  | vector v => exact fun same => absurd (List.head_eq_of_cons_eq same) (by decide)
  | array items => exact fun same => absurd (List.head_eq_of_cons_eq same) (by decide)

def Ends (rest : List Char) : Prop := ∀ c ∈ rest.head?, c = ',' ∨ c = ']'

theorem Ends.isMark {rest : List Char} (ends : Ends rest) :
    ∀ c ∈ rest.head?, Number.isMark c = false := by
  intro c member
  obtain rfl | rfl := ends c member <;> rfl

def renderRest : List Value → List Char
  | [] => []
  | next :: rest => ',' :: ' ' :: renderItems (next :: rest)

theorem renderItems_cons (item : Value) (rest : List Value) :
    renderItems (item :: rest) = item.render ++ renderRest rest := by
  cases rest with
  | nil => rw [renderItems, renderRest, List.append_nil]
  | cons next rest => rw [renderItems, renderRest]

theorem ends_renderRest (items : List Value) (rest : List Char) :
    Ends (renderRest items ++ ']' :: rest) := by
  cases items <;> simp [Ends, renderRest]

theorem renderRest_append_inj {items items' : List Value} {rest others : List Char}
    (known : renderItems items ++ ']' :: rest = renderItems items' ++ ']' :: others →
      shownAll items = shownAll items' ∧ rest = others)
    (same : renderRest items ++ ']' :: rest = renderRest items' ++ ']' :: others) :
    shownAll items = shownAll items' ∧ rest = others := by
  cases items with
  | nil =>
    cases items' with
    | nil => exact ⟨rfl, List.tail_eq_of_cons_eq same⟩
    | cons => exact absurd (List.head_eq_of_cons_eq same) (by decide)
  | cons =>
    cases items' with
    | nil => exact absurd (List.head_eq_of_cons_eq same) (by decide)
    | cons => exact known (List.tail_eq_of_cons_eq (List.tail_eq_of_cons_eq same))

mutual

/-- A value is known, as far as it is shown, from a text that it starts, and so is the rest. -/
theorem render_append_inj : (v w : Value) → {rest others : List Char} → Ends rest → Ends others →
    v.render ++ rest = w.render ++ others → v.shown = w.shown ∧ rest = others
  | .number m, .number n, _, _, ends, ends', same => by
    obtain ⟨texts, tails⟩ := append_inj_of_all (List.all_eq_true.1 m.all_render)
      (List.all_eq_true.1 n.all_render) ends.isMark ends'.isMark same
    exact ⟨congrArg Value.number (Number.shown_eq_of_render_eq texts), tails⟩
  | .vector v, .vector w, _, _, _, _, same => by
    obtain ⟨rfl, tails⟩ := Vec.render_append_inj same
    exact ⟨rfl, tails⟩
  | .array items, .array items', _, _, _, _, same => by
    simp only [render, List.cons_append, List.append_assoc, List.nil_append, List.cons.injEq,
      true_and] at same
    obtain ⟨shown, tails⟩ := renderItems_append_inj items items' same
    exact ⟨congrArg Value.array shown, tails⟩
  | .number m, .vector _, _, _, _, _, same => absurd same (m.render_append_ne rfl _ _)
  | .number m, .array _, _, _, _, _, same => absurd same (m.render_append_ne rfl _ _)
  | .vector _, .number n, _, _, _, _, same => absurd same.symm (n.render_append_ne rfl _ _)
  | .array _, .number n, _, _, _, _, same => absurd same.symm (n.render_append_ne rfl _ _)
  | .vector _, .array _, _, _, _, _, same => absurd (List.head_eq_of_cons_eq same) (by decide)
  | .array _, .vector _, _, _, _, _, same => absurd (List.head_eq_of_cons_eq same) (by decide)

theorem renderItems_append_inj : (items items' : List Value) → {rest others : List Char} →
    renderItems items ++ ']' :: rest = renderItems items' ++ ']' :: others →
    shownAll items = shownAll items' ∧ rest = others
  | [], [], _, _, same => ⟨rfl, List.tail_eq_of_cons_eq same⟩
  | [], item :: tail, _, _, same => by
    rw [renderItems_cons, List.append_assoc] at same
    exact absurd same.symm (item.render_append_ne _ _)
  | item :: tail, [], _, _, same => by
    rw [renderItems_cons, List.append_assoc] at same
    exact absurd same (item.render_append_ne _ _)
  | item :: tail, item' :: tail', _, _, same => by
    rw [renderItems_cons, renderItems_cons, List.append_assoc, List.append_assoc] at same
    obtain ⟨first, same⟩ :=
      render_append_inj item item' (ends_renderRest tail _) (ends_renderRest tail' _) same
    obtain ⟨later, same⟩ := renderRest_append_inj (renderItems_append_inj tail tail') same
    exact ⟨congrArg₂ List.cons first later, same⟩

end

/-- Two values have the same text if and only if they are the same but for the signs of the zeros
that no text shows. -/
theorem text_eq_iff (v w : Value) : v.text = w.text ↔ v.shown = w.shown := by
  rw [text, text, String.ofList_inj]
  constructor
  · intro same
    have ends : Ends [] := nofun
    exact (render_append_inj v w ends ends (by rw [same])).1
  · intro same
    rw [← render_shown v, same, render_shown w]

end Value

end Reckoner
