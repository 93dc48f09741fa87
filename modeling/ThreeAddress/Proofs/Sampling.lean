import ThreeAddress.Sample
import ThreeAddress.Proofs.BareExpressions

/-!
# What samples are

A sample is one of six shapes, filled with digits and letters (`Sample.Shape`), whatever words it is
drawn from (`Sample.always_expression`). Of a shape, normalization makes an assignment to `x`, in
which all products and powers are written out (`Sample.normalize_surface`). No draw matters beyond
the shape, for all digits are treated alike there, and all letters are.

That a word picks a value within its bound is what the digits rest on. The names are taken from a
list that gives its first where an index is out of it, so nothing is asked of those draws.
-/

set_option autoImplicit false

namespace ThreeAddress

/-! ## What can be drawn

A draw takes words from a list and gives a value and the words that are left. What holds of all its
values does not depend on how the words are spread, and so no probability comes into it. -/

namespace Draw

/-- Everything that can be drawn has the property. The chances are all lists of words, those that
run out included. -/
def Always {α : Type} (p : α → Prop) (draw : Draw α) : Prop :=
  ∀ chance, p (draw.run chance).1

variable {α β : Type} {p : α → Prop} {q : β → Prop}

theorem always_pure {a : α} (h : p a) : Always p (pure a : Draw α) := fun _ => h

/-- If a draw goes on with another, what can be drawn of the second may depend on what was drawn
first. -/
theorem Always.bind {draw : Draw α} {next : α → Draw β} (h : Always p draw)
    (hnext : ∀ a, p a → Always q (next a)) : Always q (draw >>= next) :=
  fun chance => hnext _ (h chance) (draw.run chance).2

theorem always_any (draw : Draw α) : Always (fun _ => True) draw := fun _ => trivial

/-- A word picks a value below the bound, if it picks one. -/
theorem lt_of_pick? {n value : Nat} {w : UInt32} (hn : 0 < n) (h : pick? n w = some value) :
    value < n := by
  rw [pick?] at h
  split at h
  · cases h
    rw [Nat.shiftRight_eq_div_pow, Nat.div_lt_iff_lt_mul (Nat.two_pow_pos 32), Nat.mul_comm]
    exact Nat.mul_lt_mul_of_pos_left w.toNat_lt hn
  · cases h

/-- A refused word is followed by another try, and when there are no tries left the value is zero.
-/
theorem always_belowWithin {n : Nat} (hn : 0 < n) (refusals : Nat) :
    Always (· < n) (belowWithin n refusals) := by
  induction refusals with
  | zero =>
    refine (always_any word).bind fun w _ => always_pure ?_
    cases h : pick? n w with
    | none => exact hn
    | some value => exact lt_of_pick? hn h
  | succ refusals ih =>
    refine (always_any word).bind fun w _ => ?_
    cases h : pick? n w with
    | none => exact ih
    | some value => exact always_pure (lt_of_pick? hn h)

theorem always_below {n : Nat} (hn : 0 < n) : Always (· < n) (below n) :=
  (always_any get).bind fun chance _ => always_belowWithin hn chance.words.length

end Draw

/-! ## Shapes

The six shapes are the templates of the generator, with one of them in two variants. A digit and a
letter carry the proof that they are from their lists. -/

namespace Sample

open Draw

/-- The digits that coefficients are. -/
def digits : List Char := ['1', '2', '3', '4', '5', '6', '7', '8', '9']

/-- The letters that variables are. -/
def letters : List Char := ['x', 'y', 'z', 'a', 'b']

abbrev Digit : Type := {c : Char // c ∈ digits}

abbrev Letter : Type := {c : Char // c ∈ letters}

/-- What an expression can be drawn as, with its letters and digits from left to right. -/
inductive Shape where
  | line (v : Letter) (a b : Digit)
  | square (v : Letter) (b c : Digit)
  | quadratic (v : Letter) (a b c : Digit)
  | plane (v w : Letter) (a b c : Digit)
  | product (v : Letter) (a b c d : Digit)
  | fractions (v : Letter) (a b c d e f : Digit)

/-- The text that is drawn. -/
def Shape.surface : Shape → List Char
  | line v a b => [a.1, v.1, ' ', '+', ' ', b.1]
  | square v b c => [v.1, '²', ' ', '+', ' ', b.1, v.1, ' ', '+', ' ', c.1]
  | quadratic v a b c =>
    [a.1, v.1, '^', '2', ' ', '-', ' ', b.1, v.1, ' ', '+', ' ', c.1]
  | plane v w a b c => [a.1, v.1, ' ', '+', ' ', b.1, w.1, ' ', '-', ' ', c.1]
  | product v a b c d =>
    ['(', a.1, v.1, ' ', '+', ' ', b.1, ')', '(', c.1, v.1, ' ', '-', ' ', d.1, ')']
  | fractions v a b c d e f =>
    ['(', a.1, v.1, ' ', '+', ' ', b.1, ')', '/', c.1, ' ', '+', ' ',
      '(', d.1, v.1, ' ', '-', ' ', e.1, ')', '/', f.1]

theorem always_coefficient : Always (fun s => ∃ a : Digit, s.toList = [a.1]) coefficient := by
  refine (always_below (by decide)).bind fun n hn => always_pure ?_
  -- nine numbers, and each is written as one digit
  have hdigits : ∀ n < 9, (n + 1).repr.toList = [(n + 1).digitChar] ∧
      (n + 1).digitChar ∈ digits := by
    decide
  exact ⟨⟨(n + 1).digitChar, (hdigits n hn).2⟩, (hdigits n hn).1⟩

/-- An index that is out of the list gives its first name. -/
theorem nameAt_toList (index : Nat) : ∃ v : Letter, (nameAt index).toList = [v.1] := by
  have hnames : ∀ name ∈ names, name.toList ∈ letters.map fun v => [v] := by decide
  have hmem : nameAt index ∈ names := by
    rw [nameAt, List.getD_eq_getElem?_getD]
    cases h : names[index]? with
    | none => exact List.mem_cons_self
    | some name => exact List.mem_of_getElem? h
  obtain ⟨v, hv, htext⟩ := List.mem_map.mp (hnames _ hmem)
  exact ⟨⟨v, hv⟩, htext.symm⟩

theorem always_name : Always (fun s => ∃ v : Letter, s.toList = [v.1]) name :=
  (always_any (below names.length)).bind fun index _ => always_pure (nameAt_toList index)

/-- Two names are drawn at once. Whatever the draw gives, both are from the list. -/
theorem always_twoNames :
    Always (fun s => (∃ v : Letter, s.1.toList = [v.1]) ∧ ∃ w : Letter, s.2.toList = [w.1])
      twoNames := by
  refine (always_any _).bind fun first _ => (always_any _).bind fun chosen _ => ?_
  split
  · exact always_pure ⟨nameAt_toList _, nameAt_toList _⟩
  · exact always_pure ⟨nameAt_toList 0, nameAt_toList 1⟩

/-- What is drawn is the text of a shape. -/
abbrev HasShape (s : String) : Prop := ∃ shape : Shape, s.toList = shape.surface

theorem always_line : Always HasShape line := by
  refine always_name.bind ?_
  rintro _ ⟨v, hv⟩
  refine always_coefficient.bind ?_
  rintro _ ⟨a, ha⟩
  refine always_coefficient.bind ?_
  rintro _ ⟨b, hb⟩
  exact always_pure ⟨.line v a b, by simp [hv, ha, hb, Shape.surface]⟩

theorem always_quadratic : Always HasShape quadratic := by
  refine always_name.bind ?_
  rintro _ ⟨v, hv⟩
  refine always_coefficient.bind ?_
  rintro _ ⟨b, hb⟩
  refine always_coefficient.bind ?_
  rintro _ ⟨c, hc⟩
  refine (always_any coin).bind fun heads _ => ?_
  cases heads with
  | true => exact always_pure ⟨.square v b c, by simp [hv, hb, hc, Shape.surface]⟩
  | false =>
    refine always_coefficient.bind ?_
    rintro _ ⟨a, ha⟩
    exact always_pure ⟨.quadratic v a b c, by simp [hv, ha, hb, hc, Shape.surface]⟩

theorem always_plane : Always HasShape plane := by
  refine always_twoNames.bind ?_
  rintro ⟨_, _⟩ ⟨⟨v, hv⟩, ⟨w, hw⟩⟩
  refine always_coefficient.bind ?_
  rintro _ ⟨a, ha⟩
  refine always_coefficient.bind ?_
  rintro _ ⟨b, hb⟩
  refine always_coefficient.bind ?_
  rintro _ ⟨c, hc⟩
  exact always_pure ⟨.plane v w a b c, by simp [hv, hw, ha, hb, hc, Shape.surface]⟩

theorem always_product : Always HasShape product := by
  refine always_name.bind ?_
  rintro _ ⟨v, hv⟩
  refine always_coefficient.bind ?_
  rintro _ ⟨a, ha⟩
  refine always_coefficient.bind ?_
  rintro _ ⟨b, hb⟩
  refine always_coefficient.bind ?_
  rintro _ ⟨c, hc⟩
  refine always_coefficient.bind ?_
  rintro _ ⟨d, hd⟩
  exact always_pure ⟨.product v a b c d, by simp [hv, ha, hb, hc, hd, Shape.surface]⟩

theorem always_fractions : Always HasShape fractions := by
  refine always_name.bind ?_
  rintro _ ⟨v, hv⟩
  refine always_coefficient.bind ?_
  rintro _ ⟨a, ha⟩
  refine always_coefficient.bind ?_
  rintro _ ⟨b, hb⟩
  refine always_coefficient.bind ?_
  rintro _ ⟨c, hc⟩
  refine always_coefficient.bind ?_
  rintro _ ⟨d, hd⟩
  refine always_coefficient.bind ?_
  rintro _ ⟨e, he⟩
  refine always_coefficient.bind ?_
  rintro _ ⟨f, hf⟩
  exact always_pure ⟨.fractions v a b c d e f, by simp [hv, ha, hb, hc, hd, he, hf, Shape.surface]⟩

theorem always_expression : Always HasShape expression := by
  refine (always_any (below 5)).bind fun template _ => ?_
  split
  · exact always_line
  · exact always_quadratic
  · exact always_plane
  · exact always_product
  · exact always_fractions

/-! ## Normalization

The normal form is computed on the six texts with letters and digits left open. What has to be known
of these is that they are none of the characters that normalization looks for, and on which side of
letter and digit they are. -/

/-- The source text that is made of a shape. -/
def Shape.source : Shape → List Char
  | line v a b => [a.1, '*', v.1, ' ', '+', ' ', b.1]
  | square v b c =>
    [v.1, '*', '*', '2', ' ', '+', ' ', b.1, '*', v.1, ' ', '+', ' ', c.1]
  | quadratic v a b c =>
    [a.1, '*', v.1, '*', '*', '2', ' ', '-', ' ', b.1, '*', v.1, ' ', '+', ' ', c.1]
  | plane v w a b c =>
    [a.1, '*', v.1, ' ', '+', ' ', b.1, '*', w.1, ' ', '-', ' ', c.1]
  | product v a b c d =>
    ['(', a.1, '*', v.1, ' ', '+', ' ', b.1, ')', '*',
      '(', c.1, '*', v.1, ' ', '-', ' ', d.1, ')']
  | fractions v a b c d e f =>
    ['(', a.1, '*', v.1, ' ', '+', ' ', b.1, ')', '/', c.1, ' ', '+', ' ',
      '(', d.1, '*', v.1, ' ', '-', ' ', e.1, ')', '/', f.1]

section

open Surface

variable (a : Digit) (v : Letter)

theorem of_all_digits {p : Char → Bool} (h : digits.all p) : p a.1 := List.all_eq_true.mp h a.1 a.2

theorem of_all_letters {p : Char → Bool} (h : letters.all p) : p v.1 :=
  List.all_eq_true.mp h v.1 v.2

@[simp] theorem isDigit_digit : a.1.isDigit := of_all_digits a rfl

@[simp] theorem isAlpha_digit : a.1.isAlpha = false := by
  simpa using of_all_digits a (p := (!·.isAlpha)) rfl

@[simp] theorem isAlpha_letter : v.1.isAlpha := of_all_letters v rfl

@[simp] theorem isWhiteSpace_digit : isWhiteSpace a.1 = false := by
  simpa using of_all_digits a (p := (!isWhiteSpace ·)) rfl

@[simp] theorem isWhiteSpace_letter : isWhiteSpace v.1 = false := by
  simpa using of_all_letters v (p := (!isWhiteSpace ·)) rfl

/-- A digit is none of the other characters that are looked for. -/
@[simp] theorem digit_ne :
    a.1 ≠ '²' ∧ a.1 ≠ '^' ∧ a.1 ≠ ')' ∧ a.1 ≠ '_' ∧ '=' ≠ a.1 ∧ '*' ≠ a.1 := by
  simpa [and_assoc] using of_all_digits a
    (p := fun c => c ≠ '²' && c ≠ '^' && c ≠ ')' && c ≠ '_' && '=' ≠ c && '*' ≠ c) rfl

@[simp] theorem letter_ne :
    v.1 ≠ '²' ∧ v.1 ≠ '^' ∧ v.1 ≠ ')' ∧ v.1 ≠ '_' ∧ '=' ≠ v.1 ∧ '*' ≠ v.1 := by
  simpa [and_assoc] using of_all_letters v
    (p := fun c => c ≠ '²' && c ≠ '^' && c ≠ ')' && c ≠ '_' && '=' ≠ c && '*' ≠ c) rfl

/-- A star comes between a digit and a letter and between parentheses, and squares are written out.
-/
theorem multiplied_surface (shape : Shape) : multiplied shape.surface = shape.source := by
  cases shape <;>
    simp [multiplied, Shape.surface, Shape.source, expandSquares, expandCarets_cons, expandCarets,
      multiplyNames, multiplyParens_cons, multiplyParens, Ahead.after]

/-- What is compiled is an assignment of the source text to `x`. -/
theorem normalize_surface {text : String} {shape : Shape} (h : text.toList = shape.surface) :
    (Surface.normalize "x" text).toList = assignText ⟨"x", .point 0⟩ shape.source := by
  have hassign : shape.source.contains '=' = false := by
    cases shape <;> simp [Shape.source]
  -- neither end of a source text is a blank
  have htrim : trimWhiteSpace shape.source = shape.source := by
    have hopen : isWhiteSpace '(' = false := rfl
    have hclose : isWhiteSpace ')' = false := rfl
    apply trimWhiteSpace_eq_self
    · cases shape <;> simp [Shape.source, hopen]
    · cases shape <;> simp [Shape.source, hclose]
  have hsource : multiplyParens (multiplyNames (expandCarets .nothing (expandSquares text.toList)))
      = shape.source := by
    rw [h, ← multiplied_surface]
    rfl
  simp only [Surface.normalize, hsource, assignBare, hassign, Bool.false_eq_true, if_false, htrim,
    String.toList_ofList]
  rfl

end

end Sample

end ThreeAddress
