import ThreeAddress.Proofs.Sampling

/-!
# Sample expressions compile

Whatever words a sample is drawn from, it is compiled, its value is not known, and what is left of
its code writes `x` last (`ofText_ofWords`).

A sample is one of six shapes, and the source text that is made of a shape is read as one
expression (`Shape.expr`), with the digits and letters of the shape in their places. In these
expressions every operator has a name under it (`Expr.Unsettled`). So there is nothing that could be
carried out beforehand, and nothing that could fail.
-/

set_option autoImplicit false

namespace ThreeAddress

open Interpretation (partly)

/-! ## Expressions with nothing to carry out

Compiling a sample could fail in evaluation, if an operator were applied to known operands. That
there are none is a property of the expression alone. -/

namespace Expr

/-- Every operator in the expression has a name under it. The names need not be right below; one
anywhere under the operator is enough. -/
def Unsettled : Expr → Prop
  | literal _ _ => True
  | paren inner _ => inner.Unsettled
  | unary _ _ operand _ => operand.Unsettled ∧ operand.names ≠ []
  | binary _ _ lhs rhs _ => lhs.Unsettled ∧ rhs.Unsettled ∧ lhs.names ++ rhs.names ≠ []

/-- No operator is carried out on what is known, so none fails. By induction: the operands are got
through, and one of them is unknown. -/
theorem exists_eval_partly {e : Expr} (h : e.Unsettled) :
    ∃ known, e.eval partly unknown = .ok known := by
  induction e with
  | literal value span => exact ⟨_, rfl⟩
  | paren inner span ih => exact ih h
  | unary op opSpan operand span ih =>
    obtain ⟨known, hknown⟩ := ih h.1
    cases op with
    | pos => exact ⟨known, hknown⟩
    | neg =>
      cases known with
      | none => exact ⟨none, eval_neg_eq_ok.mpr ⟨none, hknown, rfl⟩⟩
      | some v => exact absurd ((eval_partly_unknown hknown).1.mp rfl) h.2
  | binary op opSpan lhs rhs span ihl ihr =>
    obtain ⟨left, hleft⟩ := ihl h.1
    obtain ⟨right, hright⟩ := ihr h.2.1
    refine ⟨none, eval_binary_eq_ok.mpr ⟨left, right, hleft, hright, ?_⟩⟩
    -- if both sides were known, there would be no names in either of them
    cases left with
    | none => rfl
    | some v =>
      cases right with
      | none => rfl
      | some w =>
        have hl := (eval_partly_unknown hleft).1.mp rfl
        have hr := (eval_partly_unknown hright).1.mp rfl
        exact absurd (List.append_eq_nil_iff.mpr ⟨hl, hr⟩) h.2.2

theorem names_bare (e : Expr) : e.bare.names = e.names := by
  induction e with
  | literal value span => cases value <;> rfl
  | paren inner span ih => exact ih
  | unary op opSpan operand span ih => exact ih
  | binary op opSpan lhs rhs span ihl ihr => simp only [bare, names, ihl, ihr]

theorem unsettled_bare (e : Expr) : e.bare.Unsettled ↔ e.Unsettled := by
  induction e with
  | literal value span => exact Iff.rfl
  | paren inner span ih => exact ih
  | unary op opSpan operand span ih => simp only [bare, Unsettled, names_bare, ih]
  | binary op opSpan lhs rhs span ihl ihr => simp only [bare, Unsettled, names_bare, ihl, ihr]

end Expr

variable {target : String} {value : Expr} {cs : List Char}

/-- Folding does not fail on the code of such an expression. Were there a fault, the partial
evaluator would have met it. -/
theorem exists_ofCode (target : String) (place span : Span) (h : value.Unsettled) :
    ∃ folded, Folded.ofCode target (linearize [.assign ⟨target, place⟩ value span])
      = .ok folded := by
  cases hfold : Folded.ofCode target (linearize [.assign ⟨target, place⟩ value span]) with
  | ok folded => exact ⟨folded, rfl⟩
  | error diagnostic =>
    obtain ⟨known, hknown⟩ := Expr.exists_eval_partly h
    have hpartly := partly_of_sweep_error (sweep_of_ofCode_error hfold)
    simp only [evaluate, Stmt.exec, hknown] at hpartly
    cases hpartly

/-- What there is to be known of a text that is one assignment, whose value stays open. It says
nothing of which expression is assigned. -/
structure LeftOpen (target : String) (compiled : Compiled) : Prop where
  stmts : ∃ place value span, compiled.stmts = [.assign ⟨target, place⟩ value span]
  result : compiled.folded.result = none
  writesLast : WritesLast target compiled.folded.code

/-- A text is compiled, and its value left open, if its source text is read as an expression with
names in it, and under every operator. Reading gives the expression but for its places, and neither
of the two conditions depends on those. -/
theorem exists_ofText {text : String} (hname : IsName target.toList)
    (hsource : (Surface.normalize target text).toList = assignText ⟨target, .point 0⟩ cs)
    (hread : value.ReadFrom cs) (hunsettled : value.Unsettled) (hnames : value.names ≠ []) :
    ∃ compiled, Compiled.ofText target text = .ok compiled ∧ LeftOpen target compiled := by
  obtain ⟨stmt, hparse, hbare⟩ := parseProgram_of_text hsource hname hread
  cases stmt with
  | unsupported kind span => cases hbare
  | assign ident value' span =>
    obtain ⟨name, place⟩ := ident
    simp only [Stmt.bare, Stmt.assign.injEq, Ident.mk.injEq, and_true] at hbare
    obtain ⟨rfl, hvalue⟩ := hbare
    have hunsettled' : value'.Unsettled := by
      rwa [← Expr.unsettled_bare, hvalue, Expr.unsettled_bare]
    have hnames' : value'.names ≠ [] := by
      rwa [← Expr.names_bare, hvalue, Expr.names_bare]
    obtain ⟨folded, hfold⟩ := exists_ofCode name place span hunsettled'
    obtain ⟨hknown, -, hlast⟩ := ofCode_bare (List.forall_mem_nil _) hfold
    have hresult : folded.result = none := by
      rw [← Option.not_isSome_iff_eq_none, hknown]
      exact hnames'
    exact ⟨_, Compiled.ofText_ok_iff.mpr ⟨_, folded, hparse, hfold, rfl⟩,
      ⟨place, value', span, rfl⟩, hresult, hlast hresult⟩

/-! ## The expressions of the shapes

Each shape is put together from a few pieces: terms, powers and sums of them in parentheses. The
source text is put together from the same pieces, so that reading goes piece by piece. -/

namespace Sample

/-! Places play no part here. -/

def Digit.expr (a : Digit) : Expr :=
  .literal (.int (.ofNat (Token.digitsValue [a.1]))) (.point 0)

def Letter.expr (v : Letter) : Expr := .literal (.name (String.singleton v.1)) (.point 0)

/-- An operator between two sides. -/
def joined (op : BinOp) (lhs rhs : Expr) : Expr := .binary op (.point 0) lhs rhs (.point 0)

def inParens (inner : Expr) : Expr := .paren inner (.point 0)

/-- A digit times a letter. -/
def term (a : Digit) (v : Letter) : Expr := joined .mul a.expr v.expr

/-- The square of a letter. -/
def power (v : Letter) : Expr := joined .exp v.expr (Digit.expr ⟨'2', by decide⟩)

/-- A term and a digit, between parentheses. -/
def binomial (op : BinOp) (a : Digit) (v : Letter) (b : Digit) : Expr :=
  inParens (joined op (term a v) b.expr)

/-- The expression that a shape is. -/
def Shape.expr : Shape → Expr
  | line v a b => joined .add (term a v) b.expr
  | square v b c => joined .add (joined .add (power v) (term b v)) c.expr
  | quadratic v a b c =>
    joined .add (joined .sub (joined .mul a.expr (power v)) (term b v)) c.expr
  | plane v w a b c => joined .sub (joined .add (term a v) (term b w)) c.expr
  | product v a b c d => joined .mul (binomial .add a v b) (binomial .sub c v d)
  | fractions v a b c d e f =>
    joined .add (joined .div (binomial .add a v b) c.expr)
      (joined .div (binomial .sub d v e) f.expr)

/-! ### How they are cut

For each piece: the text of it is cut into its tokens. The operators of products, powers and
quotients stand without blanks, so that it has to be seen that what stands behind them does not make
them longer. -/

section

variable (a b : Digit) (v : Letter)

theorem cutsTo_digit : a.expr.CutsTo [a.1] := by
  -- nine digits, which are gone through one by one
  have hdigit := of_all_digits a (p := fun c =>
    (Number.intText (.ofNat (Token.digitsValue [c]))).toList = [c] &&
      0 ≤ (Int64.ofNat (Token.digitsValue [c])).toInt) (by decide +kernel)
  rw [Bool.and_eq_true, decide_eq_true_eq, decide_eq_true_eq] at hdigit
  have hprints : (Literal.int (.ofNat (Token.digitsValue [a.1]))).Prints := hdigit.2
  exact hdigit.1 ▸ cutsTo_literal hprints _

theorem cutsTo_letter : v.expr.CutsTo [v.1] := by
  have hprints : (Literal.name (String.singleton v.1)).Prints := by
    simp [Literal.Prints, IsName, isNameStart]
  exact String.toList_singleton v.1 ▸ cutsTo_literal hprints _

theorem beginsOperand_digit (rest : List Char) : BeginsOperand (a.1 :: rest) := by
  refine ⟨a.1, rest, rfl, ne_of_isDigit (isDigit_digit a) rfl, ?_⟩
  exact isBlank_of_isDigit (isDigit_digit a)

theorem beginsOperand_letter (rest : List Char) : BeginsOperand (v.1 :: rest) := by
  refine ⟨v.1, rest, rfl, ne_comm.mp (by simp), ?_⟩
  exact isBlank_of_isNameStart (by simp [isNameStart])

theorem beginsOperand_paren (rest : List Char) : BeginsOperand ('(' :: rest) :=
  ⟨'(', rest, rfl, by decide, by decide⟩

/-- A star is a token by itself, unless another star or an `=` stands behind it. -/
theorem munch_mul {c : Char} (hstar : '*' ≠ c) (hassign : '=' ≠ c) (rest : List Char) :
    TokenKind.munch '*' (c :: rest) = (.mul, 0) := by
  have hstar' : ('*' == c) = false := by simpa using hstar
  have hassign' : ('=' == c) = false := by simpa using hassign
  simp [TokenKind.munch, TokenKind.spellings, isLineEnd, isBlank, isNameStart, List.isPrefixOf,
    hstar', hassign']

theorem munch_div {c : Char} (hassign : '=' ≠ c) (rest : List Char) :
    TokenKind.munch '/' (c :: rest) = (.div, 0) := by
  have hassign' : ('=' == c) = false := by simpa using hassign
  simp [TokenKind.munch, TokenKind.spellings, isLineEnd, isBlank, isNameStart, List.isPrefixOf,
    hassign']

theorem cutOff_mul {c : Char} (hstar : '*' ≠ c) (hassign : '=' ≠ c) (ds : List Char) :
    BinOp.mul.CutOff (c :: ds) :=
  fun rest => ⟨'*', [], rfl, by decide, munch_mul hstar hassign (ds ++ rest)⟩

theorem cutOff_div {c : Char} (hassign : '=' ≠ c) (ds : List Char) : BinOp.div.CutOff (c :: ds) :=
  fun rest => ⟨'/', [], rfl, by decide, munch_div hassign (ds ++ rest)⟩

theorem cutsTo_term : (term a v).CutsTo [a.1, '*', v.1] :=
  cutsTo_tight (cutsTo_digit a) (cutsTo_letter v) (cutOff_mul (by simp) (by simp) []) _ _

theorem cutsTo_power : (power v).CutsTo [v.1, '*', '*', '2'] :=
  cutsTo_tight (cutsTo_letter v) (cutsTo_digit ⟨'2', by decide⟩)
    (fun rest => ⟨'*', ['*'], rfl, by decide, rfl⟩) _ _

/-- A sum is written with blanks around its sign. -/
theorem cutsTo_sum (op : BinOp) {sign : Char} {lhs rhs : Expr} {cs ds : List Char}
    (hsign : op.symbol.toList = [sign]) (hl : lhs.CutsTo cs) (hr : rhs.CutsTo ds)
    (hbegins : BeginsOperand ds) :
    (joined op lhs rhs).CutsTo (cs ++ [' ', sign, ' '] ++ ds) := by
  have h : (joined op lhs rhs).CutsTo (cs ++ ' ' :: (op.symbol.toList ++ ' ' :: ds)) :=
    cutsTo_binary hl hr hbegins op _ _
  rw [hsign] at h
  simpa using h

theorem cutsTo_binomial {op : BinOp} {sign : Char} (hsign : op.symbol.toList = [sign]) :
    (binomial op a v b).CutsTo ['(', a.1, '*', v.1, ' ', sign, ' ', b.1, ')'] :=
  cutsTo_paren (cutsTo_sum op hsign (cutsTo_term a v) (cutsTo_digit b) (beginsOperand_digit b [])) _

theorem cutsTo_quotient {lhs : Expr} {cs : List Char} (hl : lhs.CutsTo cs) :
    (joined .div lhs a.expr).CutsTo (cs ++ ['/', a.1]) :=
  cutsTo_tight hl (cutsTo_digit a) (cutOff_div (by simp) []) _ _

end

/-- The six shapes, each from its pieces in the order in which the parser puts them together. -/
theorem Shape.cutsTo (shape : Shape) : shape.expr.CutsTo shape.source := by
  cases shape with
  | line v a b =>
    exact cutsTo_sum _ rfl (cutsTo_term a v) (cutsTo_digit b) (beginsOperand_digit b _)
  | square v b c =>
    have hfirst := cutsTo_sum .add rfl (cutsTo_power v) (cutsTo_term b v)
      (beginsOperand_digit b _)
    exact cutsTo_sum _ rfl hfirst (cutsTo_digit c) (beginsOperand_digit c _)
  | quadratic v a b c =>
    have hscaled := cutsTo_tight (cutsTo_digit a) (cutsTo_power v)
      (cutOff_mul (by simp) (by simp) ['*', '*', '2']) (.point 0) (.point 0)
    have hfirst := cutsTo_sum .sub rfl hscaled (cutsTo_term b v) (beginsOperand_digit b _)
    exact cutsTo_sum _ rfl hfirst (cutsTo_digit c) (beginsOperand_digit c _)
  | plane v w a b c =>
    have hfirst := cutsTo_sum .add rfl (cutsTo_term a v) (cutsTo_term b w)
      (beginsOperand_digit b _)
    exact cutsTo_sum _ rfl hfirst (cutsTo_digit c) (beginsOperand_digit c _)
  | product v a b c d =>
    exact cutsTo_tight (cutsTo_binomial a b v rfl) (cutsTo_binomial c d v rfl)
      (cutOff_mul (by decide) (by decide) _) _ _
  | fractions v a b c d e f =>
    exact cutsTo_sum _ rfl (cutsTo_quotient c (cutsTo_binomial a b v rfl))
      (cutsTo_quotient f (cutsTo_binomial d e v rfl)) (beginsOperand_paren _)

theorem Shape.beginsOperand (shape : Shape) : BeginsOperand shape.source := by
  cases shape with
  | line v a b => exact beginsOperand_digit a _
  | square v b c => exact beginsOperand_letter v _
  | quadratic v a b c => exact beginsOperand_digit a _
  | plane v w a b c => exact beginsOperand_digit a _
  | product v a b c d => exact beginsOperand_paren _
  | fractions v a b c d e f => exact beginsOperand_paren _

theorem Shape.names_ne_nil (shape : Shape) : shape.expr.names ≠ [] := by
  cases shape <;> exact List.cons_ne_nil _ _

/-- In every shape each operator has one of the letters under it. -/
theorem Shape.unsettled (shape : Shape) : shape.expr.Unsettled := by
  cases shape <;>
    simp [expr, joined, term, power, binomial, inParens, Expr.Unsettled, Expr.names, Digit.expr,
      Letter.expr]

/-- Its source text is read as the expression of a shape. -/
theorem Shape.readFrom (shape : Shape) : shape.expr.ReadFrom shape.source where
  cuts := shape.cutsTo
  begins := shape.beginsOperand
  canonical := by cases shape <;> exact of_decide_eq_true rfl
  nesting_le := by cases shape <;> exact of_decide_eq_true rfl
  height_le := by cases shape <;> exact of_decide_eq_true rfl

end Sample

/-- Every sample compiles. Whatever words it is drawn from, what is compiled is one assignment to
`x`. Its value is not known, and what is left of its code writes `x` last, and no other variable.
Nothing is asked of the words: there may be too few of them, or words that a draw refuses. -/
theorem ofText_ofWords (words : List UInt32) :
    ∃ compiled, Compiled.ofText defaultTarget (Sample.ofWords words).1 = .ok compiled ∧
      (∃ place value span, compiled.stmts = [.assign ⟨"x", place⟩ value span]) ∧
      compiled.folded.result = none ∧ WritesLast "x" compiled.folded.code := by
  obtain ⟨shape, hshape⟩ := Sample.always_expression ⟨words, 0⟩
  obtain ⟨compiled, hok, hopen⟩ := exists_ofText (by decide) (Sample.normalize_surface hshape)
    shape.readFrom shape.unsettled shape.names_ne_nil
  exact ⟨compiled, hok, hopen.stmts, hopen.result, hopen.writesLast⟩

end ThreeAddress
