import ThreeAddress.Proofs.Climbing

/-!
# Soundness of parsing

An expression that is read is the one that its tokens stand for, with no parenthesis missing.

Each kind of phrase has a meaning (`Phrase.Means`), and what one layer of the grammar reads has it
if what the layers below read has it. What has to be known of an expression in the course of this
is which operators may follow it: the operator that does follow it fits, to the right of it. So a
chain may take what it has for a left side, whichever operator ended the phrase before.

The meaning of a chain and of a right side is relative: if what they are given has been read up to
here, then what they make of it has been read up to there. So the phrases that begin in the middle
of an expression are treated on a par with those that begin one, and the loops are taken by
induction on their turns with the meaning for an invariant.
-/

set_option autoImplicit false

namespace ThreeAddress

open ThreeAddress.Parser ThreeAddress.ParserState

/-! ## Operators that follow an expression

Facts about precedences, of which there are finitely many; those about two operators are decided.
The exceptional operator throughout is the power, which groups to the right and binds tighter than a
sign before it. -/

section Precedence

variable {op following : BinOp} {e lhs rhs : Expr} {opSpan span : Span}

/-- An expression that is no operator between two others. It can stand on either side of any
operator, but for one case: a signed operand cannot be the base of a power. -/
def Expr.IsOperand : Expr → Prop
  | .binary _ _ _ _ _ => False
  | _ => True

theorem Expr.IsOperand.fitsRight (h : e.IsOperand) (op : BinOp) : e.FitsRight op := by
  cases e with
  | binary => exact h.elim
  | _ => trivial

theorem Expr.IsOperand.fitsSign (h : e.IsOperand) : e.FitsSign := by
  cases e with
  | binary => exact h.elim
  | _ => trivial

theorem BinOp.associativity_eq_right_iff : op.associativity = .right ↔ op = .exp := by
  cases op <;> decide

/-- Only a power binds tighter than a sign. -/
theorem BinOp.eq_exp_of_neg_le (h : ¬op.precedence < .neg) : op = .exp := by
  revert h
  cases op <;> decide

theorem BinOp.eq_exp_of_exp_le (h : Precedence.exp ≤ op.precedence) : op = .exp := by
  revert h
  cases op <;> decide

/-- What a chain with a floor makes of an expression: nothing, or an operator at least as tight. -/
def Expr.GrownFrom (lhs : Expr) (floor : Precedence) (e : Expr) : Prop :=
  e = lhs ∨ ∃ op opSpan l r span, e = .binary op opSpan l r span ∧ floor ≤ op.precedence

/-- What grows behind a sign are powers, so the sign applies to them. -/
theorem Expr.GrownFrom.fitsSign (h : lhs.GrownFrom .neg e) (hlhs : lhs.FitsSign) :
    e.FitsSign := by
  obtain rfl | ⟨op, opSpan, l, r, span, rfl, hle⟩ := h
  · exact hlhs
  · exact BinOp.eq_exp_of_neg_le (Nat.not_lt.mpr hle)

/-- What grows on the right of an operator by tighter ones still fits there. -/
theorem Expr.GrownFrom.fitsRight_of_lt (h : rhs.GrownFrom following.precedence e)
    (hlt : op.precedence < following.precedence) (hrhs : rhs.FitsRight op) : e.FitsRight op := by
  obtain rfl | ⟨inner, opSpan, l, r, span, rfl, hle⟩ := h
  · exact hrhs
  · have hinner : op.precedence < inner.precedence := Nat.lt_of_lt_of_le hlt hle
    show if op = .exp then inner = .exp else op.precedence < inner.precedence
    split
    next hexp =>
      subst hexp
      exact BinOp.eq_exp_of_exp_le (Nat.le_of_lt hinner)
    next => exact hinner

theorem Expr.GrownFrom.fitsRight_of_right (h : rhs.GrownFrom op.precedence e)
    (hop : op = .exp) (hrhs : rhs.FitsRight op) : e.FitsRight op := by
  subst hop
  obtain rfl | ⟨inner, opSpan, l, r, span, rfl, hle⟩ := h
  · exact hrhs
  · exact BinOp.eq_exp_of_exp_le hle

end Precedence

/-- The operator that comes next may follow the expression: it would take the expression for its
left side without parentheses. -/
def ParserState.Admits (st : ParserState) (e : Expr) : Prop :=
  ∀ op span, st.aheadOp = some (op, span) → e.FitsLeft op

theorem admits_of_none {st : ParserState} (h : st.aheadOp = none) (e : Expr) : st.Admits e := by
  intro op span hahead
  rw [h] at hahead
  cases hahead

/-- What ends the right side of an operator may follow the whole, and the other way round. So
nothing has to be carried from the right side to the whole but where it has stopped. -/
theorem admits_binary_iff {st : ParserState} {op : BinOp} {lhs rhs : Expr} {opSpan span : Span} :
    st.Admits (.binary op opSpan lhs rhs span) ↔ st.StopsAfter op := by
  apply forall_congr'
  intro following
  apply forall_congr'
  intro followingSpan
  apply imp_congr_right
  intro hahead
  show following ≠ .exp ∧ following.precedence ≤ op.precedence ↔ _
  rw [BinOp.associativity_eq_right_iff]
  constructor
  · rintro ⟨hexp, hle⟩
    exact ⟨Nat.not_lt.mpr hle, fun h => hexp h.2⟩
  · rintro ⟨hlt, hright⟩
    refine ⟨?_, Nat.not_lt.mp hlt⟩
    rintro rfl
    obtain rfl := BinOp.eq_exp_of_exp_le (Nat.not_lt.mp hlt)
    exact hright ⟨rfl, rfl⟩

/-! ## What is read

The three fields of `Parsed` are of different kinds: the tokens, the shape of the tree, and what
comes behind. The third is what lets an expression become the left side of the next operator. -/

/-- Between two places there is an expression: it stands for the tokens there, no parentheses are
missing in it, and the operator that follows may follow it. -/
structure Parsed (st : ParserState) (e : Expr) (st' : ParserState) : Prop where
  reads : ∃ ts, Consumes st ts st' ∧ e.Yields ts
  canonical : e.Canonical
  follows : st'.Admits e

namespace Parsed

variable {st st' : ParserState} {e : Expr}

theorem deepened (h : Parsed st e st') : Parsed st.deepened e st'.deepened := by
  obtain ⟨⟨ts, hconsumes, hyields⟩, hcanonical, hfollows⟩ := h
  exact ⟨⟨ts, hconsumes.deepened, hyields⟩, hcanonical, hfollows⟩

theorem raised (h : Parsed st e st') : Parsed st.raised e st'.raised := by
  obtain ⟨⟨ts, hconsumes, hyields⟩, hcanonical, hfollows⟩ := h
  exact ⟨⟨ts, hconsumes.raised, hyields⟩, hcanonical, hfollows⟩

end Parsed

namespace Phrase

/-- What it says about an expression that it was read as this phrase, from `st` to `st'`.

For a chain and a right side `st₀` is where the expression they are given begins. It is not known to
the parser, and the meaning holds for any. -/
def Means (st : ParserState) (e : Expr) (st' : ParserState) : Phrase → Prop
  | expr => Parsed st e st'
  | operand | signed | paren => Parsed st e st' ∧ e.IsOperand
  | chain lhs floor => ∀ st₀, Parsed st₀ lhs st →
    Parsed st₀ e st' ∧ lhs.GrownFrom floor e ∧ st'.StopsBelow floor
  | rightSide op rhs => ∀ st₀, Parsed st₀ rhs st → rhs.FitsRight op →
    Parsed st₀ e st' ∧ e.FitsRight op ∧ st'.StopsAfter op

/-- All that is read means what it should. -/
def Sound (inner : Phrase → Parser Expr) : Prop :=
  ∀ phrase {st e st'}, inner phrase st = .ok e st' → phrase.Means st e st'

variable {inner : Phrase → Parser Expr} {st st' st₀ : ParserState} {e lhs rhs : Expr}
  {floor : Precedence} {op : BinOp}

/-- An operand and a chain that takes in everything: the chain is given an operand that begins where
the expression does. -/
theorem means_expr (h : Sound inner) (hread : read inner .expr st = .ok e st') :
    Parsed st e st' := by
  obtain ⟨-, lhs, st₁, hlhs, hchain⟩ := expr_ok_iff.mp hread
  have hlhs : Parsed st lhs st₁ := (h .operand hlhs).1
  exact (h (.chain lhs .any) hchain st hlhs).1

/-- A literal is one token, and any operator may follow it. -/
theorem parsed_literal {token : Token} {value : Literal} (hnext : next st = .ok token st')
    (hvalue : value.IsToken token) : Parsed st (.literal value token.span) st' where
  reads := by
    refine ⟨[token], .cons hnext ?_, .literal hvalue⟩
    rw [counting_of_literal hvalue]
    exact .nil st'
  canonical := trivial
  follows _ _ _ := trivial

theorem means_operand (h : Sound inner) (hread : read inner .operand st = .ok e st') :
    Parsed st e st' ∧ e.IsOperand := by
  obtain ⟨token, -, ⟨-, hrun⟩ | ⟨-, hrun⟩ | ⟨hnext, value, hvalue, rfl⟩⟩ := operand_ok_iff.mp hread
  · exact h .signed hrun
  · exact h .paren hrun
  · exact ⟨parsed_literal hnext hvalue, trivial⟩

/-- A sign with its operand. Powers behind the operand have been taken in, and so the operator that
follows is none. -/
theorem means_signed (h : Sound inner) (hread : read inner .signed st = .ok e st') :
    Parsed st e st' ∧ e.IsOperand := by
  obtain ⟨sign, token, st₁, first, st₂, operand, st₃, hnext, hkind, -, hfirst, hoperand, rfl,
    rfl⟩ := signed_ok_iff.mp hread
  obtain ⟨hfirst, hsimple⟩ : Parsed st₁.deepened first st₂ ∧ first.IsOperand := h .operand hfirst
  obtain ⟨⟨⟨ts, hconsumes, hyields⟩, hcanonical, -⟩, hgrown, hends⟩ :=
    h (.chain first .neg) hoperand st₁.deepened hfirst
  refine ⟨⟨⟨token :: ts, ?_, ?_⟩, ⟨?_, hcanonical⟩, ?_⟩, trivial⟩
  · refine .cons hnext ?_
    rw [counting_of_unaryOp hkind]
    exact hconsumes.raised
  · rw [hyields.span_eq, ← hull_cons hyields.ne_nil]
    exact .unary hkind hyields
  · exact hgrown.fitsSign hsimple.fitsSign
  · -- only a power would not fit, and the operand would have taken it
    rintro op span hahead rfl
    exact absurd (hends .exp span hahead) (by decide)

/-- Anything may stand in parentheses, and anything may follow them. -/
theorem means_paren (h : Sound inner) (hread : read inner .paren st = .ok e st') :
    Parsed st e st' ∧ e.IsOperand := by
  obtain ⟨opening, st₁, kind, content, st₂, closing, st₃, hopening, hopen, -, -, -, hcontent,
    hclosing, hclose, rfl, rfl⟩ := paren_ok_iff.mp hread
  obtain ⟨⟨ts, hconsumes, hyields⟩, hcanonical, -⟩ : Parsed st₁.inside content st₂ :=
    h .expr hcontent
  have hparens : Consumes st (opening :: ts ++ [closing]) st₃.outside :=
    (Consumes.parens_iff hopen hclose).mpr ⟨st₁, st₂, st₃, hopening, hconsumes, hclosing, rfl⟩
  refine ⟨⟨⟨_, hparens, ?_⟩, hcanonical, fun _ _ _ => trivial⟩, trivial⟩
  rw [← hull_parens opening closing ts]
  exact .paren hopen hyields hclose

/-- An operator and its right side are taken in behind what is there. This is the step of the loop:
the left side admits the operator because that is what comes next, and the whole admits what the
right side stops at. -/
theorem Parsed.extend {token : Token} {st₁ st₂ : ParserState} (hlhs : Parsed st₀ lhs st)
    (hahead : st.aheadOp = some (op, token.span)) (hnext : next st = .ok token st₁)
    (hrhs : Parsed st₁ rhs st₂) (hfits : rhs.FitsRight op)
    (hends : st₂.StopsAfter op) :
    Parsed st₀ (.binary op token.span lhs rhs (lhs.span.through rhs.span)) st₂ := by
  obtain ⟨token', hahead', hkind, -⟩ := aheadOp_eq_some_iff.mp hahead
  obtain rfl : token = token' := Option.some.inj ((ahead_of_next hnext).symm.trans hahead')
  obtain ⟨ts, hconsumes, hyields⟩ := hlhs.reads
  obtain ⟨us, hconsumes', hyields'⟩ := hrhs.reads
  refine ⟨⟨ts ++ token :: us, ?_, ?_⟩, ?_, admits_binary_iff.mpr hends⟩
  · refine hconsumes.trans (.cons hnext ?_)
    rwa [counting_of_binaryOp hkind]
  · rw [hyields.span_eq, hyields'.span_eq, ← hull_binary hyields.ne_nil hyields'.ne_nil]
    exact .binary hyields hkind hyields'
  · exact ⟨hlhs.follows op token.span hahead, hfits, hlhs.canonical, hrhs.canonical⟩

/-- A chain, by induction on its turns. The invariant has the expression so far read from `st₀`, and
its last operator at least as tight as the floor; that the loop has ended says what comes next. -/
theorem means_chain (h : Sound inner) (hmoving : Moving inner)
    (hread : read inner (.chain lhs floor) st = .ok e st') (hlhs : Parsed st₀ lhs st) :
    Parsed st₀ e st' ∧ lhs.GrownFrom floor e ∧ st'.StopsBelow floor := by
  obtain ⟨height, hgrow⟩ := chain_ok_iff.mp hread
  have hstep : ∀ {a : Expr × Nat} {st₁ b st₂},
      Parsed st₀ a.1 st₁ ∧ lhs.GrownFrom floor a.1 →
      chainTurn inner floor a st₁ = .ok (some b) st₂ →
      Parsed st₀ b.1 st₂ ∧ lhs.GrownFrom floor b.1 := by
    rintro ⟨l, n⟩ st₁ b st₂ ⟨hl, -⟩ hturn
    obtain ⟨op, token, st₃, first, st₄, rhs, hahead, hfloor, hnext, hfirst, hrhs, -, rfl⟩ :=
      chainTurn_some_iff.mp hturn
    obtain ⟨hfirst, hsimple⟩ : Parsed st₃ first st₄ ∧ first.IsOperand := h .operand hfirst
    obtain ⟨hrhs, hfits, hends⟩ :=
      h (.rightSide op first) hrhs st₃ hfirst (hsimple.fitsRight op)
    exact ⟨Parsed.extend hl hahead hnext hrhs hfits hends,
      .inr ⟨op, _, _, _, _, rfl, Nat.not_lt.mp hfloor⟩⟩
  obtain ⟨st₁, ⟨hparsed, hgrown⟩, hturn⟩ := grow_induct (consuming_chainTurn hmoving floor)
    (fun a st => Parsed st₀ a.1 st ∧ lhs.GrownFrom floor a.1) hstep hgrow ⟨hlhs, .inl rfl⟩
  obtain ⟨rfl, hends⟩ := chainTurn_none_iff.mp hturn
  exact ⟨hparsed, hgrown, hends⟩

/-- A right side, by induction on its turns. Each turn is a chain of the layer below, whose meaning
is used with the same beginning; for a power it is read a level deeper, which makes no difference to
what it means. -/
theorem means_rightSide (h : Sound inner) (hmoving : Moving inner)
    (hread : read inner (.rightSide op rhs) st = .ok e st') (hrhs : Parsed st₀ rhs st)
    (hfits : rhs.FitsRight op) :
    Parsed st₀ e st' ∧ e.FitsRight op ∧ st'.StopsAfter op := by
  have hstep : ∀ {a st₁ b st₂}, Parsed st₀ a st₁ ∧ a.FitsRight op →
      rightSideTurn inner op a st₁ = .ok (some b) st₂ → Parsed st₀ b st₂ ∧ b.FitsRight op := by
    rintro a st₁ b st₂ ⟨ha, hfits⟩ hturn
    obtain ⟨following, span, -, ⟨hlt, hrun⟩ | ⟨-, ⟨heq, hright⟩, hrun⟩⟩ :=
      rightSideTurn_some_iff.mp hturn
    -- an operator that binds tighter goes into a right operand of its own
    · obtain ⟨hb, hgrown, -⟩ := h (.chain a following.precedence) hrun st₀ ha
      exact ⟨hb, hgrown.fitsRight_of_lt hlt hfits⟩
    -- only a power groups to the right, so the operator is one too
    · obtain rfl := BinOp.associativity_eq_right_iff.mp hright
      have hop : op = .exp := BinOp.eq_exp_of_exp_le (heq ▸ Nat.le_refl _)
      obtain ⟨-, st₃, hrun', rfl⟩ := deeper_ok_iff.mp hrun
      obtain ⟨hb, hgrown, -⟩ := h (.chain a op.precedence) hrun' st₀.deepened ha.deepened
      exact ⟨hb.raised, hgrown.fitsRight_of_right hop hfits⟩
  obtain ⟨st₁, ⟨hparsed, hfits⟩, hturn⟩ := grow_induct (consuming_rightSideTurn hmoving op)
    (fun a st => Parsed st₀ a st ∧ a.FitsRight op) hstep hread ⟨hrhs, hfits⟩
  obtain ⟨rfl, hends⟩ := rightSideTurn_none_iff.mp hturn
  exact ⟨hparsed, hfits, hends⟩

/-- One layer is sound if the layer below is. -/
theorem sound_read (h : Sound inner) (hmoving : Moving inner) : Sound (read inner) := by
  intro phrase st e st' hread
  cases phrase with
  | expr => exact means_expr h hread
  | operand => exact means_operand h hread
  | signed => exact means_signed h hread
  | paren => exact means_paren h hread
  | chain lhs floor =>
    intro st₀ hlhs
    exact means_chain h hmoving hread hlhs
  | rightSide op rhs =>
    intro st₀ hrhs hfits
    exact means_rightSide h hmoving hread hrhs hfits

/-- All layers are sound. The lowest reads nothing. -/
theorem sound_layers (depth : Nat) : Sound (layers depth) := by
  induction depth with
  | zero =>
    intro phrase st e st' h
    exact (layers_zero_ne_ok h).elim
  | succ depth ih =>
    rw [layers_succ]
    exact sound_read ih (moving_layers depth)

end Phrase

/-- What is read as an expression is one. -/
theorem parsed_of_expr {st st' : ParserState} {e : Expr} (h : Parser.expr st = .ok e st') :
    Parsed st e st' :=
  Phrase.sound_layers Phrase.callDepth .expr h

end ThreeAddress
