import ThreeAddress.Proofs.Heights
import ThreeAddress.Proofs.Soundness

/-!
# Completeness of parsing

A canonical expression is read from the tokens that it stands for, as long as it is not nested too
deeply and not too high a tree.

A parser does not go through a tree from the root down. It reads the leftmost operand first, and
lets that grow. So what is shown of an expression is that there is an operand it begins with, and
that reading goes on from behind this operand as it goes on from behind the whole expression
(`Grows`): in a chain whose floor the expression reaches, and as the right side of an operator that
it fits.

The grammar is layered, and each layer calls on the one below. How many layers a phrase needs
depends on how deep it is nested already: sixteen for each level that is left.

The relation between reading the first operand and reading the whole is an equation between loops,
and not only a statement about their ends: a chain that stands behind the first operand comes to the
same as one that stands behind the whole. So it does not matter what the loop does afterwards, and a
left side can be replaced by the expression it is part of.
-/

set_option autoImplicit false

namespace ThreeAddress

open ThreeAddress.Parser ThreeAddress.ParserState
open ThreeAddress.Phrase hiding operand paren

/-! ## Limits

How many layers are enough. The counts are linear in the nesting that is left and in the levels of
operators above the one at hand, and `omega` does the rest. -/

/-- The greatest number of parentheses, signs and powers on one way down.

Every power counts for one, although the parser goes a level deeper only for a power to the right of
another. So there are expressions that are read and exceed the limit by this count; for what follows
it is enough that all within it are read. -/
def Expr.nesting : Expr → Nat
  | literal _ _ => 0
  | paren inner _ => inner.nesting + 1
  | unary _ _ operand _ => operand.nesting + 1
  | binary op _ lhs rhs _ => max lhs.nesting rhs.nesting + if op = .exp then 1 else 0

/-- The place of an operator among the seven levels, from loosest to tightest. -/
def BinOp.level (op : BinOp) : Nat := min op.precedence.rank 7

theorem BinOp.level_pos (op : BinOp) : 1 ≤ op.level := by
  cases op <;> decide

theorem BinOp.level_le (op : BinOp) : op.level ≤ 7 := Nat.min_le_right _ _

theorem BinOp.level_mono {op following : BinOp} (h : op.precedence ≤ following.precedence) :
    op.level ≤ following.level := by
  have hrank : op.precedence.rank ≤ following.precedence.rank := h
  simp only [level]
  omega

theorem BinOp.level_lt_level {op following : BinOp} (h : op.precedence < following.precedence) :
    op.level < following.level := by
  revert h
  cases op <;> cases following <;> decide

/-- The layers that an operand needs at this depth of nesting. -/
def operandDepth (nesting : Nat) : Nat := 16 * (nestingLimit - nesting) + 1

/-- The layers that the right side of an operator needs: a chain and a right side for each level
above the operator, and an operand. -/
def rightSideDepth (op : BinOp) (nesting : Nat) : Nat :=
  operandDepth nesting + 2 * (7 - op.level)

/-- The layers below a chain that taking in the last operator of the expression needs. What has been
taken in before needs no more, since it does not bind tighter to the left. -/
def Expr.chainDepth (nesting : Nat) : Expr → Nat
  | binary op _ _ _ _ => rightSideDepth op nesting
  | _ => 0

theorem Expr.chainDepth_le (e : Expr) (nesting : Nat) :
    e.chainDepth nesting ≤ operandDepth nesting + 12 := by
  cases e with
  | binary op opSpan lhs rhs span =>
    have := op.level_pos
    show operandDepth nesting + 2 * (7 - op.level) ≤ _
    omega
  | _ => exact Nat.zero_le _

theorem operandDepth_succ {nesting : Nat} (h : nesting < nestingLimit) :
    operandDepth nesting = operandDepth (nesting + 1) + 16 := by
  rw [operandDepth, operandDepth]
  omega

theorem rightSideDepth_pos (op : BinOp) (nesting : Nat) : 0 < rightSideDepth op nesting := by
  rw [rightSideDepth, operandDepth]
  omega

/-- A tighter operator leaves two layers over: a chain, and its right side. -/
theorem rightSideDepth_add_two_le {outer op : BinOp} (h : outer.precedence < op.precedence)
    (nesting : Nat) : rightSideDepth op nesting + 2 ≤ rightSideDepth outer nesting := by
  have hlevel := BinOp.level_lt_level h
  have hle := op.level_le
  rw [rightSideDepth, rightSideDepth]
  omega

theorem rightSideDepth_succ {nesting : Nat} (h : nesting < nestingLimit) (op : BinOp) :
    rightSideDepth op nesting = rightSideDepth op (nesting + 1) + 16 := by
  rw [rightSideDepth, rightSideDepth, operandDepth_succ h]
  omega

/-- A chain with this floor does not stop before the last operator of the expression. -/
def Expr.BindsAt (floor : Precedence) : Expr → Prop
  | binary op _ _ _ _ => floor ≤ op.precedence
  | _ => True

/-! ## What may follow a part

The rules for missing parentheses say what may stand next to what. Here they are turned into what
may follow a part, given what follows the whole. -/

section Following

variable {op following : BinOp} {operand lhs rhs : Expr}

theorem Precedence.eq_of_not_lt {a b : Precedence} (h : ¬a < b) (h' : ¬b < a) : a = b := by
  revert h h'
  cases a <;> cases b <;> decide

theorem BinOp.precedence_le_exp (op : BinOp) : op.precedence ≤ .exp := by
  cases op <;> decide

theorem Expr.FitsSign.bindsAt (h : operand.FitsSign) : operand.BindsAt .neg := by
  cases operand with
  | binary op opSpan lhs rhs span =>
    obtain rfl : op = .exp := h
    show Precedence.neg.rank ≤ Precedence.exp.rank
    decide
  | _ => trivial

/-- What may follow a signed operand with its sign may follow it without. -/
theorem Expr.FitsSign.fitsLeft (h : operand.FitsSign) (hne : following ≠ .exp) :
    operand.FitsLeft following := by
  cases operand with
  | literal => trivial
  | paren => trivial
  | unary => exact hne
  | binary op opSpan lhs rhs span =>
    obtain rfl : op = .exp := h
    exact ⟨hne, following.precedence_le_exp⟩

/-- What may follow an operator and its right side may follow the right side. -/
theorem Expr.FitsRight.fitsLeft (h : rhs.FitsRight op) (hne : following ≠ .exp)
    (hle : following.precedence ≤ op.precedence) : rhs.FitsLeft following := by
  cases rhs with
  | literal => trivial
  | paren => trivial
  | unary => exact hne
  | binary inner opSpan lhs rhs span =>
    refine ⟨hne, ?_⟩
    have h : if op = .exp then inner = .exp else op.precedence < inner.precedence := h
    split at h
    next =>
      rw [h]
      exact following.precedence_le_exp
    next => exact Nat.le_trans hle (Nat.le_of_lt h)

/-- A chain that takes in an operator takes in the left side before it. -/
theorem Expr.FitsLeft.bindsAt {floor : Precedence} (h : lhs.FitsLeft op)
    (hfloor : floor ≤ op.precedence) : lhs.BindsAt floor := by
  cases lhs with
  | binary inner opSpan l r span => exact Nat.le_trans hfloor h.2
  | _ => trivial

theorem Expr.FitsLeft.chainDepth_le (h : lhs.FitsLeft op) (nesting : Nat) :
    lhs.chainDepth nesting ≤ rightSideDepth op nesting := by
  cases lhs with
  | binary inner opSpan l r span =>
    have hlevel := BinOp.level_mono h.2
    rw [chainDepth, rightSideDepth, rightSideDepth]
    omega
  | _ => exact Nat.zero_le _

/-- Where the whole may stand to the right of an operator, its left side may. -/
theorem Expr.FitsLeft.fitsRight {outer : BinOp} {opSpan span : Span} (h : lhs.FitsLeft op)
    (hfits : (Expr.binary op opSpan lhs rhs span).FitsRight outer) : lhs.FitsRight outer := by
  cases lhs with
  | binary inner innerSpan l r span' =>
    obtain ⟨hne, hle⟩ := h
    have hfits : if outer = .exp then op = .exp else outer.precedence < op.precedence := hfits
    show if outer = .exp then inner = .exp else outer.precedence < inner.precedence
    split at hfits
    next => exact (hne hfits).elim
    next houter =>
      rw [if_neg houter]
      exact Nat.lt_of_lt_of_le hfits hle
  | _ => trivial

end Following

/-! ## Growing

The statement for the induction over expressions, and its use where the expression ends. Each of the
three fields asks for as many layers as it needs and no more, so that the bounds add up to
`callDepth`. -/

/-- An expression is read between two places by reading `first` up to `st₁`, from where on reading
goes on as from behind the whole expression.

The chain and the right side have conditions on what they are part of: the floor has to let the
operators of the expression through, and the expression has to fit the operator it stands to the
right of. Otherwise they would stop earlier. -/
structure Grows (st : ParserState) (e : Expr) (st' : ParserState) (first : Expr)
    (st₁ : ParserState) : Prop where
  operand : ∀ {depth}, operandDepth st.nesting ≤ depth →
    layers depth .operand st = .ok first st₁
  chain : ∀ {depth floor}, e.BindsAt floor → e.chainDepth st.nesting ≤ depth →
    grow (chainTurn (layers depth) floor) (first, first.height) st₁ =
      grow (chainTurn (layers depth) floor) (e, e.height) st'
  rightSide : ∀ {depth op}, e.FitsRight op → rightSideDepth op st.nesting ≤ depth + 1 →
    grow (rightSideTurn (layers depth) op) first st₁ =
      grow (rightSideTurn (layers depth) op) e st'

/-- An expression that is an operand is its own beginning. -/
theorem Grows.of_operand {st st' : ParserState} {e : Expr}
    (h : ∀ {depth}, operandDepth st.nesting ≤ depth → layers depth .operand st = .ok e st') :
    Grows st e st' e st' where
  operand := h
  chain _ _ := rfl
  rightSide _ _ := rfl

variable {st st₁ st₂ st' : ParserState} {e first lhs rhs : Expr} {op : BinOp}
  {floor : Precedence} {token : Token} {depth : Nat}

/-- If what follows ends the right side, then the right side is the expression. -/
theorem Grows.layers_rightSide (h : Grows st e st' first st₁) (hfits : e.FitsRight op)
    (hstops : st'.StopsAfter op) (hdepth : rightSideDepth op st.nesting ≤ depth) :
    layers depth (.rightSide op first) st₁ = .ok e st' := by
  obtain ⟨below, rfl⟩ : ∃ below, depth = below + 1 :=
    Nat.exists_eq_add_one.mpr (Nat.lt_of_lt_of_le (rightSideDepth_pos op st.nesting) hdepth)
  rw [layers_succ, Phrase.read, h.rightSide hfits hdepth]
  exact grow_of_none (consuming_rightSideTurn (moving_layers below) op)
    (rightSideTurn_none_iff.mpr ⟨rfl, hstops⟩)

/-- If what follows ends the chain, then the chain makes the expression of its first operand. -/
theorem Grows.layers_chain (h : Grows st e st' first st₁) (hbinds : e.BindsAt floor)
    (hstops : st'.StopsBelow floor) (hdepth : e.chainDepth st.nesting ≤ depth) :
    layers (depth + 1) (.chain first floor) st₁ = .ok e st' := by
  rw [layers_succ]
  refine chain_ok_iff.mpr ⟨e.height, ?_⟩
  rw [h.chain hbinds hdepth]
  exact grow_of_none (consuming_chainTurn (moving_layers depth) floor)
    (chainTurn_none_iff.mpr ⟨rfl, hstops⟩)

/-- An operand does not begin with a closing parenthesis, which is what an expression checks for. -/
theorem ahead_of_operand {inner : Phrase → Parser Expr}
    (h : read inner .operand st = .ok e st') :
    ∃ token, st.ahead = some token ∧ token.kind ≠ .closeParen := by
  obtain ⟨token, hahead, hcases⟩ := operand_ok_iff.mp h
  refine ⟨token, hahead, ?_⟩
  obtain ⟨⟨sign, hkind⟩, -⟩ | ⟨hkind, -⟩ | ⟨-, value, hvalue, -⟩ := hcases
  · cases sign <;> simp [hkind, UnOp.kind]
  · simp [hkind]
  · cases value <;> simp [hvalue.1]

/-- An expression that no operator follows is read as such. -/
theorem Grows.layers_expr (h : Grows st e st' first st₁) (hnone : st'.aheadOp = none)
    (hdepth : operandDepth st.nesting + 14 ≤ depth) : layers depth .expr st = .ok e st' := by
  obtain ⟨below, rfl⟩ : ∃ below, depth = below + 2 := ⟨depth - 2, by omega⟩
  have hoperand : layers (below + 1) .operand st = .ok first st₁ := h.operand (by omega)
  have hbinds : e.BindsAt .any := by
    cases e with
    | binary => exact Nat.zero_le _
    | _ => trivial
  have hchain := e.chainDepth_le st.nesting
  obtain ⟨token, hahead, hkind⟩ := ahead_of_operand hoperand
  rw [layers_succ]
  exact expr_ok_iff.mpr ⟨by simpa [hahead] using hkind, first, st₁, hoperand,
    h.layers_chain hbinds (stopsBelow_of_none hnone .any) (by omega)⟩

/-! ### Operators between two expressions -/

/-- Behind `lhs` at `st`, a chain that takes in the operator goes on as from behind `e` at `st'`.
This is all that is needed of the right side of an operator once that has been dealt with. -/
def TakesIn (st : ParserState) (lhs : Expr) (op : BinOp) (e : Expr) (st' : ParserState) : Prop :=
  ∀ ⦃depth floor⦄, floor ≤ op.precedence → rightSideDepth op st.nesting ≤ depth →
    grow (chainTurn (layers depth) floor) (lhs, lhs.height) st =
      grow (chainTurn (layers depth) floor) (e, e.height) st'

/-- An operator is taken in with its right side. -/
theorem Grows.takesIn (h : Grows st₁ rhs st' first st₂)
    (hahead : st.aheadOp = some (op, token.span)) (hnext : next st = .ok token st₁)
    (hfits : rhs.FitsRight op) (hstops : st'.StopsAfter op)
    (hheight : 1 + max lhs.height rhs.height ≤ heightLimit) :
    TakesIn st lhs op (.binary op token.span lhs rhs (lhs.span.through rhs.span)) st' := by
  intro depth floor hfloor hdepth
  rw [← nesting_of_next hnext] at hdepth
  have hoperand : operandDepth st₁.nesting ≤ depth := Nat.le_trans (Nat.le_add_right _ _) hdepth
  rw [Expr.height_binary]
  exact grow_of_some (consuming_chainTurn (moving_layers depth) floor)
    (chainTurn_some_iff.mpr ⟨op, token, st₁, first, st₂, rhs, hahead, Nat.not_lt.mpr hfloor, hnext,
      h.operand hoperand, h.layers_rightSide hfits hstops hdepth, hheight, rfl⟩)

/-- The right side of a looser operator takes in the whole just as it takes in the left side, with
what is behind it.

The chain that it begins may not end behind the whole, if an operator of the same level follows.
Then the turn is not over, and its outcome is compared with that of a turn that begins there. -/
theorem rightSide_of_lt {outer : BinOp} {span : Span} (hahead : st.aheadOp = some (op, span))
    (hstops : st'.StopsAfter op) (hlt : outer.precedence < op.precedence)
    (htakes : TakesIn st lhs op e st') (hdepth : rightSideDepth op st.nesting ≤ depth) :
    grow (rightSideTurn (layers (depth + 1)) outer) lhs st =
      grow (rightSideTurn (layers (depth + 1)) outer) e st' := by
  have hmoving := consuming_rightSideTurn (moving_layers (depth + 1)) outer
  have hlayers : layers (depth + 1) (.chain lhs op.precedence) st =
      layers (depth + 1) (.chain e op.precedence) st' := by
    rw [layers_succ]
    exact bind_eq_bind (htakes (Nat.le_refl _) hdepth)
  by_cases hbelow : st'.StopsBelow op.precedence
  · -- the chain ends here, and the right side goes on from here
    have hends : layers (depth + 1) (.chain e op.precedence) st' = .ok e st' :=
      chain_ok_iff.mpr ⟨e.height, grow_of_none (consuming_chainTurn (moving_layers depth) _)
        (chainTurn_none_iff.mpr ⟨rfl, hbelow⟩)⟩
    exact grow_of_some hmoving (rightSideTurn_some_iff.mpr
      ⟨op, span, hahead, .inl ⟨hlt, hlayers.trans hends⟩⟩)
  · -- the chain goes on with an operator of the same level, and would do so from here
    simp only [StopsBelow, not_forall] at hbelow
    obtain ⟨following, followingSpan, hfollowing, hle⟩ := hbelow
    have heq : following.precedence = op.precedence :=
      Precedence.eq_of_not_lt hle (hstops following followingSpan hfollowing).1
    have hlt' : outer.precedence < following.precedence := heq ▸ hlt
    apply grow_of_turn_eq hmoving
    · rw [rightSideTurn_of_lt hahead hlt, rightSideTurn_of_lt hfollowing hlt', heq]
      exact bind_eq_bind hlayers
    · intro st'' hnone
      exact ((rightSideTurn_none_iff.mp hnone).2 following followingSpan hfollowing).1 hlt'

/-- The right side of a power takes in a power, a level deeper. -/
theorem rightSide_of_exp {span : Span} (hahead : st.aheadOp = some (.exp, span))
    (hstops : st'.StopsAfter .exp) (hnesting : st.nesting < nestingLimit)
    (htakes : TakesIn st.deepened lhs .exp e st'.deepened)
    (hdepth : rightSideDepth .exp (st.nesting + 1) ≤ depth) :
    grow (rightSideTurn (layers (depth + 1)) .exp) lhs st =
      grow (rightSideTurn (layers (depth + 1)) .exp) e st' := by
  have hbelow : st'.deepened.StopsBelow .exp := by
    intro following followingSpan hfollowing
    obtain ⟨-, hright⟩ := hstops following followingSpan hfollowing
    by_contra hle
    obtain rfl := BinOp.eq_exp_of_exp_le (Nat.not_lt.mp hle)
    exact hright ⟨rfl, rfl⟩
  have hends : layers (depth + 1) (.chain lhs .exp) st.deepened = .ok e st'.deepened := by
    rw [layers_succ]
    have htaken : grow (chainTurn (layers depth) .exp) (lhs, lhs.height) st.deepened =
        grow (chainTurn (layers depth) .exp) (e, e.height) st'.deepened :=
      htakes (Nat.le_refl _) hdepth
    exact chain_ok_iff.mpr ⟨e.height, htaken.trans
      (grow_of_none (consuming_chainTurn (moving_layers depth) .exp)
        (chainTurn_none_iff.mpr ⟨rfl, hbelow⟩))⟩
  have hdeeper : deeper (layers (depth + 1) (.chain lhs .exp)) st = .ok e st' :=
    deeper_ok_iff.mpr ⟨hnesting, st'.deepened, hends, rfl⟩
  exact grow_of_some (consuming_rightSideTurn (moving_layers (depth + 1)) .exp)
    (rightSideTurn_some_iff.mpr
      ⟨.exp, span, hahead, .inr ⟨Nat.lt_irrefl _, ⟨rfl, rfl⟩, hdeeper⟩⟩)

/-- What grows to the left side of an operator grows on to the whole. Powers have a condition of
their own, since they may be read at two depths: as part of a chain, or a level deeper, as the right
side of another power. -/
theorem Grows.binary {opSpan span : Span} (h : Grows st lhs st₁ first st₂)
    (hleft : lhs.FitsLeft op) (hahead : st₁.aheadOp = some (op, opSpan))
    (hstops : st'.StopsAfter op) (hnesting : st₁.nesting = st.nesting)
    (htakes : TakesIn st₁ lhs op (.binary op opSpan lhs rhs span) st')
    (hpower : op = .exp → st.nesting < nestingLimit ∧
      TakesIn st₁.deepened lhs op (.binary op opSpan lhs rhs span) st'.deepened) :
    Grows st (.binary op opSpan lhs rhs span) st' first st₂ := by
  refine ⟨h.operand, ?_, ?_⟩
  · intro depth floor hbinds hdepth
    rw [h.chain (hleft.bindsAt hbinds) (Nat.le_trans (hleft.chainDepth_le st.nesting) hdepth)]
    exact htakes hbinds (by rwa [hnesting])
  · intro depth outer hfits hdepth
    rw [h.rightSide (hleft.fitsRight hfits) hdepth]
    have hfits : if outer = .exp then op = .exp else outer.precedence < op.precedence := hfits
    split at hfits
    next houter =>
      subst houter hfits
      -- a power within the right side of a power is read a level deeper
      obtain ⟨hlimit, htakes⟩ := hpower rfl
      rw [rightSideDepth_succ hlimit] at hdepth
      obtain ⟨below, rfl⟩ : ∃ below, depth = below + 1 := ⟨depth - 1, by omega⟩
      rw [← hnesting] at hlimit hdepth
      exact rightSide_of_exp hahead hstops hlimit htakes (by omega)
    next houter =>
      have hmore := rightSideDepth_add_two_le hfits st.nesting
      have hpos := rightSideDepth_pos op st.nesting
      obtain ⟨below, rfl⟩ : ∃ below, depth = below + 1 := ⟨depth - 1, by omega⟩
      exact rightSide_of_lt hahead hstops hfits htakes (by rw [hnesting]; omega)

/-! ## All expressions

By induction on the expression, for all places at which it may come. The height is part of the
hypothesis for the whole only, and the parts have less of it. -/

/-- Wherever the tokens of the expression come next, it is read, if that is not nested too deeply
and if it may be followed by what follows. -/
def Expr.Complete (e : Expr) : Prop :=
  ∀ ⦃st ts st'⦄, Consumes st ts st' → e.Yields ts → st'.Admits e →
    st.nesting + e.nesting ≤ nestingLimit → ∃ first st₁, Grows st e st' first st₁

theorem complete_literal (value : Literal) (span : Span) : (Expr.literal value span).Complete := by
  intro st ts st' hconsumes hyields _ _
  cases hyields with
  | literal hvalue =>
    cases hconsumes with
    | cons hnext hrest =>
      cases hrest
      rw [counting_of_literal hvalue]
      refine ⟨_, _, .of_operand fun {depth} hdepth => ?_⟩
      obtain ⟨below, rfl⟩ : ∃ below, depth = below + 1 := by
        rw [operandDepth] at hdepth
        exact ⟨depth - 1, by omega⟩
      exact operand_ok_iff.mpr
        ⟨_, ahead_of_next hnext, .inr (.inr ⟨hnext, value, hvalue, rfl⟩)⟩

/-- Within parentheses no operator follows, so that the expression is read as such, one level
deeper. -/
theorem complete_paren {inner : Expr} (h : inner.Complete) (span : Span) :
    (Expr.paren inner span).Complete := by
  intro st ts st' hconsumes hyields _ hnesting
  cases hyields with
  | @paren opening closing _ ts hopen hinner hclose =>
    obtain ⟨st₁, st₂, st₃, hopening, hcontent, hclosing, rfl⟩ :=
      (Consumes.parens_iff hopen hclose).mp hconsumes
    -- behind the expression stands the closing parenthesis, and no operator
    have hnone : st₂.aheadOp = none := by
      rw [aheadOp, ahead_of_next hclosing, Option.bind_some]
      simp [Token.binaryOp, hclose, Except.toOption]
    have hnesting₁ : st₁.inside.nesting = st.nesting + 1 :=
      congrArg (· + 1) (nesting_of_next hopening)
    have hinside : st₁.inside.nesting + inner.nesting ≤ nestingLimit := by
      rw [Expr.nesting] at hnesting
      omega
    have hlimit : st₁.nesting < nestingLimit := Nat.le_trans (Nat.le_add_right _ _) hinside
    obtain ⟨first, st₄, hgrows⟩ := h hcontent hinner (admits_of_none hnone inner) hinside
    refine ⟨_, _, .of_operand fun {depth} hdepth => ?_⟩
    have hmore : operandDepth st.nesting = operandDepth (st.nesting + 1) + 16 :=
      operandDepth_succ (by omega)
    obtain ⟨below, rfl⟩ : ∃ below, depth = below + 2 := ⟨depth - 2, by omega⟩
    have hexpr : layers below .expr st₁.inside = .ok inner st₂ :=
      hgrows.layers_expr hnone (by rw [hnesting₁]; omega)
    have hoperand : layers (below + 1) .operand st₁.inside = .ok first st₄ :=
      hgrows.operand (by rw [hnesting₁]; omega)
    obtain ⟨token, hahead, hkind⟩ := ahead_of_operand hoperand
    have hparen : layers (below + 1) .paren st = .ok _ _ :=
      paren_ok_iff.mpr ⟨opening, st₁, token.kind, inner, st₂, closing, st₃, hopening, hopen,
        hlimit, by rw [hahead, Option.map_some], hkind, hexpr, hclosing, hclose, rfl, rfl⟩
    rw [hull_parens]
    exact operand_ok_iff.mpr ⟨opening, ahead_of_next hopening, .inr (.inl ⟨hopen, hparen⟩)⟩

/-- A sign goes on to the operators that bind tighter. The operand ends where none of these follows,
and that is so because the whole admits what comes next. -/
theorem complete_unary {operand : Expr} (h : operand.Complete) (hfits : operand.FitsSign)
    (op : UnOp) (opSpan span : Span) : (Expr.unary op opSpan operand span).Complete := by
  intro st ts st' hconsumes hyields hadmits hnesting
  cases hyields with
  | @unary _ sign _ ts hsign hoperand =>
    cases hconsumes with
    | @cons _ st₁ _ _ _ hnext hrest =>
      rw [counting_of_unaryOp hsign] at hrest
      have hnesting₁ : st₁.deepened.nesting = st.nesting + 1 :=
        congrArg (· + 1) (nesting_of_next hnext)
      have hdeeper : st₁.deepened.nesting + operand.nesting ≤ nestingLimit := by
        rw [Expr.nesting] at hnesting
        omega
      have hlimit : st₁.nesting < nestingLimit := Nat.le_trans (Nat.le_add_right _ _) hdeeper
      -- only a power binds tighter than a sign, and a power cannot follow the whole
      have hstops : st'.deepened.StopsBelow .neg := by
        intro following followingSpan hahead
        by_contra hle
        exact hadmits following followingSpan hahead (BinOp.eq_exp_of_neg_le hle)
      have hadmits' : st'.deepened.Admits operand := by
        intro following followingSpan hahead
        exact hfits.fitsLeft (hadmits following followingSpan hahead)
      obtain ⟨first, st₂, hgrows⟩ := h hrest.deepened hoperand hadmits' hdeeper
      refine ⟨_, _, .of_operand fun {depth} hdepth => ?_⟩
      have hmore : operandDepth st.nesting = operandDepth (st.nesting + 1) + 16 :=
        operandDepth_succ (by omega)
      obtain ⟨below, rfl⟩ : ∃ below, depth = below + 3 := ⟨depth - 3, by omega⟩
      have hchain := operand.chainDepth_le st₁.deepened.nesting
      rw [hnesting₁] at hchain
      have hsigned : layers (below + 2) .signed st = .ok _ _ :=
        signed_ok_iff.mpr ⟨op, sign, st₁, first, st₂, operand, st'.deepened, hnext, hsign, hlimit,
          hgrows.operand (by rw [hnesting₁]; omega),
          hgrows.layers_chain hfits.bindsAt hstops (by rw [hnesting₁]; omega), rfl, rfl⟩
      rw [hull_cons hoperand.ne_nil, ← hoperand.span_eq]
      exact operand_ok_iff.mpr ⟨sign, ahead_of_next hnext, .inl ⟨⟨op, hsign⟩, hsigned⟩⟩

/-- An operator: the left side grows up to it, and the right side is taken in. What follows the
whole may follow the right side, and the operator may follow the left side. -/
theorem complete_binary {op : BinOp} {opSpan span : Span} (hl : lhs.Complete) (hr : rhs.Complete)
    (hcanonical : (Expr.binary op opSpan lhs rhs span).Canonical)
    (hheight : (Expr.binary op opSpan lhs rhs span).height ≤ heightLimit) :
    (Expr.binary op opSpan lhs rhs span).Complete := by
  obtain ⟨hleft, hright, -, -⟩ := hcanonical
  intro st ts st' hconsumes hyields hadmits hnesting
  have hstops : st'.StopsAfter op := admits_binary_iff.mp hadmits
  cases hyields with
  | @binary _ token _ _ ts us hlhs hop hrhs =>
    obtain ⟨st₁, hts, hrest⟩ := Consumes.append_iff.mp hconsumes
    cases hrest with
    | @cons _ st₂ _ _ _ hnext hus =>
      rw [counting_of_binaryOp hop] at hus
      rw [Expr.nesting] at hnesting
      rw [Expr.height_binary] at hheight
      rw [hull_binary hlhs.ne_nil hrhs.ne_nil, ← hlhs.span_eq, ← hrhs.span_eq]
      have hahead : st₁.aheadOp = some (op, token.span) :=
        aheadOp_eq_some_iff.mpr ⟨token, ahead_of_next hnext, hop, rfl⟩
      have hadmitsl : st₁.Admits lhs := by
        intro following followingSpan hfollowing
        obtain ⟨rfl, -⟩ := Prod.mk.inj (Option.some.inj (hahead.symm.trans hfollowing))
        exact hleft
      have hadmitsr : st'.Admits rhs := by
        intro following followingSpan hfollowing
        obtain ⟨hne, hle⟩ := hadmits following followingSpan hfollowing
        exact hright.fitsLeft hne hle
      have hnesting₁ : st₁.nesting = st.nesting := hts.nesting_eq
      have hnesting₂ : st₂.nesting = st.nesting := (nesting_of_next hnext).trans hnesting₁
      obtain ⟨first, st₃, hgrowsl⟩ := hl hts hlhs hadmitsl (by omega)
      obtain ⟨_, _, hgrowsr⟩ := hr hus hrhs hadmitsr (by omega)
      refine ⟨first, st₃, hgrowsl.binary hleft hahead hstops hnesting₁
        (hgrowsr.takesIn hahead hnext hright hstops hheight) ?_⟩
      -- as the right side of a power, the right side of this one is read a level deeper
      intro hexp
      rw [if_pos hexp] at hnesting
      have hnesting' : st₂.deepened.nesting = st.nesting + 1 := congrArg (· + 1) hnesting₂
      have hadmits' : st'.deepened.Admits rhs := hadmitsr
      have hahead' : st₁.deepened.aheadOp = some (op, token.span) := hahead
      obtain ⟨_, _, hgrows'⟩ := hr hus.deepened hrhs hadmits' (by omega)
      exact ⟨by omega, hgrows'.takesIn hahead' (next_deepened hnext) hright hstops hheight⟩

/-- The induction. For each form the parts are canonical and no higher. -/
theorem Expr.Canonical.complete (hcanonical : e.Canonical) (hheight : e.height ≤ heightLimit) :
    e.Complete := by
  induction e with
  | literal value span => exact complete_literal value span
  | paren inner span ih =>
    rw [height_paren] at hheight
    exact complete_paren (ih hcanonical (by omega)) span
  | unary op opSpan operand span ih =>
    rw [height_unary] at hheight
    exact complete_unary (ih hcanonical.2 (by omega)) hcanonical.1 op opSpan span
  | binary op opSpan lhs rhs span ihl ihr =>
    have hl : lhs.Complete := by
      rw [height_binary] at hheight
      exact ihl hcanonical.2.2.1 (by omega)
    have hr : rhs.Complete := by
      rw [height_binary] at hheight
      exact ihr hcanonical.2.2.2 (by omega)
    exact complete_binary hl hr hcanonical hheight

/-- A canonical expression within the limits is read, if no operator follows. At any depth of
nesting the layers are enough, as `callDepth` has sixteen for each level. -/
theorem expr_of_yields {ts : List Token} (hconsumes : Consumes st ts st') (hyields : e.Yields ts)
    (hcanonical : e.Canonical) (hnone : st'.aheadOp = none)
    (hnesting : st.nesting + e.nesting ≤ nestingLimit) (hheight : e.height ≤ heightLimit) :
    Parser.expr st = .ok e st' := by
  obtain ⟨first, st₁, hgrows⟩ :=
    hcanonical.complete hheight hconsumes hyields (admits_of_none hnone e) hnesting
  have hdepth : operandDepth st.nesting + 14 ≤ callDepth := by
    rw [operandDepth, callDepth]
    omega
  exact hgrows.layers_expr hnone hdepth

end ThreeAddress
