import ThreeAddress.Proofs.Yields

/-!
# The steps of climbing

What it takes for each phrase to be read, as an equivalence. The proofs about the grammar go by
these and look into no definition: soundness reads them from left to right, completeness from right
to left.

Each equivalence is about one layer of the grammar over any other (`inner`), so it speaks of what
the layer below reads and of single tokens, and names every state in between. What a parser does
when it fails is not in them. Where failures matter, the functions are gone through with rules for
outcomes, and for this `interior` and `extend` are named here: the parts behind an opening
parenthesis and behind an operator.

A second purpose is progress. A chain that is begun because an operator has been seen reads that
operator (`Moving`), which is why the loops of the grammar end.
-/

set_option autoImplicit false

namespace ThreeAddress

namespace ParserState

/-- The binary operator that comes next, if one does. Chains and right sides decide by nothing else.
-/
def aheadOp (st : ParserState) : Option (BinOp × Span) :=
  st.ahead.bind fun token => token.binaryOp.toOption

/-- No operator comes next that binds as tight as `floor`. This is when a chain ends. -/
def StopsBelow (st : ParserState) (floor : Precedence) : Prop :=
  ∀ op span, st.aheadOp = some (op, span) → op.precedence < floor

/-- No operator comes next that the right side of `op` would take in. One of the same precedence
counts if it groups to the right, so this is not a special case of `StopsBelow`. -/
def StopsAfter (st : ParserState) (op : BinOp) : Prop :=
  ∀ following span, st.aheadOp = some (following, span) → ¬op.precedence < following.precedence ∧
    ¬(following.precedence = op.precedence ∧ following.associativity = .right)

variable {st : ParserState}

theorem toOption_eq_some_iff {ε α : Type} {r : Except ε α} {a : α} :
    r.toOption = some a ↔ r = .ok a := by
  cases r <;> simp [Except.toOption]

theorem exists_of_isNone_toOption {ε α : Type} {r : Except ε α} (h : r.toOption.isNone) :
    ∃ e, r = .error e := by
  cases r with
  | ok a => cases h
  | error e => exact ⟨e, rfl⟩

/-- An operator that comes next is a token that comes next, and its kind. -/
theorem aheadOp_eq_some_iff {op : BinOp} {span : Span} :
    st.aheadOp = some (op, span) ↔
      ∃ token, st.ahead = some token ∧ token.kind = op.kind ∧ span = token.span := by
  simp only [aheadOp, Option.bind_eq_some_iff, toOption_eq_some_iff, Token.binaryOp_ok_iff]

theorem stopsBelow_of_none (h : st.aheadOp = none) (floor : Precedence) : st.StopsBelow floor := by
  intro op span hahead
  rw [h] at hahead
  cases hahead

end ParserState

namespace Phrase

open ThreeAddress.Parser ThreeAddress.ParserState

variable {inner : Phrase → Parser Expr} {st st' : ParserState} {e lhs rhs : Expr}
  {floor : Precedence} {op : BinOp}

/-- An expression is an operand and what that grows into. Nothing is read if a closing parenthesis
comes first, which is complained of. -/
theorem expr_ok_iff :
    read inner .expr st = .ok e st' ↔ (st.ahead.map (·.kind) ≠ some .closeParen) ∧
      ∃ lhs st₁, inner .operand st = .ok lhs st₁ ∧ inner (.chain lhs .any) st₁ = .ok e st' := by
  rw [Phrase.read, bind_of_ok (upcomingKind_eq st)]
  split
  next hclose =>
    simp only [hclose, ne_eq, not_true_eq_false, false_and, iff_false]
    intro h
    obtain ⟨token, st₁, -, h⟩ := bind_ok_iff.mp h
    obtain ⟨_, _, hthrow, -⟩ := bind_ok_iff.mp h
    exact throw_ne_ok hthrow
  next hclose =>
    rw [bind_ok_iff, ne_eq, and_iff_right hclose]

/-- A chain is a loop that starts from the expression so far, with its height. The height in the end
is left open; that it is the right one is shown elsewhere. -/
theorem chain_ok_iff :
    read inner (.chain lhs floor) st = .ok e st' ↔
      ∃ height, grow (chainTurn inner floor) (lhs, lhs.height) st = .ok (e, height) st' := by
  rw [Phrase.read, bind_ok_iff]
  constructor
  · rintro ⟨⟨e', height⟩, st₁, hgrow, h⟩
    obtain ⟨rfl, rfl⟩ := pure_ok_iff.mp h
    exact ⟨height, hgrow⟩
  · rintro ⟨height, hgrow⟩
    exact ⟨(e, height), st', hgrow, rfl⟩

theorem primary_of_paren (h : st.ahead.map (·.kind) = some .openParen) :
    primary inner st = attempt (inner .paren) st := by
  rw [primary, bind_of_ok (upcomingKind_eq st), if_pos h]

/-- Anything but a parenthesis is taken for a literal, and that succeeds for numbers and names only.
-/
theorem primary_ok_iff (h : st.ahead.map (·.kind) ≠ some .openParen) :
    primary inner st = .ok e st' ↔ ∃ token, next st = .ok token st' ∧
      ∃ value, value.IsToken token ∧ e = .literal value token.span := by
  rw [primary, bind_of_ok (upcomingKind_eq st), if_neg h, attempt_ok_iff, tokenAs_ok_iff]
  apply exists_congr
  intro token
  apply and_congr_right
  intro _
  simp only [← Token.literal_ok_iff, Token.literalExpr]
  cases token.literal with
  | error fault => simp [bind, Except.bind]
  | ok value => simp [bind, Except.bind, pure, Except.pure, eq_comm]

theorem isSome_unaryOp_iff {token : Token} :
    token.unaryOp.toOption.isSome ↔ ∃ sign : UnOp, token.kind = sign.kind := by
  simp only [Option.isSome_iff_exists, toOption_eq_some_iff, Prod.exists, Token.unaryOp_ok_iff]
  constructor
  · rintro ⟨sign, _, hkind, -⟩
    exact ⟨sign, hkind⟩
  · rintro ⟨sign, hkind⟩
    exact ⟨sign, token.span, hkind, rfl⟩

/-- The token ahead decides which operand it is. -/
theorem operand_ok_iff :
    read inner .operand st = .ok e st' ↔ ∃ token, st.ahead = some token ∧
      ((∃ sign : UnOp, token.kind = sign.kind) ∧ inner .signed st = .ok e st' ∨
        token.kind = .openParen ∧ inner .paren st = .ok e st' ∨
        next st = .ok token st' ∧
          ∃ value, value.IsToken token ∧ e = .literal value token.span) := by
  rw [Phrase.read, bind_of_ok (lookahead_tokenAs Token.unaryOp st)]
  cases hahead : st.ahead with
  | none =>
    have hparen : st.ahead.map (·.kind) ≠ some .openParen := by simp [hahead]
    simp only [Option.bind_none, Option.isSome_none, Bool.false_eq_true, if_false, reduceCtorEq,
      false_and, exists_false, iff_false]
    rw [attempt_ok_iff, primary_ok_iff hparen]
    rintro ⟨token, hnext, -⟩
    rw [ahead_of_next hnext] at hahead
    cases hahead
  | some token =>
    simp only [Option.bind_some, Option.some.injEq, exists_eq_left']
    by_cases hsign : ∃ sign : UnOp, token.kind = sign.kind
    · rw [if_pos (isSome_unaryOp_iff.mpr hsign)]
      -- neither a parenthesis nor a literal begins as a sign does
      obtain ⟨sign, hkind⟩ := hsign
      constructor
      · intro h
        exact .inl ⟨⟨sign, hkind⟩, h⟩
      · rintro (⟨-, h⟩ | ⟨hparen, -⟩ | ⟨-, value, hvalue, -⟩)
        · exact h
        · exact (sign.kind_ne_openParen (hkind.symm.trans hparen)).elim
        · exact (hvalue.kind_ne_sign sign hkind).elim
    · rw [if_neg fun h => hsign (isSome_unaryOp_iff.mp h), attempt_ok_iff]
      by_cases hparen : token.kind = .openParen
      · rw [primary_of_paren (by rw [hahead, Option.map_some, hparen]), attempt_ok_iff]
        constructor
        · intro h
          exact .inr (.inl ⟨hparen, h⟩)
        · rintro (⟨h, -⟩ | ⟨-, h⟩ | ⟨-, value, hvalue, -⟩)
          · exact (hsign h).elim
          · exact h
          · exact (hvalue.kind_ne_openParen hparen).elim
      · rw [primary_ok_iff (by simpa [hahead] using hparen)]
        constructor
        · rintro ⟨token', hnext, hvalue⟩
          obtain rfl : token = token' :=
            Option.some.inj (hahead.symm.trans (ahead_of_next hnext))
          exact .inr (.inr ⟨hnext, hvalue⟩)
        · rintro (⟨h, -⟩ | ⟨h, -⟩ | h)
          · exact (hsign h).elim
          · exact (hparen h).elim
          · exact ⟨token, h⟩

/-- A sign is a token, a level of nesting, an operand, and the chain of powers that grow from it.
The range goes from the sign to where the operand ends. -/
theorem signed_ok_iff :
    read inner .signed st = .ok e st' ↔ ∃ sign token st₁ first st₂ operand st₃,
      next st = .ok token st₁ ∧ token.kind = UnOp.kind sign ∧ st₁.nesting < nestingLimit ∧
        inner .operand st₁.deepened = .ok first st₂ ∧
        inner (.chain first .neg) st₂ = .ok operand st₃ ∧ st' = st₃.raised ∧
        e = .unary sign token.span operand (token.span.through operand.span) := by
  rw [Phrase.read, withSign, bind_ok_iff]
  constructor
  · rintro ⟨⟨sign, signSpan⟩, st₁, hsign, h⟩
    obtain ⟨token, hnext, hconvert⟩ := tokenAs_ok_iff.mp (attempt_ok_iff.mp hsign)
    obtain ⟨hkind, rfl⟩ := Token.unaryOp_ok_iff.mp hconvert
    obtain ⟨hnesting, st₃, hrun, rfl⟩ := deeper_ok_iff.mp h
    obtain ⟨first, st₂, hfirst, h⟩ := bind_ok_iff.mp hrun
    obtain ⟨operand, st₃', hoperand, h⟩ := bind_ok_iff.mp h
    obtain ⟨rfl, rfl⟩ := pure_ok_iff.mp h
    exact ⟨sign, token, st₁, first, st₂, operand, st₃', hnext, hkind, hnesting, hfirst, hoperand,
      rfl, rfl⟩
  · rintro ⟨sign, token, st₁, first, st₂, operand, st₃, hnext, hkind, hnesting, hfirst, hoperand,
      rfl, rfl⟩
    refine ⟨(sign, token.span), st₁, ?_, ?_⟩
    · exact attempt_ok_iff.mpr
        (tokenAs_ok_iff.mpr ⟨token, hnext, Token.unaryOp_ok_iff.mpr ⟨hkind, rfl⟩⟩)
    · refine deeper_ok_iff.mpr ⟨hnesting, st₃, ?_, rfl⟩
      exact bind_ok_iff.mpr ⟨first, st₂, hfirst, bind_ok_iff.mpr ⟨operand, st₃, hoperand, rfl⟩⟩

/-- Reads what stands behind an opening parenthesis, up to and with the closing one. The kind is
that of the token that comes next. -/
def interior (inner : Phrase → Parser Expr) (opening : Token) : Option TokenKind → Parser Expr
  | none => throw (.form opening.span (.unclosedParenthesis true))
  | some .closeParen => do
    let closing ← attempt (tokenAs (Token.ofKind .closeParen))
    throw (.form (opening.span.through closing.span) .emptyParenthesis)
  | some _ => do
    let e ← attempt (inner .expr)
    let closing ← failingWith (.form opening.span (.unclosedParenthesis true))
      (attempt (tokenAs (Token.ofKind .closeParen)))
    return .paren e (opening.span.through closing.span)

/-- Parentheses, with their interior under a name. It holds by definition, and proofs about
parentheses begin with it. -/
theorem parenthesized_eq (inner : Phrase → Parser Expr) :
    parenthesized inner = (do
      let opening ← attempt (tokenAs (Token.ofKind .openParen))
      deeper (enclosed (do interior inner opening (← upcomingKind)))) := rfl

/-- The interior succeeds in one of its three cases, with an expression and a closing parenthesis
behind. -/
theorem interior_ok_iff {opening : Token} {kind? : Option TokenKind} :
    interior inner opening kind? st = .ok e st' ↔ ∃ kind content st₁ closing,
      kind? = some kind ∧ kind ≠ .closeParen ∧
        inner .expr st = .ok content st₁ ∧ next st₁ = .ok closing st' ∧
        closing.kind = .closeParen ∧ e = .paren content (opening.span.through closing.span) := by
  unfold interior
  split
  next => simp [throw_ne_ok]
  next => simp [bind_ok_iff, throw_ne_ok]
  next kind hne =>
    constructor
    · intro h
      obtain ⟨content, st₁, hcontent, h⟩ := bind_ok_iff.mp h
      obtain ⟨closing, st₂, hclosing, h⟩ := bind_ok_iff.mp h
      obtain ⟨token, hnext, hconvert⟩ :=
        tokenAs_ok_iff.mp (attempt_ok_iff.mp (failingWith_ok_iff.mp hclosing))
      obtain ⟨hkind, rfl⟩ := Token.ofKind_ok_iff.mp hconvert
      obtain ⟨rfl, rfl⟩ := pure_ok_iff.mp h
      exact ⟨kind, content, st₁, token, rfl, hne, attempt_ok_iff.mp hcontent, hnext, hkind, rfl⟩
    · rintro ⟨_, content, st₁, closing, -, -, hcontent, hnext, hkind, rfl⟩
      refine bind_ok_iff.mpr ⟨content, st₁, attempt_ok_iff.mpr hcontent, ?_⟩
      refine bind_ok_iff.mpr ⟨closing, st', ?_, rfl⟩
      exact failingWith_ok_iff.mpr (attempt_ok_iff.mpr
        (tokenAs_ok_iff.mpr ⟨closing, hnext, Token.ofKind_ok_iff.mpr ⟨hkind, rfl⟩⟩))

/-- Parentheses, with all that happens between them: two counters go up behind the opening one and
down behind the closing one, and the expression is read in between from the state `inside`. -/
theorem paren_ok_iff :
    read inner .paren st = .ok e st' ↔ ∃ opening st₁ kind content st₂ closing st₃,
      next st = .ok opening st₁ ∧ opening.kind = .openParen ∧ st₁.nesting < nestingLimit ∧
        st₁.inside.ahead.map (·.kind) = some kind ∧ kind ≠ .closeParen ∧
        inner .expr st₁.inside = .ok content st₂ ∧ next st₂ = .ok closing st₃ ∧
        closing.kind = .closeParen ∧ st' = st₃.outside ∧
        e = .paren content (opening.span.through closing.span) := by
  rw [Phrase.read, parenthesized_eq, bind_ok_iff]
  constructor
  · rintro ⟨opening, st₁, hopening, h⟩
    obtain ⟨token, hnext, hconvert⟩ := tokenAs_ok_iff.mp (attempt_ok_iff.mp hopening)
    obtain ⟨hkind, rfl⟩ := Token.ofKind_ok_iff.mp hconvert
    -- one more level, one more open parenthesis, and then the inside
    obtain ⟨hnesting, _, hdeeper, rfl⟩ := deeper_ok_iff.mp h
    obtain ⟨st₃, hrun, rfl⟩ := enclosed_ok_iff.mp hdeeper
    rw [bind_of_ok (upcomingKind_eq _)] at hrun
    obtain ⟨kind, content, st₂, closing, hahead, hne, hcontent, hclosing, hclose, rfl⟩ :=
      interior_ok_iff.mp hrun
    exact ⟨token, st₁, kind, content, st₂, closing, st₃, hnext, hkind, hnesting, hahead, hne,
      hcontent, hclosing, hclose, rfl, rfl⟩
  · rintro ⟨opening, st₁, kind, content, st₂, closing, st₃, hnext, hkind, hnesting, hahead, hne,
      hcontent, hclosing, hclose, rfl, rfl⟩
    refine ⟨opening, st₁, ?_, ?_⟩
    · exact attempt_ok_iff.mpr
        (tokenAs_ok_iff.mpr ⟨opening, hnext, Token.ofKind_ok_iff.mpr ⟨hkind, rfl⟩⟩)
    · refine deeper_ok_iff.mpr ⟨hnesting, { st₃ with openParens := st₃.openParens - 1 }, ?_, rfl⟩
      refine enclosed_ok_iff.mpr ⟨st₃, ?_, rfl⟩
      rw [bind_of_ok (upcomingKind_eq _)]
      exact interior_ok_iff.mpr
        ⟨kind, content, st₂, closing, hahead, hne, hcontent, hclosing, hclose, rfl⟩

/-! ## Turns

A turn either leaves all as it is, or goes on and then has read an operator. For both there is an
equivalence, so that an induction over the turns of a loop has these two cases. -/

/-- Reads an operator that is known to come next, and its right side. -/
def extend (inner : Phrase → Parser Expr) (lhs : Expr) (height : Nat) (op : BinOp)
    (opSpan : Span) : Parser (Option (Expr × Nat)) := do
  discard next
  let first ← inner .operand
  let rhs ← inner (.rightSide op first)
  let span := lhs.span.through rhs.span
  let height := 1 + max height rhs.height
  if heightLimit < height then throw (.form span (.tooDeeplyNested heightLimit))
  return some (.binary op opSpan lhs rhs span, height)

/-- What a turn of a chain does is decided by the operator ahead. Nothing has been read when it
decides. -/
theorem chainTurn_eq (lhs : Expr) (height : Nat) (st : ParserState) :
    chainTurn inner floor (lhs, height) st =
      match st.aheadOp with
      | none => .ok none st
      | some (op, opSpan) =>
        if op.precedence < floor then .ok none st else extend inner lhs height op opSpan st := by
  rw [chainTurn, bind_of_ok (lookahead_tokenAs Token.binaryOp st), aheadOp]
  cases st.ahead.bind fun token => token.binaryOp.toOption with
  | none => rfl
  | some ahead =>
    dsimp only
    split
    · rfl
    · rfl

/-- The right side is an operand and what that grows into. The height of the whole is checked
against the limit only here, where it is made. -/
theorem extend_ok_iff {height : Nat} {opSpan : Span} {grown : Option (Expr × Nat)} :
    extend inner lhs height op opSpan st = .ok grown st' ↔ ∃ token st₁ first st₂ rhs,
      next st = .ok token st₁ ∧ inner .operand st₁ = .ok first st₂ ∧
        inner (.rightSide op first) st₂ = .ok rhs st' ∧
        1 + max height rhs.height ≤ heightLimit ∧
        grown = some (.binary op opSpan lhs rhs (lhs.span.through rhs.span),
          1 + max height rhs.height) := by
  rw [extend, bind_ok_iff]
  constructor
  · rintro ⟨_, st₁, hnext, h⟩
    obtain ⟨token, hnext⟩ := discard_ok_iff.mp hnext
    obtain ⟨first, st₂, hfirst, h⟩ := bind_ok_iff.mp h
    obtain ⟨rhs, st₃, hrhs, h⟩ := bind_ok_iff.mp h
    dsimp only at h
    split at h
    next =>
      obtain ⟨_, _, hthrow, -⟩ := bind_ok_iff.mp h
      exact (throw_ne_ok hthrow).elim
    next hheight =>
      obtain ⟨rfl, rfl⟩ := pure_ok_iff.mp h
      exact ⟨token, st₁, first, st₂, rhs, hnext, hfirst, hrhs, Nat.le_of_not_lt hheight, rfl⟩
  · rintro ⟨token, st₁, first, st₂, rhs, hnext, hfirst, hrhs, hheight, rfl⟩
    refine ⟨(), st₁, discard_ok_iff.mpr ⟨token, hnext⟩, ?_⟩
    refine bind_ok_iff.mpr ⟨first, st₂, hfirst, bind_ok_iff.mpr ⟨rhs, st', hrhs, ?_⟩⟩
    dsimp only
    rw [if_neg (Nat.not_lt.mpr hheight)]
    rfl

/-- A chain stops at an operator that binds too loosely, or at none. -/
theorem chainTurn_none_iff {height : Nat} :
    chainTurn inner floor (lhs, height) st = .ok none st' ↔ st' = st ∧ st.StopsBelow floor := by
  rw [chainTurn_eq, StopsBelow]
  cases st.aheadOp with
  | none => simp [eq_comm]
  | some ahead =>
    obtain ⟨op, opSpan⟩ := ahead
    by_cases hlt : op.precedence < floor
    · simp [hlt, eq_comm]
    · simp only [hlt, if_false, extend_ok_iff]
      simp [hlt]

/-- A chain goes on with the operator ahead, which is the token that is then read. -/
theorem chainTurn_some_iff {height : Nat} {grown : Expr × Nat} :
    chainTurn inner floor (lhs, height) st = .ok (some grown) st' ↔
      ∃ op token st₁ first st₂ rhs, st.aheadOp = some (op, token.span) ∧ ¬op.precedence < floor ∧
        next st = .ok token st₁ ∧ inner .operand st₁ = .ok first st₂ ∧
        inner (.rightSide op first) st₂ = .ok rhs st' ∧
        1 + max height rhs.height ≤ heightLimit ∧
        grown = (.binary op token.span lhs rhs (lhs.span.through rhs.span),
          1 + max height rhs.height) := by
  rw [chainTurn_eq]
  cases hahead : st.aheadOp with
  | none => simp
  | some ahead =>
    obtain ⟨op, opSpan⟩ := ahead
    dsimp only
    constructor
    · intro h
      split at h
      next => cases h
      next hfloor =>
        obtain ⟨token, st₁, first, st₂, rhs, hnext, hfirst, hrhs, hheight, hgrown⟩ :=
          extend_ok_iff.mp h
        -- the token that was looked at is the one that is read
        obtain ⟨token', hahead', -, rfl⟩ := aheadOp_eq_some_iff.mp hahead
        obtain rfl : token = token' :=
          Option.some.inj ((ahead_of_next hnext).symm.trans hahead')
        exact ⟨op, token, st₁, first, st₂, rhs, rfl, hfloor, hnext, hfirst, hrhs, hheight,
          Option.some.inj hgrown⟩
    · rintro ⟨op', token, st₁, first, st₂, rhs, hop, hfloor, hnext, hfirst, hrhs, hheight, rfl⟩
      obtain ⟨rfl, rfl⟩ := Prod.mk.inj (Option.some.inj hop)
      rw [if_neg hfloor]
      exact extend_ok_iff.mpr ⟨token, st₁, first, st₂, rhs, hnext, hfirst, hrhs, hheight, rfl⟩

/-- A right side stops at an operator that does not belong to it, and leaves that to the chain
around it. -/
theorem rightSideTurn_none_iff :
    rightSideTurn inner op rhs st = .ok none st' ↔ st' = st ∧ st.StopsAfter op := by
  rw [rightSideTurn, bind_of_ok (lookahead_tokenAs Token.binaryOp st), StopsAfter, aheadOp]
  cases st.ahead.bind fun token => token.binaryOp.toOption with
  | none => simp [pure_ok_iff, eq_comm]
  | some ahead =>
    obtain ⟨following, span⟩ := ahead
    dsimp only
    split
    next hlt =>
      rw [bind_ok_iff]
      simp [pure_ok_iff, hlt]
    next hlt =>
      split
      next hright =>
        rw [bind_ok_iff]
        simp only [pure_ok_iff, reduceCtorEq, false_and, and_false, exists_false, false_iff]
        rintro ⟨-, hnone⟩
        exact (hnone following span rfl).2 hright
      next hright =>
        rw [pure_ok_iff]
        constructor
        · rintro ⟨-, rfl⟩
          refine ⟨rfl, ?_⟩
          rintro _ _ ⟨⟩
          exact ⟨hlt, hright⟩
        · rintro ⟨rfl, -⟩
          exact ⟨rfl, rfl⟩

/-- A right side goes on with a chain of its own. Its floor is the precedence of the operator ahead
if that binds tighter, and its own if a power follows a power; in the second case it is a level
deeper. -/
theorem rightSideTurn_some_iff {grown : Expr} :
    rightSideTurn inner op rhs st = .ok (some grown) st' ↔
      ∃ following span, st.aheadOp = some (following, span) ∧
        (op.precedence < following.precedence ∧
            inner (.chain rhs following.precedence) st = .ok grown st' ∨
          ¬op.precedence < following.precedence ∧
            (following.precedence = op.precedence ∧ following.associativity = .right) ∧
            deeper (inner (.chain rhs op.precedence)) st = .ok grown st') := by
  -- both branches that go on end like this
  have hsome : ∀ p : Parser Expr,
      (do return some (← p)) st = .ok (some grown) st' ↔ p st = .ok grown st' := by
    intro p
    rw [bind_ok_iff]
    simp [pure_ok_iff]
  rw [rightSideTurn, bind_of_ok (lookahead_tokenAs Token.binaryOp st), aheadOp]
  cases st.ahead.bind fun token => token.binaryOp.toOption with
  | none => simp [pure_ok_iff]
  | some ahead =>
    obtain ⟨following, span⟩ := ahead
    dsimp only
    split
    next hlt =>
      rw [hsome]
      constructor
      · intro h
        exact ⟨following, span, rfl, .inl ⟨hlt, h⟩⟩
      · rintro ⟨_, _, ⟨⟩, ⟨-, h⟩ | ⟨hnot, -⟩⟩
        · exact h
        · exact (hnot hlt).elim
    next hlt =>
      split
      next hright =>
        rw [hsome]
        constructor
        · intro h
          exact ⟨following, span, rfl, .inr ⟨hlt, hright, h⟩⟩
        · rintro ⟨_, _, ⟨⟩, ⟨h, -⟩ | ⟨-, -, h⟩⟩
          · exact (hlt h).elim
          · exact h
      next hright =>
        simp only [pure_ok_iff, reduceCtorEq, false_and, false_iff]
        rintro ⟨_, _, ⟨⟩, ⟨h, -⟩ | ⟨-, h, -⟩⟩
        · exact hlt h
        · exact hright h

/-- An operator that binds tighter begins a chain, and that is all there is to the turn. -/
theorem rightSideTurn_of_lt {following : BinOp} {span : Span}
    (hahead : st.aheadOp = some (following, span)) (hlt : op.precedence < following.precedence) :
    rightSideTurn inner op rhs st =
      (do return some (← inner (.chain rhs following.precedence))) st := by
  rw [aheadOp] at hahead
  rw [rightSideTurn, bind_of_ok (lookahead_tokenAs Token.binaryOp st), hahead]
  dsimp only
  rw [if_pos hlt]

/-! ## Moving on

A turn of a right side reads nothing by itself: it has seen an operator and calls a chain. That this
chain reads the operator is known of the layer below, and so both properties are proved of the
layers together. -/

/-- No phrase goes back, and a chain that begins with an operator reads it. The second part is only
about chains whose floor the operator reaches, which is how right sides call them. -/
structure Moving (inner : Phrase → Parser Expr) : Prop where
  forward : ∀ phrase, Forward (inner phrase)
  less : ∀ {lhs floor st e st' op span}, st.aheadOp = some (op, span) → ¬op.precedence < floor →
    inner (.chain lhs floor) st = .ok e st' → st'.remaining < st.remaining

theorem aheadOp_eq_none_of_remaining (h : st.remaining = 0) : st.aheadOp = none := by
  have hahead : st.ahead = none := by
    rw [ahead, List.eq_nil_of_length_eq_zero h]
    rfl
  rw [aheadOp, hahead, Option.bind_none]

theorem forward_chainTurn (h : Moving inner) (grown : Expr × Nat) :
    Forward (chainTurn inner floor grown) := by
  intro st next st' hturn
  obtain ⟨lhs, height⟩ := grown
  cases next with
  | none =>
    obtain ⟨rfl, -⟩ := chainTurn_none_iff.mp hturn
    exact ⟨[], .refl st'⟩
  | some grown =>
    obtain ⟨op, token, st₁, first, st₂, rhs, -, -, hnext, hfirst, hrhs, -⟩ :=
      chainTurn_some_iff.mp hturn
    obtain ⟨raw₁, h₁⟩ := forward_next hnext
    obtain ⟨raw₂, h₂⟩ := h.forward _ hfirst
    obtain ⟨raw₃, h₃⟩ := h.forward _ hrhs
    exact ⟨raw₁ ++ raw₂ ++ raw₃, (h₁.trans h₂).trans h₃⟩

/-- A turn of a chain reads an operator. With no tokens left there is none. -/
theorem consuming_chainTurn (h : Moving inner) (floor : Precedence) :
    Consuming (chainTurn inner floor) where
  less := by
    rintro ⟨lhs, height⟩ st grown st' hturn
    obtain ⟨op, token, st₁, first, st₂, rhs, -, -, hnext, hfirst, hrhs, -⟩ :=
      chainTurn_some_iff.mp hturn
    have hnext := advances_next hnext
    have hfirst := Forward.remaining_le (h.forward _) hfirst
    have hrhs := Forward.remaining_le (h.forward _) hrhs
    omega
  idle := by
    rintro ⟨lhs, height⟩ st hleft
    refine chainTurn_none_iff.mpr ⟨rfl, ?_⟩
    intro op span hahead
    rw [aheadOp_eq_none_of_remaining hleft] at hahead
    cases hahead

theorem forward_rightSideTurn (h : Moving inner) (rhs : Expr) :
    Forward (rightSideTurn inner op rhs) := by
  intro st next st' hturn
  cases next with
  | none =>
    obtain ⟨rfl, -⟩ := rightSideTurn_none_iff.mp hturn
    exact ⟨[], .refl st'⟩
  | some grown =>
    obtain ⟨following, span, -, ⟨-, hrun⟩ | ⟨-, -, hrun⟩⟩ := rightSideTurn_some_iff.mp hturn
    · exact h.forward _ hrun
    · exact forward_deeper (h.forward _) hrun

/-- A turn of a right side has a chain read the operator. In both cases that operator binds as tight
as the floor. -/
theorem consuming_rightSideTurn (h : Moving inner) (op : BinOp) :
    Consuming (rightSideTurn inner op) where
  less := by
    intro rhs st grown st' hturn
    obtain ⟨following, span, hahead, ⟨-, hrun⟩ | ⟨-, ⟨heq, -⟩, hrun⟩⟩ :=
      rightSideTurn_some_iff.mp hturn
    · exact h.less hahead (Nat.lt_irrefl _) hrun
    · obtain ⟨-, st₁, hrun', rfl⟩ := deeper_ok_iff.mp hrun
      have hahead' : st.deepened.aheadOp = some (following, span) := hahead
      rw [← heq] at hrun'
      have hless : st₁.remaining < st.deepened.remaining :=
        h.less hahead' (Nat.lt_irrefl _) hrun'
      exact hless
  idle := by
    intro rhs st hleft
    refine rightSideTurn_none_iff.mpr ⟨rfl, ?_⟩
    intro following span hahead
    rw [aheadOp_eq_none_of_remaining hleft] at hahead
    cases hahead

theorem forward_interior (h : Moving inner) {opening : Token} {kind? : Option TokenKind} :
    Forward (interior inner opening kind?) := by
  intro st e st' hrun
  obtain ⟨kind, content, st₁, closing, -, -, hcontent, hnext, -⟩ := interior_ok_iff.mp hrun
  obtain ⟨raw₁, h₁⟩ := h.forward _ hcontent
  obtain ⟨raw₂, h₂⟩ := forward_next hnext
  exact ⟨raw₁ ++ raw₂, h₁.trans h₂⟩

theorem forward_read (h : Moving inner) (phrase : Phrase) : Forward (read inner phrase) := by
  intro st e st' hread
  cases phrase with
  | expr =>
    obtain ⟨-, lhs, st₁, hlhs, hchain⟩ := expr_ok_iff.mp hread
    obtain ⟨raw₁, h₁⟩ := h.forward _ hlhs
    obtain ⟨raw₂, h₂⟩ := h.forward _ hchain
    exact ⟨raw₁ ++ raw₂, h₁.trans h₂⟩
  | operand =>
    obtain ⟨token, -, ⟨-, hrun⟩ | ⟨-, hrun⟩ | ⟨hnext, -⟩⟩ := operand_ok_iff.mp hread
    · exact h.forward _ hrun
    · exact h.forward _ hrun
    · exact forward_next hnext
  | signed =>
    refine forward_bind (forward_attempt (forward_tokenAs _)) (fun sign => ?_) hread
    refine forward_deeper (forward_bind (h.forward _) fun first => ?_)
    exact forward_bind (h.forward _) fun operand => forward_pure _
  | paren =>
    refine forward_bind (forward_attempt (forward_tokenAs _)) (fun opening => ?_) hread
    refine forward_deeper (forward_enclosed (forward_bind forward_upcomingKind fun kind? => ?_))
    exact forward_interior h
  | chain lhs floor =>
    obtain ⟨height, hgrow⟩ := chain_ok_iff.mp hread
    exact forward_grow (forward_chainTurn h) _ hgrow
  | rightSide op rhs => exact forward_grow (forward_rightSideTurn h) rhs hread

/-- One layer moves on if the layer below does. The first turn of a chain cannot be the last here,
as the operator is there and binds tightly enough. -/
theorem moving_read (h : Moving inner) : Moving (read inner) where
  forward := forward_read h
  less := by
    intro lhs floor st e st' op span hahead hfloor hread
    have hturn := consuming_chainTurn h floor
    obtain ⟨height, hgrow⟩ := chain_ok_iff.mp hread
    rw [grow_eq hturn, bind_ok_iff] at hgrow
    obtain ⟨next, st₁, hnext, hgrow⟩ := hgrow
    cases next with
    | none => exact (hfloor ((chainTurn_none_iff.mp hnext).2 op span hahead)).elim
    | some grown =>
      have hless := hturn.less hnext
      have hle := Forward.remaining_le (forward_grow (forward_chainTurn h) _) hgrow
      omega

/-- The layers of the grammar, the lowest of which is never reached. -/
def layers (depth : Nat) : Phrase → Parser Expr :=
  readFrom (fun _ => fail (.tooDeeplyNested nestingLimit)) depth

theorem layers_succ (depth : Nat) : layers (depth + 1) = read (layers depth) := rfl

/-- The lowest layer reads nothing, so an induction on the layers about success has nothing to show
of it. -/
theorem layers_zero_ne_ok {phrase : Phrase} : layers 0 phrase st ≠ .ok e st' := by
  intro h
  cases h

/-- All layers move on, however many there are. -/
theorem moving_layers (depth : Nat) : Moving (layers depth) := by
  induction depth with
  | zero =>
    constructor
    · intro phrase st e st' h
      exact (layers_zero_ne_ok h).elim
    · intro lhs floor st e st' op span _ _ h
      exact (layers_zero_ne_ok h).elim
  | succ depth ih =>
    rw [layers_succ]
    exact moving_read ih

end Phrase

end ThreeAddress
