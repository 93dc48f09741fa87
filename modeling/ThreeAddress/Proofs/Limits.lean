import ThreeAddress.Proofs.Heights
import ThreeAddress.Proofs.Restoring

/-!
# How high and how deep trees get

The height of a tree is counted along while a chain of operators is read, and the nesting of
parentheses and signs along the calls of the parser. Neither is counted on the tree that comes of
it. Here it is: in every expression that is read, no operator stands on a tree that is too high, and
no way down goes through too many parentheses and signs (`Expr.InLimits`).

The two limits add up. A way down from the root that meets an operator goes on for as long as that
is high, and before it meets one it only goes through parentheses and signs.
-/

set_option autoImplicit false

namespace ThreeAddress

open ThreeAddress.Parser ThreeAddress.ParserState

/-! ## Ways down a tree

The limits are stated by the ways from the root to the literals, which is what a reader can count.
They are proved by two recursive measures, `enclosures` and `Low`, as a parser builds a tree from
its parts and a way goes through it from the top. -/

namespace Expr

/-- The ways from the root down to a literal, each as the nodes it goes through. All nodes are on
some way, since every tree ends in literals. -/
def ways : Expr → List (List Expr)
  | literal value span => [[literal value span]]
  | paren inner span => inner.ways.map (paren inner span :: ·)
  | unary op opSpan operand span => operand.ways.map (unary op opSpan operand span :: ·)
  | binary op opSpan lhs rhs span =>
    (lhs.ways ++ rhs.ways).map (binary op opSpan lhs rhs span :: ·)

def isBinary : Expr → Bool
  | binary _ _ _ _ _ => true
  | _ => false

/-- Whether the node is a pair of parentheses or a sign. -/
def encloses : Expr → Bool
  | paren _ _ | unary _ _ _ _ => true
  | _ => false

/-- Every binary operator in the expression is at most `heightLimit` high, and no way down goes
through more than `nestingLimit` parentheses and signs. -/
structure InLimits (e : Expr) : Prop where
  height_le : ∀ way ∈ e.ways, ∀ node ∈ way, node.isBinary → node.height ≤ heightLimit
  enclosing_le : ∀ way ∈ e.ways, way.countP encloses ≤ nestingLimit

/-- The greatest number of parentheses and signs on one way down. An operator takes the greater
number of its sides and adds none of its own. -/
def enclosures : Expr → Nat
  | literal _ _ => 0
  | paren inner _ => inner.enclosures + 1
  | unary _ _ operand _ => operand.enclosures + 1
  | binary _ _ lhs rhs _ => max lhs.enclosures rhs.enclosures

/-- No binary operator in the expression is too high. -/
def Low : Expr → Prop
  | literal _ _ => True
  | paren inner _ => inner.Low
  | unary _ _ operand _ => operand.Low
  | e@(binary _ _ lhs rhs _) => e.height ≤ heightLimit ∧ lhs.Low ∧ rhs.Low

/-- No way has more parentheses and signs than the greatest number. -/
theorem countP_encloses_le {e : Expr} {way : List Expr} (h : way ∈ e.ways) :
    way.countP encloses ≤ e.enclosures := by
  induction e generalizing way with
  | literal value span =>
    obtain rfl := List.mem_singleton.mp h
    exact Nat.le_refl 0
  | paren inner span ih =>
    obtain ⟨below, hbelow, rfl⟩ := List.mem_map.mp h
    rw [List.countP_cons_of_pos rfl]
    exact Nat.succ_le_succ (ih hbelow)
  | unary op opSpan operand span ih =>
    obtain ⟨below, hbelow, rfl⟩ := List.mem_map.mp h
    rw [List.countP_cons_of_pos rfl]
    exact Nat.succ_le_succ (ih hbelow)
  | binary op opSpan lhs rhs span ihl ihr =>
    obtain ⟨below, hbelow, rfl⟩ := List.mem_map.mp h
    rw [List.countP_cons_of_neg (by simp [encloses]), enclosures]
    rcases List.mem_append.mp hbelow with hbelow | hbelow
    · exact Nat.le_trans (ihl hbelow) (Nat.le_max_left ..)
    · exact Nat.le_trans (ihr hbelow) (Nat.le_max_right ..)

/-- An operator that is met on any way is a node of the tree, and none of them is too high. -/
theorem Low.height_le {e : Expr} (h : e.Low) {way : List Expr} (hway : way ∈ e.ways)
    {node : Expr} (hnode : node ∈ way) (hbinary : node.isBinary) : node.height ≤ heightLimit := by
  induction e generalizing way with
  | literal value span =>
    obtain rfl := List.mem_singleton.mp hway
    obtain rfl := List.mem_singleton.mp hnode
    cases hbinary
  | paren inner span ih =>
    obtain ⟨below, hbelow, rfl⟩ := List.mem_map.mp hway
    rcases List.mem_cons.mp hnode with rfl | hnode
    · cases hbinary
    · exact ih h hbelow hnode
  | unary op opSpan operand span ih =>
    obtain ⟨below, hbelow, rfl⟩ := List.mem_map.mp hway
    rcases List.mem_cons.mp hnode with rfl | hnode
    · cases hbinary
    · exact ih h hbelow hnode
  | binary op opSpan lhs rhs span ihl ihr =>
    obtain ⟨hheight, hl, hr⟩ := h
    obtain ⟨below, hbelow, rfl⟩ := List.mem_map.mp hway
    rcases List.mem_cons.mp hnode with rfl | hnode
    · exact hheight
    · rcases List.mem_append.mp hbelow with hbelow | hbelow
      · exact ihl hl hbelow hnode
      · exact ihr hr hbelow hnode

/-- A tree is at most as high as an operator may be, and the parentheses and signs on top of it. By
induction: below the first operator the height is bounded by that, and every node above it adds one
to both sides. -/
theorem Low.height_le_add {e : Expr} (h : e.Low) : e.height ≤ heightLimit + e.enclosures := by
  induction e with
  | literal value span =>
    have hone : 1 ≤ heightLimit := by decide
    rw [height_literal]
    omega
  | paren inner span ih =>
    have hinner := ih h
    rw [height_paren, enclosures]
    omega
  | unary op opSpan operand span ih =>
    have hoperand := ih h
    rw [height_unary, enclosures]
    omega
  | binary op opSpan lhs rhs span => exact Nat.le_trans h.1 (Nat.le_add_right ..)

/-- No operator is too high, and no way down goes through more than so many parentheses and signs.
It is the invariant of parsing, with the room that is left for `most`. -/
def Within (most : Nat) (e : Expr) : Prop := e.Low ∧ e.enclosures ≤ most

theorem Within.mono {e : Expr} {most more : Nat} (h : e.Within most) (hle : most ≤ more) :
    e.Within more := ⟨h.1, Nat.le_trans h.2 hle⟩

theorem Within.inLimits {e : Expr} {most : Nat} (h : e.Within most) (hle : most ≤ nestingLimit) :
    e.InLimits where
  height_le _ hway _ hnode hbinary := h.1.height_le hway hnode hbinary
  enclosing_le _ hway := Nat.le_trans (countP_encloses_le hway) (Nat.le_trans h.2 hle)

end Expr

theorem Expr.within_literal {value : Literal} {span : Span} {most : Nat} :
    (Expr.literal value span).Within most := ⟨trivial, Nat.zero_le most⟩

/-! ## What is read of a phrase

Levels of nesting are counted in the state of the parser and given back when a call is done, so what
a call reads has at most as many as there was room for. Both loops read an expression that is there
already; what they add obeys the bound, and so the whole does if the expression did. -/

/-- How many levels are left. -/
def ParserState.room (st : ParserState) : Nat := nestingLimit - st.nesting

theorem ParserState.room_le (st : ParserState) : st.room ≤ nestingLimit := Nat.sub_le ..

namespace Phrase

/-- What has been read as this phrase from `st` on has no more levels than are left there. An
expression that grows may have had more before, but gets no more than it had. Hence the quantifier:
the loops keep any bound that is no less than the room. -/
def Fits (st : ParserState) (e : Expr) : Phrase → Prop
  | chain lhs _ => ∀ most, st.room ≤ most → lhs.Within most → e.Within most
  | rightSide _ rhs => ∀ most, st.room ≤ most → rhs.Within most → e.Within most
  | _ => e.Within st.room

/-- All that is read fits. -/
def Fitting (inner : Phrase → Parser Expr) : Prop :=
  ∀ phrase {st e st'}, inner phrase st = .ok e st' → phrase.Fits st e

variable {inner : Phrase → Parser Expr} {st st' : ParserState} {e lhs rhs : Expr}
  {floor : Precedence} {op : BinOp} {most : Nat}

/-- A parser that succeeds leaves the nesting as it was. -/
theorem room_eq_of_forward {α : Type} {p : Parser α} (hp : Forward p) {a : α}
    (h : p st = .ok a st') : st'.room = st.room := by
  obtain ⟨raw, hraw⟩ := hp h
  rw [room, room, hraw.nesting]

theorem fits_expr (h : Fitting inner) (hmoving : Moving inner)
    (hread : read inner .expr st = .ok e st') : e.Within st.room := by
  obtain ⟨-, lhs, st₁, hlhs, hchain⟩ := expr_ok_iff.mp hread
  have hroom := room_eq_of_forward (hmoving.forward _) hlhs
  exact h _ hchain st.room (Nat.le_of_eq hroom) (h .operand hlhs)

theorem fits_operand (h : Fitting inner) (hread : read inner .operand st = .ok e st') :
    e.Within st.room := by
  obtain ⟨token, -, ⟨-, hrun⟩ | ⟨-, hrun⟩ | ⟨-, value, -, rfl⟩⟩ := operand_ok_iff.mp hread
  · exact h .signed hrun
  · exact h .paren hrun
  · exact Expr.within_literal

/-- The operand of a sign is read with one level less room, and the sign takes that level. -/
theorem fits_signed (h : Fitting inner) (hmoving : Moving inner)
    (hread : read inner .signed st = .ok e st') : e.Within st.room := by
  obtain ⟨sign, token, st₁, first, st₂, operand, st₃, hnext, -, hlimit, hfirst, hoperand, -,
    rfl⟩ := signed_ok_iff.mp hread
  have hroom₁ : st₁.room = st.room := room_eq_of_forward forward_next hnext
  have hroom₂ := room_eq_of_forward (hmoving.forward _) hfirst
  have hfirst : first.Within st₁.deepened.room := h .operand hfirst
  obtain ⟨hlow, henclosures⟩ := h _ hoperand st₁.deepened.room (Nat.le_of_eq hroom₂) hfirst
  have hdeep : st₁.deepened.room + 1 = st₁.room := by
    simp only [room, deepened]
    omega
  refine ⟨hlow, ?_⟩
  rw [Expr.enclosures]
  omega

theorem fits_paren (h : Fitting inner) (hread : read inner .paren st = .ok e st') :
    e.Within st.room := by
  obtain ⟨opening, st₁, kind, content, st₂, closing, st₃, hopening, -, hlimit, -, -, hcontent, -,
    -, -, rfl⟩ := paren_ok_iff.mp hread
  have hroom : st₁.room = st.room := room_eq_of_forward forward_next hopening
  obtain ⟨hlow, henclosures⟩ : content.Within st₁.inside.room := h .expr hcontent
  have hdeep : st₁.inside.room + 1 = st₁.room := by
    simp only [room, inside]
    omega
  refine ⟨hlow, ?_⟩
  rw [Expr.enclosures]
  omega

/-- The height that goes along with a chain is that of the tree, so what a turn makes of it is not
too high. -/
theorem fits_chain (h : Fitting inner) (hmoving : Moving inner)
    (hread : read inner (.chain lhs floor) st = .ok e st') (hroom : st.room ≤ most)
    (hlhs : lhs.Within most) : e.Within most := by
  obtain ⟨height, hgrow⟩ := chain_ok_iff.mp hread
  -- the invariant: there is room, what has grown is within bounds, and its height is known
  have hstep : ∀ {a : Expr × Nat} {st₁ b st₂},
      st₁.room ≤ most ∧ a.1.Within most ∧ a.2 = a.1.height →
      chainTurn inner floor a st₁ = .ok (some b) st₂ →
      st₂.room ≤ most ∧ b.1.Within most ∧ b.2 = b.1.height := by
    rintro ⟨l, n⟩ st₁ b st₂ ⟨hroom, ⟨hlow, hle⟩, hheight⟩ hturn
    have hroom₂ := room_eq_of_forward (forward_chainTurn hmoving (l, n)) hturn
    obtain ⟨op, token, st₃, first, st₄, rhs, -, -, hnext, hfirst, hrhs, hlimit, rfl⟩ :=
      chainTurn_some_iff.mp hturn
    have hroom₃ : st₃.room = st₁.room := room_eq_of_forward forward_next hnext
    have hroom₄ := room_eq_of_forward (hmoving.forward _) hfirst
    have hfirst : first.Within st₃.room := h .operand hfirst
    obtain ⟨hlow', hle'⟩ :=
      h _ hrhs most (by omega) (hfirst.mono (by omega))
    obtain rfl : n = l.height := hheight
    have hheight' : (Expr.binary op token.span l rhs (l.span.through rhs.span)).height ≤
        heightLimit := by
      rwa [Expr.height_binary]
    exact ⟨by omega, ⟨⟨hheight', hlow, hlow'⟩, Nat.max_le.mpr ⟨hle, hle'⟩⟩,
      Expr.height_binary.symm⟩
  obtain ⟨st₁, ⟨-, hwithin, -⟩, -⟩ := grow_induct (consuming_chainTurn hmoving floor)
    (fun a st => st.room ≤ most ∧ a.1.Within most ∧ a.2 = a.1.height) hstep hgrow
    ⟨hroom, hlhs, rfl⟩
  exact hwithin

/-- A turn reads at the same depth or a level deeper, where the bound is smaller still. -/
theorem fits_rightSide (h : Fitting inner) (hmoving : Moving inner)
    (hread : read inner (.rightSide op rhs) st = .ok e st') (hroom : st.room ≤ most)
    (hrhs : rhs.Within most) : e.Within most := by
  have hstep : ∀ {a : Expr} {st₁ b st₂}, st₁.room ≤ most ∧ a.Within most →
      rightSideTurn inner op a st₁ = .ok (some b) st₂ → st₂.room ≤ most ∧ b.Within most := by
    rintro a st₁ b st₂ ⟨hroom, ha⟩ hturn
    have hroom₂ := room_eq_of_forward (forward_rightSideTurn hmoving a) hturn
    obtain ⟨following, span, -, ⟨-, hrun⟩ | ⟨-, -, hrun⟩⟩ := rightSideTurn_some_iff.mp hturn
    · exact ⟨by omega, h _ hrun most hroom ha⟩
    · -- a level deeper there is less room
      obtain ⟨-, st₃, hrun', -⟩ := deeper_ok_iff.mp hrun
      have hdeep : st₁.deepened.room ≤ most := by
        simp only [room, deepened] at hroom ⊢
        omega
      exact ⟨by omega, h _ hrun' most hdeep ha⟩
  obtain ⟨st₁, ⟨-, hwithin⟩, -⟩ := grow_induct (consuming_rightSideTurn hmoving op)
    (fun a st => st.room ≤ most ∧ a.Within most) hstep hread ⟨hroom, hrhs⟩
  exact hwithin

theorem fitting_read (h : Fitting inner) (hmoving : Moving inner) : Fitting (read inner) := by
  intro phrase st e st' hread
  cases phrase with
  | expr => exact fits_expr h hmoving hread
  | operand => exact fits_operand h hread
  | signed => exact fits_signed h hmoving hread
  | paren => exact fits_paren h hread
  | chain lhs floor =>
    intro most hroom hlhs
    exact fits_chain h hmoving hread hroom hlhs
  | rightSide op rhs =>
    intro most hroom hrhs
    exact fits_rightSide h hmoving hread hroom hrhs

/-- By induction on the layers, the lowest of which reads nothing. -/
theorem fitting_layers (depth : Nat) : Fitting (layers depth) := by
  induction depth with
  | zero =>
    intro phrase st e st' h
    exact (layers_zero_ne_ok h).elim
  | succ depth ih =>
    rw [layers_succ]
    exact fitting_read ih (moving_layers depth)

theorem fits_parse {phrase : Phrase} (h : phrase.parse st = .ok e st') : phrase.Fits st e :=
  fitting_layers callDepth phrase h

end Phrase

/-! ## What is read of a text

At the beginning nothing is nested, so that the room is the limit itself. In other states of the
parser it is less, and the limits hold all the more. -/

namespace Parser

variable {st st' : ParserState} {e : Expr}

theorem within_of_literalExpr {token : Token} {most : Nat} (h : token.literalExpr = .ok e) :
    e.Within most := by
  rw [Token.literalExpr] at h
  cases hvalue : token.literal with
  | error fault =>
    rw [hvalue] at h
    cases h
  | ok value =>
    rw [hvalue] at h
    cases h
    exact Expr.within_literal

theorem within_of_expr (h : Parser.expr st = .ok e st') : e.Within st.room :=
  Phrase.fits_parse h

theorem within_of_climb {floor : Precedence} (h : climb floor st = .ok e st') :
    e.Within st.room := by
  obtain ⟨lhs, st₁, hlhs, hchain⟩ := bind_ok_iff.mp h
  have hroom := Phrase.room_eq_of_forward ((Phrase.moving_layers _).forward .operand) hlhs
  exact Phrase.fits_parse hchain st.room (Nat.le_of_eq hroom) (Phrase.fits_parse hlhs)

theorem within_of_assignment {stmt : Stmt} (h : assignment st = .ok stmt st')
    (he : stmt.value? = some e) : e.Within nestingLimit := by
  obtain ⟨target, st₁, sign, st₂, value, -, -, -, -, hvalue, rfl⟩ := assignment_ok_iff.mp h
  obtain rfl : value = e := Option.some.inj he
  exact (within_of_expr hvalue).mono st₂.room_le

theorem within_of_statement {stmt : Stmt} (h : statement st = .ok stmt st')
    (he : stmt.value? = some e) : e.Within nestingLimit := by
  cases stmt with
  | assign target value span => exact within_of_assignment (assignment_of_statement h) he
  | unsupported kind span => cases he

/-- What has been read of a program is checked statement by statement. Here the height of the whole
expression is checked once more, parentheses and signs included, which is why assignments obey the
sharper bound. -/
theorem within_of_program {stmts : List Stmt} (h : program st = .ok stmts st')
    {stmt : Stmt} (hmem : stmt ∈ stmts) (he : stmt.value? = some e) :
    e.Within nestingLimit ∧ e.height ≤ heightLimit := by
  let Checked (stmts : List Stmt) : Prop := ∀ stmt ∈ stmts, ∀ e, stmt.value? = some e →
    e.Within nestingLimit ∧ e.height ≤ heightLimit
  have hstep : ∀ {stmts st more st'}, Checked stmts →
      programTurn stmts st = .ok (some more) st' → Checked more := by
    intro stmts st more st' hstmts hturn
    obtain ⟨st₁, last, st₂, -, -, hlast, hheight, -, rfl⟩ := programTurn_some_iff.mp hturn
    intro stmt hmem e he
    rcases List.mem_append.mp hmem with hmem | hmem
    · exact hstmts stmt hmem e he
    · obtain rfl := List.mem_singleton.mp hmem
      exact ⟨within_of_statement hlast he, hheight e he⟩
  obtain ⟨st₁, hchecked, -⟩ := grow_induct consuming_programTurn (fun stmts _ => Checked stmts)
    hstep h (by simp [Checked])
  exact hchecked stmt hmem e he

end Parser

/-- The expressions in what has been read of a part. -/
def Part.exprs : (part : Part) → part.Value → List Expr
  | .expr, e | .literal, e | .paren, e | .primary, e => [e]
  | .statement, stmt | .assignment, stmt => (Stmt.value? stmt).toList
  | .ident, _ | .unaryOp, _ | .binaryOp, _ | .mark _, _ => []

/-- The expressions in the answer to a call. -/
def Call.exprs : (call : Call) → call.Value → List Expr
  | .read part, value | .attempt part, value | .peek part, value | .full part, value =>
    part.exprs value
  | .program, stmts => List.filterMap Stmt.value? stmts
  | .next, _ | .upcomingKind, _ | .upcomingAre _, _ | .atEnd, _ | .span, _ => []

theorem Part.within {part : Part} {value : part.Value} {st st' : ParserState} {e : Expr}
    (h : part.parser st = .ok value st') (he : e ∈ part.exprs value) : e.Within nestingLimit := by
  cases part with
  | expr =>
    obtain rfl := List.mem_singleton.mp he
    exact (within_of_expr h).mono st.room_le
  | literal =>
    obtain rfl := List.mem_singleton.mp he
    obtain ⟨token, -, hconvert⟩ := tokenAs_ok_iff.mp h
    exact within_of_literalExpr hconvert
  | paren =>
    obtain rfl := List.mem_singleton.mp he
    exact (Phrase.fits_parse h).mono st.room_le
  | primary =>
    obtain rfl := List.mem_singleton.mp he
    -- a primary is a pair of parentheses or a literal, by the first token
    by_cases hparen : st.ahead.map (·.kind) = some .openParen
    · have hrun : attempt Phrase.paren.parse st = .ok e st' :=
        (Phrase.primary_of_paren hparen).symm.trans h
      exact (Phrase.fits_parse (attempt_ok_iff.mp hrun)).mono st.room_le
    · obtain ⟨token, -, literal, -, rfl⟩ := (Phrase.primary_ok_iff hparen).mp h
      exact Expr.within_literal
  | statement => exact within_of_statement h (Option.mem_toList.mp he)
  | assignment => exact within_of_assignment h (Option.mem_toList.mp he)
  | ident | unaryOp | binaryOp | mark => cases he

theorem Call.within {call : Call} {value : call.Value} {st st' : ParserState} {e : Expr}
    (h : call.parser st = .ok value st') (he : e ∈ call.exprs value) :
    e.Within nestingLimit := by
  cases call with
  | read part => exact part.within h he
  | attempt part => exact part.within (attempt_ok_iff.mp h) he
  | peek part =>
    obtain ⟨st₁, hrun, -⟩ := peek_ok_iff.mp h
    exact part.within hrun he
  | full part => exact part.within (full_ok_iff.mp h).1 he
  | program =>
    obtain ⟨stmt, hmem, hvalue⟩ := List.mem_filterMap.mp he
    exact (within_of_program h hmem hvalue).1
  | next | upcomingKind | upcomingAre | atEnd | span => cases he

/-- The limits hold. An expression that is read, by whatever call and in whatever state of the
parser, has no operator that is too high and no way down with too many parentheses and signs. So an
expression that is read from a text is at most as high as both limits together, and the value of an
assignment in a program is at most as high as an operator may be. -/
theorem inLimits_of_read (st : ParserState) (source : String) :
    (∀ call value st', Call.parser call st = .ok value st' →
      ∀ e ∈ call.exprs value, e.InLimits) ∧
    (∀ e st', Phrase.operand.parse st = .ok e st' ∨ Phrase.signed.parse st = .ok e st' ∨
      (∃ floor, climb floor st = .ok e st') → e.InLimits) ∧
    (∀ e, parseExpr source = .ok e → e.height ≤ heightLimit + nestingLimit) ∧
    ∀ stmts target value span, parseProgram source = .ok stmts →
      Stmt.assign target value span ∈ stmts → value.height ≤ heightLimit := by
  refine ⟨?_, ?_, ?_, ?_⟩
  · intro call value st' h e he
    exact (Call.within h he).inLimits (Nat.le_refl _)
  · rintro e st' (h | h | ⟨floor, h⟩)
    · exact (Phrase.fits_parse h).inLimits st.room_le
    · exact (Phrase.fits_parse h).inLimits st.room_le
    · exact (within_of_climb h).inLimits st.room_le
  · intro e h
    obtain ⟨st', hfull⟩ := runOn_ok_iff.mp h
    obtain ⟨hlow, hle⟩ := (within_of_expr (full_ok_iff.mp hfull).1).mono (room_le _)
    have hheight := hlow.height_le_add
    omega
  · intro stmts target value span h hmem
    obtain ⟨st', hprogram⟩ := runOn_ok_iff.mp h
    exact (within_of_program hprogram hmem rfl).2

/-- An expression with a sign, a power and parentheses, and an assignment. -/
theorem inLimits_of_read_cases :
    (∃ e, parseExpr "-(1 + 2) ** 3" = .ok e ∧ e.InLimits ∧
      e.height ≤ heightLimit + nestingLimit) ∧
      ∃ target value span, parseProgram "x = (1)" = .ok [.assign target value span] ∧
        value.height ≤ heightLimit := by
  constructor
  · have hread : (parseExpr "-(1 + 2) ** 3").toOption.isSome := by decide +kernel
    obtain ⟨e, he⟩ := Option.isSome_iff_exists.mp hread
    rw [toOption_eq_some_iff] at he
    obtain ⟨st', hfull⟩ := runOn_ok_iff.mp he
    obtain ⟨hcall, -, hexpr, -⟩ := inLimits_of_read (start "-(1 + 2) ** 3") "-(1 + 2) ** 3"
    exact ⟨e, he, hcall (.full .expr) e st' hfull e (List.mem_singleton_self e), hexpr e he⟩
  · have hread : (parseProgram "x = (1)").toOption.map (·.map fun stmt => stmt.value?.isSome) =
        some [true] := by decide +kernel
    obtain ⟨stmts, hstmts, hvalues⟩ := Option.map_eq_some_iff.mp hread
    obtain ⟨stmt, rfl, hvalue⟩ := List.map_eq_singleton_iff.mp hvalues
    rw [toOption_eq_some_iff] at hstmts
    cases stmt with
    | unsupported kind span => cases hvalue
    | assign target value span =>
      obtain ⟨-, -, -, hprogram⟩ := inLimits_of_read (start "x = (1)") "x = (1)"
      exact ⟨target, value, span, hstmts, hprogram _ target value span hstmts List.mem_cons_self⟩

end ThreeAddress
