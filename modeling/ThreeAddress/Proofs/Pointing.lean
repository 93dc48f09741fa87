import ThreeAddress.Proofs.BareExpressions
import ThreeAddress.Proofs.Boundaries
import ThreeAddress.Proofs.Outcomes

/-!
# Where errors point

Every error of a compilation points into the text that was compiled: with one range, from one
boundary of tokens to another, and with only ASCII before it (`Diagnostic.PointsInto`). The ranges
come from the token at hand, the end of the text, parts of expressions put together, statements, and
instructions that have been folded.

What goes through the parser is that it walks over no symbol (`ParserState.Clear`): it stops at the
first one, and there it fails. So whatever has been read lies behind ASCII, and can be pointed at
later, when an operator is found to be too high or a result out of range.

There are two kinds of errors and two arguments. Those of the parser are followed through the
grammar with the rules of `Outcomes`, layer by layer, along with where every node of the tree stands
(`Expr.Placed`). Those of folding come later, when the parser is done: each is at the range of an
instruction, that is the range of a node or a statement, and the whole program has been walked over
by then.
-/

set_option autoImplicit false

namespace ThreeAddress

open ThreeAddress.Parser ThreeAddress.ParserState

variable {source : String} {m n : Nat} {span span' : Span} {st st' : ParserState}

/-! ## What a parser comes to

The rules of `Outcomes` with `E` fixed. The aliases save writing the predicate on diagnostics at
every step; where the grammar throws, they ask for a range that is indicated and nothing else, so
that the fault itself plays no part. -/

namespace Parser

variable {α β σ : Type} {p : Parser α} {Q R : α → ParserState → Prop}

/-- The outcome is a value with `Q`, or an error that points into the text. This is `Ends
(Diagnostic.Indicated source) Q`, spelled out. -/
def Points (source : String) (Q : α → ParserState → Prop) :
    EStateM.Result Diagnostic ParserState α → Prop
  | .ok a st' => Q a st'
  | .error d _ => d.Indicated source

/-! The rules for outcomes, for errors that point into the text. -/

theorem Points.of_ok {a : α} (h : Points source Q (p st)) (hp : p st = .ok a st') : Q a st' :=
  Ends.of_ok h hp

theorem Points.of_error {d : Diagnostic} (h : Points source Q (p st)) (hp : p st = .error d st') :
    d.Indicated source :=
  Ends.of_error h hp

theorem Points.mono (h : Points source Q (p st)) (hmono : ∀ a st', Q a st' → R a st') :
    Points source R (p st) :=
  Ends.mono h fun a st' _ => hmono a st'

theorem points_bind {f : α → Parser β} {R : β → ParserState → Prop} (h : Points source Q (p st))
    (hf : ∀ a st', Q a st' → Points source R (f a st')) : Points source R ((p >>= f) st) :=
  ends_bind h hf

theorem points_throw {fault : SyntaxFault} (h : span.Indicated source) :
    Points source Q ((throw (.form span fault) : Parser α) st) := ⟨span, rfl, h⟩

theorem points_throw_bind {f : β → Parser α} {fault : SyntaxFault} (h : span.Indicated source) :
    Points source Q (((throw (.form span fault) : Parser β) >>= f) st) := ⟨span, rfl, h⟩

theorem points_attempt (h : Points source Q (p st)) : Points source Q (attempt p st) :=
  ends_attempt h

theorem points_discard {R : Unit → ParserState → Prop} (h : Points source Q (p st))
    (hR : ∀ a st', Q a st' → R () st') : Points source R (discard p st) :=
  points_bind h hR

/-- The error that is put in place of another points where it was told to, wherever the other
pointed. -/
theorem points_failingWith {fault : SyntaxFault} (h : Points source Q (p st))
    (hspan : span.Indicated source) : Points source Q (failingWith (.form span fault) p st) :=
  ends_failingWith (Ends.imp h fun _ _ => ⟨span, rfl, hspan⟩)

/-- Too many levels are complained of at the cursor. This is the one rule that needs the state to be
clear for a diagnostic of its own. -/
theorem points_deeper (hst : Clear source st)
    (h : Points source (fun a st' => Q a st'.raised) (p st.deepened)) :
    Points source Q (deeper p st) :=
  ends_deeper ⟨_, rfl, hst.indicated_cursor⟩ h

theorem points_enclosed
    (h : Points source (fun a st' => Q a { st' with openParens := st'.openParens - 1 })
      (p { st with openParens := st.openParens + 1 })) :
    Points source Q (enclosed p st) :=
  ends_enclosed h

/-- The invariant of a loop is `Inv`, and the value that a turn leaves unchanged is covered by
`getD`. -/
theorem points_grow {turn : σ → Parser (Option σ)} {Inv : σ → ParserState → Prop}
    (hturn : ∀ a st, Inv a st →
      Points source (fun next st' => Inv (next.getD a) st') (turn a st))
    {a : σ} (ha : Inv a st) : Points source Inv (grow turn a st) :=
  ends_grow hturn ha

/-! ## Single tokens

To read a token is where symbols are met. It is passed in any case; what differs is whether the
parser goes on. -/

/-- What is known of a token that has been read: where it stood, and that no symbol stands before
it. If it is none itself, the parser is still clear of symbols. -/
structure Met (source : String) (st : ParserState) (token : Token) (st' : ParserState) : Prop where
  ahead : st.ahead = some token
  between : token.span.Between source st.position st'.position
  indicated : token.span.Indicated source
  clear : token.kind ≠ .symbol → Clear source st'

/-- The token that was read, and the quiet ones before it, are the next of the text; so its place
follows from how many tokens had been passed. -/
theorem met_of_next {token : Token} (hst : Clear source st) (h : next st = .ok token st') :
    Met source st token st' := by
  obtain ⟨quiet, hquiet, -, hpassed⟩ := passed_of_next h
  have hquiet : ∀ t ∈ quiet, t.kind ≠ .symbol := fun t ht =>
    kind_ne_symbol_of_isQuiet (hquiet t ht)
  have hscan : Token.scan source =
      (st.cursor.before.reverse ++ quiet) ++ token :: st'.cursor.after := by
    rw [← hst.1, tokens, hpassed.after]
    simp only [List.append_assoc, List.singleton_append]
  have hspan := Token.span_of_scan hscan
  -- places are counted in tokens: this many before, the quiet ones, and then the token
  have hposition := hpassed.position_eq
  have hlength : (st.cursor.before.reverse ++ quiet).length = st.position + quiet.length := by
    rw [List.length_append, List.length_reverse, position]
  rw [List.length_append, List.length_singleton] at hposition
  rw [hlength] at hspan
  refine ⟨ahead_of_next h, ?_, ?_, ?_⟩
  · exact ⟨_, _, Nat.le_add_right _ _, Nat.le_succ _, by omega, hspan⟩
  · -- before the token only the quiet ones have been passed
    have hbefore : Clear source
        { st with cursor := ⟨quiet.reverse ++ st.cursor.before, token :: st'.cursor.after⟩ } := by
      refine hst.passed ⟨?_, rfl, rfl, rfl⟩ hquiet
      rw [hpassed.after, List.append_assoc, List.singleton_append]
    exact hbefore.indicated_cursor
  · intro hkind
    apply hst.passed hpassed
    rw [List.forall_mem_append, List.forall_mem_singleton]
    exact ⟨hquiet, hkind⟩

/-- At the end of the text the parser has passed only quiet tokens more, so it is clear there and
can point at the end. -/
theorem points_next (hst : Clear source st) : Points source (Met source st) (next st) := by
  apply ends_next
  · intro st' hnext
    obtain ⟨hahead, -, hpassed⟩ := end_of_next hnext
    have hclear := hst.passed hpassed fun t ht =>
      kind_ne_symbol_of_isQuiet (ahead_eq_none_iff.mp hahead t ht)
    exact ⟨_, rfl, hclear.indicated_cursor⟩
  · exact fun token st' hnext => met_of_next hst hnext

/-- A token is taken for something only if it is no symbol. `hconvert` says so of the conversion;
each of those in the grammar names the kinds it takes, and symbols are never among them. -/
theorem points_tokenAs {convert : Token → Except SyntaxFault α} (hst : Clear source st)
    (hconvert : ∀ token a, convert token = .ok a → token.kind ≠ .symbol) :
    Points source (fun a st' => Clear source st' ∧ ∃ token, convert token = .ok a ∧
      token.span.Between source st.position st'.position) (tokenAs convert st) := by
  apply points_bind (points_next hst)
  intro token st' hmet
  cases h : convert token with
  | error fault => exact points_throw hmet.indicated
  | ok a => exact ⟨hmet.clear (hconvert token a h), token, h, hmet.between⟩

end Parser

namespace Token

variable {token : Token}

/-! Each conversion with what it says of the kind. `eq_of_literalExpr` adds the other thing needed
of literals, that they have the range of their token. -/

theorem kind_ne_symbol_of_ofKind {kind : TokenKind} (hkind : kind ≠ .symbol) {token' : Token}
    (h : token.ofKind kind = .ok token') : token.kind ≠ .symbol := by
  rw [(ofKind_ok_iff.mp h).1]
  exact hkind

theorem kind_ne_symbol_of_ident {target : Ident} (h : token.ident = .ok target) :
    token.kind ≠ .symbol := by
  rw [(ident_ok_iff.mp h).1]
  exact TokenKind.noConfusion

theorem kind_ne_symbol_of_unaryOp {sign : UnOp × Span} (h : token.unaryOp = .ok sign) :
    token.kind ≠ .symbol := by
  rw [(unaryOp_ok_iff.mp h).1]
  cases sign.1 <;> exact TokenKind.noConfusion

theorem kind_ne_symbol_of_literalExpr {e : Expr} (h : token.literalExpr = .ok e) :
    token.kind ≠ .symbol := by
  intro hkind
  simp [literalExpr, literal, hkind, bind, Except.bind] at h

theorem eq_of_literalExpr {e : Expr} (h : token.literalExpr = .ok e) :
    ∃ value, e = .literal value token.span := by
  rw [literalExpr] at h
  cases hvalue : token.literal with
  | error fault =>
    rw [hvalue] at h
    cases h
  | ok value =>
    rw [hvalue] at h
    cases h
    exact ⟨value, rfl⟩

end Token

/-! ## Expressions

An expression is complained of only as a whole, at its range or from a parenthesis on. But its parts
stay in the tree, become instructions, and can fail to be folded; so what is kept of an expression
that has been read is where all of its nodes stand. -/

namespace Expr

/-- The ranges of all nodes. Those of signs and operators on their own are left out, as nothing
points at them. -/
def spans : Expr → List Span
  | literal _ span => [span]
  | paren inner span => span :: inner.spans
  | unary _ _ operand span => span :: operand.spans
  | binary _ _ lhs rhs span => span :: (lhs.spans ++ rhs.spans)

/-- All nodes stand between the end of `m` tokens and the end of `n`. The bounds are for the whole
expression; that a part stands before another is only needed while they are put together. -/
def Placed (source : String) (m n : Nat) (e : Expr) : Prop :=
  ∀ span ∈ e.spans, span.Between source m n

variable {e lhs rhs : Expr}

theorem span_mem_spans (e : Expr) : e.span ∈ e.spans := by
  cases e <;> exact List.mem_cons_self

theorem Placed.between (h : e.Placed source m n) : e.span.Between source m n :=
  h e.span e.span_mem_spans

theorem Placed.mono {m' n' : Nat} (h : e.Placed source m n) (hm : m' ≤ m) (hn : n ≤ n') :
    e.Placed source m' n' :=
  fun span hspan => (h span hspan).mono hm hn

/-! One lemma for each form of expression: the parts are placed, and the range of the whole is. -/

theorem placed_literal {value : Literal} (h : span.Between source m n) :
    (literal value span).Placed source m n :=
  List.forall_mem_singleton.mpr h

theorem placed_paren (h : e.Placed source m n) (hspan : span.Between source m n) :
    (paren e span).Placed source m n :=
  List.forall_mem_cons.mpr ⟨hspan, h⟩

theorem placed_unary {op : UnOp} {opSpan : Span} (h : e.Placed source m n)
    (hspan : span.Between source m n) : (unary op opSpan e span).Placed source m n :=
  List.forall_mem_cons.mpr ⟨hspan, h⟩

theorem placed_binary {op : BinOp} {opSpan : Span} (hlhs : lhs.Placed source m n)
    (hrhs : rhs.Placed source m n) (hspan : span.Between source m n) :
    (binary op opSpan lhs rhs span).Placed source m n :=
  List.forall_mem_cons.mpr ⟨hspan, List.forall_mem_append.mpr ⟨hlhs, hrhs⟩⟩

end Expr

namespace Phrase

/-- The expression has been read from the end of `m` tokens on up to where the parser stands. With
the bounds at hand, ranges of parts read one after the other are in order. -/
def Reached (source : String) (m : Nat) (e : Expr) (st : ParserState) : Prop :=
  Clear source st ∧ e.Placed source m st.position

/-- The phrase may be read from here on: what it grows from has been. A chain and a right side are
given an expression to begin with, which stands behind the cursor; the other phrases begin at the
cursor. -/
def Ready (source : String) (m : Nat) (st : ParserState) : Phrase → Prop
  | chain lhs _ => lhs.Placed source m st.position
  | rightSide _ rhs => rhs.Placed source m st.position
  | _ => m ≤ st.position

/-- Whatever phrase is read, its parts stand where they have been read, and its errors point into
the text. This is the hypothesis on the layer below and the conclusion about a layer. -/
def Placing (source : String) (inner : Phrase → Parser Expr) : Prop :=
  ∀ phrase {m st}, Clear source st → phrase.Ready source m st →
    Points source (Reached source m) (inner phrase st)

variable {inner : Phrase → Parser Expr} {floor : Precedence} {op : BinOp} {lhs rhs : Expr}

theorem points_literal (hst : Clear source st) (hm : m ≤ st.position) :
    Points source (Reached source m) (tokenAs Token.literalExpr st) := by
  apply (points_tokenAs hst fun _ _ => Token.kind_ne_symbol_of_literalExpr).mono
  rintro e st' ⟨hclear, token, hliteral, hspan⟩
  obtain ⟨value, rfl⟩ := Token.eq_of_literalExpr hliteral
  exact ⟨hclear, Expr.placed_literal (hspan.mono hm (Nat.le_refl _))⟩

/-- The sign is only looked at here; if there is one, it is read by the phrase for signs. -/
theorem points_operand (h : Placing source inner) (hst : Clear source st) (hm : m ≤ st.position) :
    Points source (Reached source m) (read inner .operand st) := by
  rw [Phrase.read, bind_of_ok (lookahead_tokenAs Token.unaryOp st)]
  split
  · exact h .signed hst hm
  apply points_attempt
  rw [primary, bind_of_ok (upcomingKind_eq st)]
  split
  · exact points_attempt (h .paren hst hm)
  · exact points_attempt (points_literal hst hm)

/-- A sign goes on to the end of the powers behind its operand, so the range is from its token to
the end of what has been read. -/
theorem points_signed (h : Placing source inner) (hst : Clear source st) (hm : m ≤ st.position) :
    Points source (Reached source m) (read inner .signed st) := by
  apply points_bind
    (points_attempt (points_tokenAs hst fun _ _ => Token.kind_ne_symbol_of_unaryOp))
  rintro ⟨sign, signSpan⟩ st₁ ⟨hclear, token, hsign, hspan⟩
  obtain ⟨-, rfl⟩ := Token.unaryOp_ok_iff.mp hsign
  apply points_deeper hclear
  have hdeep : Clear source st₁.deepened := hclear
  apply points_bind (h .operand hdeep (Nat.le_refl st₁.position))
  intro first st₂ hfirst
  apply points_bind (h (.chain first sign.precedence) hfirst.1 hfirst.2)
  rintro operand st₃ ⟨hclear₃, hoperand⟩
  have hle := hspan.le
  refine ⟨hclear₃, Expr.placed_unary (hoperand.mono (by omega) (Nat.le_refl _)) ?_⟩
  exact (hspan.through hoperand.between (Nat.le_refl _)).mono hm (Nat.le_refl _)

theorem points_closing (hst : Clear source st) :
    Points source (fun closing st' => Clear source st' ∧
      closing.span.Between source st.position st'.position)
      (attempt (tokenAs (Token.ofKind .closeParen)) st) := by
  apply points_attempt
  apply (points_tokenAs hst fun _ _ =>
    Token.kind_ne_symbol_of_ofKind TokenKind.noConfusion).mono
  rintro closing st' ⟨hclear, token, hclosing, hspan⟩
  obtain ⟨-, rfl⟩ := Token.ofKind_ok_iff.mp hclosing
  exact ⟨hclear, hspan⟩

/-- All that can be wrong within parentheses is pointed at from the opening one on, or further
inside. -/
theorem points_interior (h : Placing source inner) {opening : Token} {kind? : Option TokenKind}
    (hst : Clear source st) (hopening : opening.span.Between source m st.position) :
    Points source (Reached source m) (interior inner opening kind? st) := by
  unfold interior
  split
  · exact points_throw (hst.indicated hopening)
  -- empty parentheses are pointed at as a pair, so the closing one is read first
  · apply points_bind (points_closing hst)
    rintro closing st' ⟨hclear, hclosing⟩
    exact points_throw (hclear.indicated (hopening.through hclosing (Nat.le_refl _)))
  · apply points_bind (points_attempt (h .expr hst (Nat.le_refl st.position)))
    rintro e st₁ ⟨hclear, he⟩
    apply points_bind (points_failingWith (points_closing hclear) (hst.indicated hopening))
    rintro closing st₂ ⟨hclear₂, hclosing⟩
    have hle := hopening.le
    have hle₁ := he.between.le
    refine ⟨hclear₂, Expr.placed_paren (he.mono hle hclosing.le) ?_⟩
    exact hopening.through hclosing hle₁

/-- Within the parentheses both counters differ, but neither takes part in `Clear`, so the state
inside is clear by the same proof. -/
theorem points_paren (h : Placing source inner) (hst : Clear source st) (hm : m ≤ st.position) :
    Points source (Reached source m) (read inner .paren st) := by
  rw [Phrase.read, parenthesized_eq]
  apply points_bind (points_attempt (points_tokenAs hst fun _ _ =>
    Token.kind_ne_symbol_of_ofKind TokenKind.noConfusion))
  rintro opening st₁ ⟨hclear, token, hopening, hspan⟩
  obtain ⟨-, rfl⟩ := Token.ofKind_ok_iff.mp hopening
  apply points_deeper hclear
  apply points_enclosed
  rw [bind_of_ok (upcomingKind_eq _)]
  have hinside : Clear source st₁.inside := hclear
  have hspan' : token.span.Between source m st₁.inside.position := hspan.mono hm (Nat.le_refl _)
  exact points_interior h hinside hspan'

/-- An operator that is known to come next is no symbol. Reading it is not a conversion of a token,
as the lookahead has already done that; so what kind it is has to be carried over from there. -/
theorem points_operator {opSpan : Span} (hst : Clear source st)
    (hahead : st.aheadOp = some (op, opSpan)) :
    Points source (fun _ st' => Clear source st' ∧ st.position ≤ st'.position)
      (discard next st) := by
  apply points_discard (points_next hst)
  intro token st' hmet
  obtain ⟨token', hahead', hkind, -⟩ := aheadOp_eq_some_iff.mp hahead
  obtain rfl : token = token' := Option.some.inj (hmet.ahead.symm.trans hahead')
  refine ⟨hmet.clear ?_, hmet.between.le⟩
  rw [hkind]
  cases op <;> exact TokenKind.noConfusion

/-- An operator and its right side are added. A tree that gets too high is complained of at the
range of all of it, which lies behind the cursor. -/
theorem points_extend (h : Placing source inner) {height : Nat} {opSpan : Span}
    (hst : Clear source st) (hlhs : lhs.Placed source m st.position)
    (hahead : st.aheadOp = some (op, opSpan)) :
    Points source (fun next st' => Reached source m (next.getD (lhs, height)).1 st')
      (extend inner lhs height op opSpan st) := by
  apply points_bind (points_operator hst hahead)
  rintro ⟨⟩ st₁ ⟨hst₁, hle⟩
  apply points_bind (h .operand hst₁ (Nat.le_refl st₁.position))
  intro first st₂ hfirst
  apply points_bind (h (.rightSide op first) hfirst.1 hfirst.2)
  rintro rhs st₃ ⟨hst₃, hrhs⟩
  have hspan := hlhs.between.through hrhs.between hle
  have hm := hlhs.between.le
  have hle' := hrhs.between.le
  dsimp only
  split
  · exact points_throw_bind (hst₃.indicated hspan)
  · refine ⟨hst₃, Expr.placed_binary (hlhs.mono (Nat.le_refl m) ?_) (hrhs.mono ?_ ?_) hspan⟩
    all_goals omega

/-- The invariant of the loop is that the expression so far has been read up to the cursor; a turn
that finds no operator, or one that binds too weakly, leaves both as they are. -/
theorem points_chain (h : Placing source inner) (hst : Clear source st)
    (hlhs : lhs.Placed source m st.position) :
    Points source (Reached source m) (read inner (.chain lhs floor) st) := by
  have hturn : ∀ (a : Expr × Nat) st₁, Reached source m a.1 st₁ →
      Points source (fun next st₂ => Reached source m (next.getD a).1 st₂)
        (chainTurn inner floor a st₁) := by
    rintro ⟨l, height⟩ st₁ ⟨hst₁, hl⟩
    rw [chainTurn_eq]
    cases hahead : st₁.aheadOp with
    | none => exact ⟨hst₁, hl⟩
    | some ahead =>
      dsimp only
      split
      · exact ⟨hst₁, hl⟩
      · exact points_extend h hst₁ hl hahead
  rw [Phrase.read]
  apply points_bind (points_grow hturn ⟨hst, hlhs⟩)
  rintro ⟨e, height⟩ st' he
  exact he

theorem points_rightSideTurn (h : Placing source inner) (hst : Clear source st)
    (hrhs : rhs.Placed source m st.position) :
    Points source (fun next st' => Reached source m (next.getD rhs) st')
      (rightSideTurn inner op rhs st) := by
  rw [rightSideTurn, bind_of_ok (lookahead_tokenAs Token.binaryOp st)]
  cases st.ahead.bind fun token => token.binaryOp.toOption with
  | none => exact ⟨hst, hrhs⟩
  | some following =>
    dsimp only
    split
    · exact points_bind (h (.chain rhs _) hst hrhs) fun _ _ hgrown => hgrown
    split
    · have hdeep : Clear source st.deepened := hst
      exact points_bind (points_deeper (Q := Reached source m) hst
        (h (.chain rhs op.precedence) hdeep hrhs)) fun _ _ hgrown => hgrown
    · exact ⟨hst, hrhs⟩

/-- One layer is placing if the layer below is: a case for each phrase. For an expression that
begins with a closing parenthesis, that token is what is pointed at. -/
theorem placing_read (h : Placing source inner) : Placing source (read inner) := by
  intro phrase m st hst hready
  cases phrase with
  | expr =>
    rw [Phrase.read, bind_of_ok (upcomingKind_eq st)]
    split
    · apply points_bind (points_next hst)
      intro closing st₁ hmet
      exact points_throw_bind hmet.indicated
    · apply points_bind (h .operand hst hready)
      intro lhs st₁ hlhs
      exact h (.chain lhs .any) hlhs.1 hlhs.2
  | operand => exact points_operand h hst hready
  | signed => exact points_signed h hst hready
  | paren => exact points_paren h hst hready
  | chain lhs floor => exact points_chain h hst hready
  | rightSide op rhs =>
    exact points_grow (fun a st₁ ha => points_rightSideTurn h ha.1 ha.2) ⟨hst, hready⟩

/-- The induction on the layers. The lowest complains at the cursor; that it is never reached does
not have to be known here. -/
theorem placing_layers (depth : Nat) : Placing source (layers depth) := by
  induction depth with
  | zero =>
    intro phrase m st hst _
    exact ⟨_, rfl, hst.indicated_cursor⟩
  | succ depth ih =>
    rw [layers_succ]
    exact placing_read ih

end Phrase

/-! ## Statements and programs

The same for statements. What a statement leaves behind is its own range and the nodes of the value
that will be turned into code; an unsupported one leaves only its range, and nothing of it is
compiled. -/

namespace Stmt

/-- The statement and all nodes of what it assigns stand between the end of `m` tokens and the end
of `n`. -/
structure Placed (source : String) (m n : Nat) (stmt : Stmt) : Prop where
  between : stmt.span.Between source m n
  value : ∀ e, stmt.value? = some e → e.Placed source m n

theorem Placed.mono {m' n' : Nat} {stmt : Stmt} (h : stmt.Placed source m n) (hm : m' ≤ m)
    (hn : n ≤ n') : stmt.Placed source m' n' :=
  ⟨h.between.mono hm hn, fun e he => (h.value e he).mono hm hn⟩

theorem placed_unsupported {kind : UnsupportedKind} (h : span.Between source m n) :
    (unsupported kind span).Placed source m n where
  between := h
  value := by
    rintro e ⟨⟩

end Stmt

namespace Parser

/-- The statement has been read from the end of `m` tokens on up to where the parser stands. -/
def ReachedStmt (source : String) (m : Nat) (stmt : Stmt) (st : ParserState) : Prop :=
  Clear source st ∧ stmt.Placed source m st.position

theorem points_expr (hst : Clear source st) :
    Points source (Phrase.Reached source st.position) (Parser.expr st) :=
  Phrase.placing_layers Phrase.callDepth .expr hst (Nat.le_refl st.position)

theorem points_ident (hst : Clear source st) :
    Points source (fun target st' => Clear source st' ∧
      target.span.Between source st.position st'.position)
      (attempt (tokenAs Token.ident) st) := by
  apply points_attempt
  apply (points_tokenAs hst fun _ _ => Token.kind_ne_symbol_of_ident).mono
  rintro target st' ⟨hclear, token, htarget, hspan⟩
  obtain ⟨-, rfl⟩ := Token.ident_ok_iff.mp htarget
  exact ⟨hclear, hspan⟩

theorem points_mark {kind : TokenKind} (hkind : kind ≠ .symbol) (hst : Clear source st) :
    Points source (fun _ st' => Clear source st' ∧ st.position ≤ st'.position)
      (discard (attempt (tokenAs (Token.ofKind kind))) st) := by
  apply points_discard (points_attempt (points_tokenAs hst fun _ _ =>
    Token.kind_ne_symbol_of_ofKind hkind))
  rintro token st' ⟨hclear, _, -, hspan⟩
  exact ⟨hclear, hspan.le⟩

/-- The range goes from the target through the value. The `=` between is passed and leaves nothing
behind. -/
theorem points_assignment (hst : Clear source st) :
    Points source (ReachedStmt source st.position) (assignment st) := by
  apply points_bind (points_ident hst)
  rintro target st₁ ⟨hst₁, htarget⟩
  apply points_bind (points_mark TokenKind.noConfusion hst₁)
  rintro ⟨⟩ st₂ ⟨hst₂, hle⟩
  apply points_bind (points_attempt (points_expr hst₂))
  rintro value st₃ ⟨hst₃, hvalue⟩
  have hle' := htarget.le
  refine ⟨hst₃, htarget.through hvalue.between hle, ?_⟩
  rintro _ ⟨⟩
  exact hvalue.mono (by omega) (Nat.le_refl _)

/-- A chain of assignments has been read, from the end of `m` tokens on. Its first statement ended
with the `n`-th of them or before. The last range is not placed by itself, only through what the
first and it cover together, as that is all the statement keeps. -/
def ReachedLast (source : String) (m n : Nat) (first last : Span) (st : ParserState) : Prop :=
  Clear source st ∧ n ≤ st.position ∧ (first.through last).Between source m st.position

theorem points_assignTurn {first last : Span} (hfirst : first.Between source m n)
    (h : ReachedLast source m n first last st) :
    Points source (fun next st' => ReachedLast source m n first (next.getD last) st')
      (assignTurn last st) := by
  obtain ⟨hst, hn, hlast⟩ := h
  rw [assignTurn, bind_of_ok (upcomingKind_eq st)]
  split
  · apply points_bind (points_mark TokenKind.noConfusion hst)
    rintro ⟨⟩ st₁ ⟨hst₁, hle⟩
    apply points_bind (points_attempt (points_expr hst₁))
    rintro value st₂ ⟨hst₂, hvalue⟩
    have hle' := hvalue.between.le
    exact ⟨hst₂, by omega, hfirst.through hvalue.between (by omega)⟩
  · exact ⟨hst, hn, hlast⟩

/-- One case for each kind of statement, in the order in which they are tried. -/
theorem points_statement (hst : Clear source st) :
    Points source (ReachedStmt source st.position) (statement st) := by
  have hupcoming : ∀ kinds, upcomingAre kinds st =
      .ok (kinds.isPrefixOf (st.upcoming.map (·.kind))) st := fun _ => rfl
  rw [statement, bind_of_ok (hupcoming _)]
  split
  · apply points_bind (points_attempt (points_assignment hst))
    rintro first st₁ ⟨hst₁, hfirst⟩
    rw [bind_of_ok (upcomingKind_eq st₁)]
    split
    · exact ⟨hst₁, hfirst⟩
    -- the last expression so far may be far behind the beginning of the statement
    have hchain : ReachedLast source st.position st₁.position first.span first.span st₁ :=
      ⟨hst₁, Nat.le_refl _, hfirst.between⟩
    apply points_bind (points_grow (fun _ _ => points_assignTurn hfirst.between) hchain)
    rintro last st₂ ⟨hst₂, -, hlast⟩
    exact ⟨hst₂, Stmt.placed_unsupported hlast⟩
  rw [bind_of_ok (hupcoming _)]
  split
  · apply points_bind (points_ident hst)
    rintro target st₁ ⟨hst₁, htarget⟩
    apply points_bind (points_mark TokenKind.noConfusion hst₁)
    rintro ⟨⟩ st₂ ⟨hst₂, hle⟩
    apply points_bind (points_attempt (points_expr hst₂))
    rintro value st₃ ⟨hst₃, hvalue⟩
    exact ⟨hst₃, Stmt.placed_unsupported (htarget.through hvalue.between hle)⟩
  · apply points_bind (points_attempt (points_expr hst))
    rintro value st₁ ⟨hst₁, hvalue⟩
    exact ⟨hst₁, Stmt.placed_unsupported hvalue.between⟩

/-- A separator that is known to come next is no symbol. -/
theorem points_separatorTurn (hst : Clear source st) (u : Unit) :
    Points source (fun _ st' => Clear source st') (separatorTurn u st) := by
  rw [separatorTurn, bind_of_ok (upcomingKind_eq st)]
  split
  next hany =>
    have hnext : Points source (fun _ st' => Clear source st') (discard next st) := by
      apply points_discard (points_next hst)
      intro token st' hmet
      apply hmet.clear
      intro hkind
      rw [hmet.ahead, Option.map_some, hkind] at hany
      cases hany
    exact points_bind hnext fun _ st' hst' => hst'
  next => exact hst

theorem points_separators (hst : Clear source st) :
    Points source (fun _ st' => Clear source st') (separators st) :=
  points_grow (fun u _ hst₁ => points_separatorTurn hst₁ u) hst

/-- What has to follow a statement is read in any case, and may be a symbol; then it is that which
is complained of, at its own range. -/
theorem points_endOfStatement (hst : Clear source st) :
    Points source (fun _ st' => Clear source st') (endOfStatement st) := by
  cases hahead : st.ahead with
  | none =>
    obtain ⟨d, st', hnext, -, hquiet, hpassed⟩ := next_of_ahead_none hahead
    have hpossibly : possibly next st = .ok none st' := by rw [possibly, hnext]
    rw [endOfStatement, bind_of_ok hpossibly]
    exact hst.passed hpassed fun t ht => kind_ne_symbol_of_isQuiet (hquiet t ht)
  | some token =>
    obtain ⟨st', quiet, hnext, -⟩ := next_of_ahead hahead
    have hpossibly : possibly next st = .ok (some token) st' := by rw [possibly, hnext]
    have hmet := met_of_next hst hnext
    rw [endOfStatement, bind_of_ok hpossibly]
    dsimp only
    split
    next hseparator =>
      apply hmet.clear
      intro hkind
      rw [hkind] at hseparator
      cases hseparator
    next =>
      split
      · exact points_throw hmet.indicated
      · exact points_throw hmet.indicated

/-- The statements that have been read stand in the text. They are placed in all of it: later no
statement is compared with another. -/
def ReachedStmts (source : String) (stmts : List Stmt) (st : ParserState) : Prop :=
  Clear source st ∧ ∀ stmt ∈ stmts, stmt.Placed source 0 (Token.scan source).length

/-- A statement that is too high is complained of at its range. It has just been read, so that lies
behind the cursor. -/
theorem points_programTurn {stmts : List Stmt} (h : ReachedStmts source stmts st) :
    Points source (fun next st' => ReachedStmts source (next.getD stmts) st')
      (programTurn stmts st) := by
  obtain ⟨hst, hstmts⟩ := h
  apply points_bind (points_separators hst)
  intro _ st₁ hst₁
  rw [bind_of_ok (atEnd_eq st₁)]
  split
  · exact ⟨hst₁, hstmts⟩
  apply points_bind (points_attempt (points_statement hst₁))
  rintro stmt st₂ ⟨hst₂, hstmt⟩
  split
  · exact points_throw_bind (hst₂.indicated hstmt.between)
  apply points_bind (points_endOfStatement hst₂)
  intro _ st₃ hst₃
  refine ⟨hst₃, List.forall_mem_append.mpr ⟨hstmts, List.forall_mem_singleton.mpr ?_⟩⟩
  exact hstmt.mono (Nat.zero_le _) hst₂.position_le

theorem points_program (source : String) :
    Points source (ReachedStmts source) (program (.start source)) :=
  points_grow (fun _ _ => points_programTurn) ⟨clear_start source, by simp⟩

/-- A text that is a program has no symbols: the parser has walked over all of it. What is left
behind the last turn is quiet, since there is nothing more to read. -/
theorem kind_ne_symbol_of_program {stmts : List Stmt} (h : program (.start source) = .ok stmts st')
    {token : Token} (ht : token ∈ Token.scan source) : token.kind ≠ .symbol := by
  obtain ⟨st₁, -, hlast⟩ := grow_induct consuming_programTurn (fun _ _ => True)
    (fun _ _ => trivial) h trivial
  obtain ⟨-, hahead⟩ := programTurn_none_iff.mp hlast
  obtain ⟨hclear, -⟩ := (points_program source).of_ok h
  rw [← hclear.1, tokens, List.mem_append, List.mem_reverse] at ht
  rcases ht with ht | ht
  · exact hclear.2 token ht
  · exact kind_ne_symbol_of_isQuiet (ahead_eq_none_iff.mp hahead token ht)

end Parser

/-! ## Folding

A diagnostic of folding is made from an instruction, so it is enough to know where instructions
stand. They get their ranges from the tree when it is linearized, and a sweep does not give them
others. -/

/-- A fold fails at the range of an instruction. The induction is on the code, as the sweep goes
along it: the instruction at hand fails, or a later one does. -/
theorem evaluation_of_sweep_error {facts : Facts} {code : List Instr} {d : Diagnostic}
    (h : facts.sweep code = .error d) :
    ∃ instr ∈ code, ∃ fault, d = .evaluation instr.span fault := by
  induction code generalizing facts with
  | nil => cases h
  | cons instr code ih =>
    rcases Facts.sweep_cons_error h with hvisit | ⟨left, next, -, hsweep⟩
    · obtain ⟨fault, -, hd⟩ := Facts.visit_of_error hvisit
      exact ⟨instr, List.mem_cons_self, fault, hd⟩
    · obtain ⟨instr', hmem, hd⟩ := ih hsweep
      exact ⟨instr', List.mem_cons_of_mem _ hmem, hd⟩

/-- A constant is settled by an instruction with the range it was given. -/
theorem span_of_mem_settle {before : Nat} {code : List Instr} {a a' : Operand} {instr : Instr}
    (hcode : a.settle before span = (code, a')) (h : instr ∈ code) : instr.span = span := by
  cases a with
  | place p =>
    cases hcode
    cases h
  | const c =>
    cases hcode
    obtain rfl := List.mem_singleton.mp h
    rfl

/-- Each instruction for an expression has the range of one of its nodes. An operation has that of
its own node, a constant that is loaded has that of the operand it came from. -/
theorem Expr.Linearizes.span_mem {e : Expr} {before : Nat} {code : List Instr} {a : Operand}
    {instr : Instr} (h : e.Linearizes before code a) (hmem : instr ∈ code) :
    instr.span ∈ e.spans := by
  induction h with
  | literal => cases hmem
  | paren _ ih => exact List.mem_cons_of_mem _ (ih hmem)
  | pos _ ih => exact List.mem_cons_of_mem _ (ih hmem)
  | negated _ _ ih => exact List.mem_cons_of_mem _ (ih hmem)
  | neg _ _ ih =>
    rcases List.mem_append.mp hmem with hmem | hmem
    · exact List.mem_cons_of_mem _ (ih hmem)
    · obtain rfl := List.mem_singleton.mp hmem
      exact List.mem_cons_self
  | @binary op opSpan span lhs rhs before left right first second a a' b b' _ _ hfirst hsecond
      ihl ihr =>
    simp only [spans, List.mem_cons, List.mem_append, or_assoc, List.not_mem_nil, or_false]
      at hmem ⊢
    rcases hmem with hmem | hmem | hmem | hmem | rfl
    · exact .inr (.inl (ihl hmem))
    · exact .inr (.inr (ihr hmem))
    · rw [span_of_mem_settle hfirst hmem]
      exact .inr (.inl lhs.span_mem_spans)
    · rw [span_of_mem_settle hsecond hmem]
      exact .inr (.inr rhs.span_mem_spans)
    · exact .inl rfl

/-- So an instruction of a program has a range of a part of a statement: of a node of the value, or,
for the copy into the target, of the statement. -/
theorem between_of_mem_linearize {stmts : List Stmt} {before : Nat} {instr : Instr}
    (hstmts : ∀ stmt ∈ stmts, stmt.Placed source m n)
    (h : instr ∈ linearizeFrom before stmts) : instr.span.Between source m n := by
  induction stmts generalizing before with
  | nil => cases h
  | cons stmt stmts ih =>
    obtain ⟨hstmt, hstmts⟩ := List.forall_mem_cons.mp hstmts
    rcases List.mem_append.mp h with h | h
    · cases stmt with
      | unsupported kind span => cases h
      | assign target value span =>
        rcases List.mem_append.mp h with h | h
        · exact hstmt.value value rfl _ ((value.linearizes before).span_mem h)
        · obtain rfl := List.mem_singleton.mp h
          exact hstmt.between
    · exact ih hstmts h

/-! ## Compilations

Both kinds of errors, put together. The text in question is the normalized one, which is what a
reader of the error is shown. -/

/-- The same for the whole of `parseProgram`, which begins at the start of the text. -/
theorem kind_ne_symbol_of_parseProgram {stmts : List Stmt} (h : parseProgram source = .ok stmts) :
    ∀ t ∈ Token.scan source, t.kind ≠ .symbol := by
  obtain ⟨st', hprogram⟩ := runOn_ok_iff.mp h
  exact fun t ht => kind_ne_symbol_of_program hprogram ht

theorem indicated_of_parseProgram_error {d : Diagnostic} (h : parseProgram source = .error d) :
    d.Indicated source := by
  rw [parseProgram, runOn] at h
  cases hprogram : program (.start source) with
  | ok stmts st' =>
    rw [hprogram] at h
    cases h
  | error d' st' =>
    rw [hprogram] at h
    cases h
    exact (points_program source).of_error hprogram

/-- An error of folding. The program has been read by then, so there are no symbols anywhere, and it
is enough that the range goes from one boundary to another. -/
theorem indicated_of_ofCode_error {stmts : List Stmt} {target : String} {d : Diagnostic}
    (hstmts : parseProgram source = .ok stmts)
    (h : Folded.ofCode target (linearize stmts) = .error d) : d.Indicated source := by
  obtain ⟨instr, hmem, fault, rfl⟩ := evaluation_of_sweep_error (sweep_of_ofCode_error h)
  obtain ⟨st', hprogram⟩ := runOn_ok_iff.mp hstmts
  have hplaced := ((points_program source).of_ok hprogram).2
  obtain ⟨i, j, -, hij, hj, hspan⟩ := between_of_mem_linearize hplaced hmem
  refine ⟨_, rfl, i, j, hij, hj, hspan, ?_⟩
  exact fun t ht => kind_ne_symbol_of_program hprogram (List.mem_of_mem_take ht)

/-- A compilation fails while parsing or while folding, in this order. Nothing between the two can
fail. -/
theorem Compiled.ofText_error_iff {target text : String} {error : CompileError} :
    ofText target text = .error error ↔
      (∃ d, parseProgram (Surface.normalize target text) = .error d ∧ error = .parsing d) ∨
      ∃ stmts d, parseProgram (Surface.normalize target text) = .ok stmts ∧
        Folded.ofCode target (linearize stmts) = .error d ∧ error = .evaluation d := by
  simp only [ofText, bind, Except.bind]
  cases parseProgram (Surface.normalize target text) with
  | error d => simp [Except.mapError, eq_comm]
  | ok stmts =>
    simp only [Except.mapError]
    cases hfold : Folded.ofCode target (linearize stmts) with
    | error d => simp [hfold, eq_comm]
    | ok folded => simp [hfold, pure, Except.pure]

/-- Every error of a compilation points into the normalized text: it has one range, from one
boundary of tokens to another, and all text before that is of ASCII. If the text can be read, all of
it is of ASCII.

There is no condition on the text or on the target. The second part is why an error that comes after
parsing has nothing but ASCII around it, too. -/
theorem compileError_pointsInto (target text : String) :
    (∀ error, Compiled.ofText target text = .error error →
      error.diagnostic.PointsInto (Surface.normalize target text)) ∧
    (∀ stmts, parseProgram (Surface.normalize target text) = .ok stmts →
      IsAscii (Surface.normalize target text)) := by
  constructor
  · intro error h
    rcases Compiled.ofText_error_iff.mp h with ⟨d, hparse, rfl⟩ | ⟨stmts, d, hparse, hfold, rfl⟩
    · exact (indicated_of_parseProgram_error hparse).pointsInto
    · exact (indicated_of_ofCode_error hparse hfold).pointsInto
  · intro stmts h
    have hascii := isAscii_of_take (n := (Token.scan (Surface.normalize target text)).length)
      fun t ht => kind_ne_symbol_of_parseProgram h t (List.mem_of_mem_take ht)
    rwa [List.take_length, Token.joined_scan] at hascii

/-- At a character outside of ASCII, at an operator that was folded, and in a text that can be
read. -/
theorem compileError_pointsInto_cases :
    (∃ error, Compiled.ofText "x" "1 + é" = .error error ∧
      error.diagnostic.PointsInto (Surface.normalize "x" "1 + é")) ∧
    (∃ error, Compiled.ofText "x" "1 % (2 - 2)" = .error error ∧
      error.diagnostic.PointsInto (Surface.normalize "x" "1 % (2 - 2)")) ∧
    ∃ stmts, parseProgram (Surface.normalize "x" "3y²") = .ok stmts ∧
      IsAscii (Surface.normalize "x" "3y²") := by
  refine ⟨?_, ?_, ?_⟩
  · have hnone : (Compiled.ofText "x" "1 + é").toOption.isNone := by decide +kernel
    obtain ⟨error, h⟩ := exists_of_isNone_toOption hnone
    exact ⟨error, h, (compileError_pointsInto "x" "1 + é").1 error h⟩
  · have hnone : (Compiled.ofText "x" "1 % (2 - 2)").toOption.isNone := by decide +kernel
    obtain ⟨error, h⟩ := exists_of_isNone_toOption hnone
    exact ⟨error, h, (compileError_pointsInto "x" "1 % (2 - 2)").1 error h⟩
  · have hsome : (parseProgram (Surface.normalize "x" "3y²")).toOption.isSome := by
      decide +kernel
    obtain ⟨stmts, h⟩ := Option.isSome_iff_exists.mp hsome
    rw [toOption_eq_some_iff] at h
    exact ⟨stmts, h, (compileError_pointsInto "x" "3y²").2 stmts h⟩

end ThreeAddress
