import ThreeAddress.Proofs.Heights
import ThreeAddress.Proofs.Statements

/-!
# Reading further on in a text

The same tokens, all of them `k` bytes further on, are read as the same thing, `k` bytes further on,
and what is wrong with them is wrong `k` bytes further on (`Shifts`). Two runs go side by side here,
and they end alike whether they succeed or fail.

What the tokens before the two places are makes no difference. There is one exception: if no token
is left, the text ends where the last one did, so that has to be `k` bytes further on too
(`Moved.endSpan`).

The other simulations of parsers are about success, and take it apart with the lemmas that say when
a parser succeeds. This one has to hold of diagnostics too, with their places. So it goes through
the code itself, with one rule for each way in which parsers are put together, and the grammar
follows function by function.

The relation between values is equality with the first one moved, so that most steps leave no
choice: `rintro _ _ rfl` replaces the second value, and the two runs go on with the same code.
-/

set_option autoImplicit false

namespace ThreeAddress

open ThreeAddress.Parser ThreeAddress.ParserState

/-! ## Places further on

Moving is defined for everything that has a place in it. What has none (kinds, heights, faults,
values of literals) is not changed by it, and for each of them that is a lemma, since the parser
branches on these. -/

/-- All places are moved by the same number of bytes, at both ends. -/
def Span.shift (k : Nat) (span : Span) : Span := ⟨span.start + k, span.stop + k⟩

def Token.shift (k : Nat) (token : Token) : Token := { token with span := token.span.shift k }

def Ident.shift (k : Nat) (ident : Ident) : Ident := { ident with span := ident.span.shift k }

/-- The expression with all its places moved, those of its signs and operators among them. -/
def Expr.shift (k : Nat) : Expr → Expr
  | literal value span => literal value (span.shift k)
  | paren inner span => paren (inner.shift k) (span.shift k)
  | unary op opSpan operand span => unary op (opSpan.shift k) (operand.shift k) (span.shift k)
  | binary op opSpan lhs rhs span =>
    binary op (opSpan.shift k) (lhs.shift k) (rhs.shift k) (span.shift k)

def Stmt.shift (k : Nat) : Stmt → Stmt
  | assign target value span => assign (target.shift k) (value.shift k) (span.shift k)
  | unsupported kind span => unsupported kind (span.shift k)

/-- The diagnostic with all its places `k` bytes further on. -/
def Diagnostic.shift (k : Nat) (diagnostic : Diagnostic) : Diagnostic :=
  { diagnostic with spans := diagnostic.spans.map (Span.shift k) }

/-- An operator with the place where it stands. -/
def shiftOp {op : Type} (k : Nat) : op × Span → op × Span := Prod.map id (Span.shift k)

variable {k : Nat}

theorem Expr.span_shift (e : Expr) : (e.shift k).span = e.span.shift k := by
  cases e <;> rfl

/-- The height does not depend on places, so the limit is met in both runs or in neither. -/
theorem Expr.height_shift (e : Expr) : (e.shift k).height = e.height := by
  induction e with
  | literal value span => simp only [shift, height_literal]
  | paren inner span ih => simp only [shift, height_paren, ih]
  | unary op opSpan operand span ih => simp only [shift, height_unary, ih]
  | binary op opSpan lhs rhs span ihl ihr => simp only [shift, height_binary, ihl, ihr]

theorem Stmt.span_shift (stmt : Stmt) : (stmt.shift k).span = stmt.span.shift k := by
  cases stmt <;> rfl

theorem Stmt.value?_shift (stmt : Stmt) :
    (stmt.shift k).value? = stmt.value?.map (Expr.shift k) := by
  cases stmt <;> rfl

namespace Token

variable (token : Token)

/-! What a token is taken for is moved along with it, and it is refused for the same reason. The
text of a token is not touched, so the faults that quote it are equal. -/

theorem ofKind_shift (kind : TokenKind) :
    (token.shift k).ofKind kind = (token.ofKind kind).map (shift k) := by
  have hkind : (token.shift k).kind = token.kind := rfl
  rw [ofKind, ofKind, hkind]
  split <;> rfl

theorem ident_shift : (token.shift k).ident = token.ident.map (Ident.shift k) := by
  have hkind : (token.shift k).kind = token.kind := rfl
  rw [ident, ident, hkind]
  split <;> rfl

theorem literalExpr_shift :
    (token.shift k).literalExpr = token.literalExpr.map (Expr.shift k) := by
  have hliteral : (token.shift k).literal = token.literal := rfl
  rw [literalExpr, literalExpr, hliteral]
  cases token.literal <;> rfl

theorem unaryOp_shift : (token.shift k).unaryOp = token.unaryOp.map (shiftOp k) := by
  simp only [unaryOp, shift]
  split <;> rfl

theorem binaryOp_shift : (token.shift k).binaryOp = token.binaryOp.map (shiftOp k) := by
  simp only [binaryOp, shift]
  split <;> rfl

end Token

/-! ## Side by side

Two states, two outcomes, two parsers. In the relation between states nothing is said of the tokens
that have been passed, except for where the text ends. -/

namespace ParserState

/-- The second place has the same tokens left as the first, `k` bytes further on.

The end of the text is a field of its own because it is taken from the last token, and that may have
been passed already. For states that the parser comes to it is kept by `Passed.endSpan_eq`. -/
structure Moved (k : Nat) (st s : ParserState) : Prop where
  after : s.cursor.after = st.cursor.after.map (Token.shift k)
  endSpan : s.cursor.endSpan = st.cursor.endSpan.shift k
  nesting : s.nesting = st.nesting
  openParens : s.openParens = st.openParens

variable {st s : ParserState}

/-- The text ends where it does, however far it has been read. -/
theorem Passed.endSpan_eq {st' : ParserState} {raw : List Token} (h : Passed raw st st') :
    st'.cursor.endSpan = st.cursor.endSpan := by
  rw [Cursor.endSpan, Cursor.endSpan, h.before, h.after]
  simp only [List.head?_append, List.head?_reverse, List.getLast?_append, Option.or_assoc]

namespace Moved

/-- The place where a parser stands is that of the next token, or the end of the text. It is the
place of most diagnostics. -/
theorem span (h : Moved k st s) : s.cursor.span = st.cursor.span.shift k := by
  have hend := h.endSpan
  rw [Cursor.span, Cursor.span, h.after]
  cases st.cursor.after with
  | nil => exact hend
  | cons token after => rfl

theorem isQuiet (h : Moved k st s) (token : Token) :
    s.isQuiet (token.shift k) = st.isQuiet token := by
  rw [ParserState.isQuiet, ParserState.isQuiet, h.openParens]
  rfl

/-- What comes next is the same token further on. All lookahead follows from this. -/
theorem ahead (h : Moved k st s) : s.ahead = st.ahead.map (Token.shift k) := by
  rw [ParserState.ahead, h.after, List.find?_map]
  congr 2
  funext token
  exact congrArg not (h.isQuiet token)

theorem ahead_kind (h : Moved k st s) : s.ahead.map (·.kind) = st.ahead.map (·.kind) := by
  rw [h.ahead, Option.map_map]
  rfl

theorem upcoming_kind (h : Moved k st s) :
    s.upcoming.map (·.kind) = st.upcoming.map (·.kind) := by
  have hfilter : s.upcoming = st.upcoming.map (Token.shift k) := by
    rw [ParserState.upcoming, h.after, List.filter_map]
    congr 2
    funext token
    exact congrArg not (h.isQuiet token)
  rw [hfilter, List.map_map]
  rfl

/-- Both have passed as many tokens. This is how the relation is kept when something is read. -/
theorem passed {st' s' : ParserState} {raw : List Token} (h : Moved k st s)
    (hst : Passed raw st st') (hs : Passed (raw.map (Token.shift k)) s s') : Moved k st' s' where
  after := by
    have hafter := h.after
    rw [hst.after, hs.after, List.map_append] at hafter
    exact List.append_cancel_left hafter
  endSpan := by
    rw [hst.endSpan_eq, hs.endSpan_eq, h.endSpan]
  nesting := hs.nesting.trans (h.nesting.trans hst.nesting.symm)
  openParens := hs.openParens.trans (h.openParens.trans hst.openParens.symm)

end Moved

end ParserState

namespace Parser

variable {α β γ δ σ τ : Type} {R : α → β → Prop} {S : γ → δ → Prop}

/-- Two outcomes that are alike: values that are related, with the parsers at places that are, or
errors that are the same, `k` bytes further on. A value on one side and an error on the other is
never alike. -/
def Alongside (k : Nat) (R : α → β → Prop) :
    EStateM.Result Diagnostic ParserState α → EStateM.Result Diagnostic ParserState β → Prop
  | .ok a st, .ok b s => R a b ∧ Moved k st s
  | .error d _, .error d' _ => d' = d.shift k
  | _, _ => False

/-- From a place further on, `q` comes to what `p` comes to, further on. -/
def Shifts (k : Nat) (R : α → β → Prop) (p : Parser α) (q : Parser β) : Prop :=
  ∀ ⦃st s : ParserState⦄, Moved k st s → Alongside k R (p st) (q s)

variable {p p' : Parser α} {q q' : Parser β} {f : α → Parser γ} {g : β → Parser δ}
  {st s : ParserState}

/-- Outcomes that are alike are both values, or both errors. Rules for combinators split a run of
both parsers at once with this. -/
theorem Alongside.cases {r : EStateM.Result Diagnostic ParserState α}
    {r' : EStateM.Result Diagnostic ParserState β} (h : Alongside k R r r') :
    (∃ a st b s, r = .ok a st ∧ r' = .ok b s ∧ R a b ∧ Moved k st s) ∨
      ∃ d st s, r = .error d st ∧ r' = .error (d.shift k) s := by
  cases r with
  | ok a st =>
    cases r' with
    | ok b s => exact .inl ⟨a, st, b, s, rfl, rfl, h.1, h.2⟩
    | error d s => exact h.elim
  | error d st =>
    cases r' with
    | ok b s => exact h.elim
    | error d' s =>
      obtain rfl : d' = d.shift k := h
      exact .inr ⟨d, st, s, rfl, rfl⟩

theorem shifts_pure {a : α} {b : β} (h : R a b) : Shifts k R (pure a) (pure b) :=
  fun _ _ hmoved => ⟨h, hmoved⟩

/-! A diagnostic with a place of its own has to be thrown further on by the second parser; one that
is made where the parser stands is moved by `Moved.span`. -/

theorem shifts_throw {d : Diagnostic} : Shifts k R (throw d) (throw (d.shift k)) :=
  fun _ _ _ => rfl

theorem shifts_throw_bind {d : Diagnostic} :
    Shifts k S ((throw d : Parser α) >>= f) ((throw (d.shift k) : Parser β) >>= g) :=
  fun _ _ _ => rfl

theorem shifts_fail (fault : SyntaxFault) : Shifts k R (fail fault) (fail fault) := by
  intro st s h
  show Diagnostic.form s.cursor.span fault = _
  rw [h.span]
  rfl

/-- In sequence: either both go on, from places that are related, or both have ended with the same
error. -/
theorem shifts_bind (h : Shifts k R p q) (hmore : ∀ ⦃a b⦄, R a b → Shifts k S (f a) (g b)) :
    Shifts k S (p >>= f) (q >>= g) := by
  intro st s hmoved
  rcases (h hmoved).cases with ⟨a, st', b, s', hp, hq, hab, hmoved'⟩ | ⟨d, st', s', hp, hq⟩
  · rw [bind_of_ok hp, bind_of_ok hq]
    exact hmore hab hmoved'
  · rw [bind_of_error hp, bind_of_error hq]
    rfl

theorem shifts_ite {c : Prop} [Decidable c] (h : Shifts k R p q) (h' : Shifts k R p' q') :
    Shifts k R (if c then p else p') (if c then q else q') := by
  split
  · exact h
  · exact h'

theorem shifts_discard (h : Shifts k R p q) : Shifts k Eq (discard p) (discard q) :=
  shifts_bind h fun _ _ _ => shifts_pure rfl

/-- A failed attempt sets the cursor back in both, but of the state behind an error nothing is said,
so this needs no more than the error. -/
theorem shifts_attempt (h : Shifts k R p q) : Shifts k R (attempt p) (attempt q) := by
  intro st s hmoved
  rw [attempt, attempt]
  rcases (h hmoved).cases with ⟨a, st', b, s', hp, hq, hab, hmoved'⟩ | ⟨d, st', s', hp, hq⟩
  · rw [hp, hq]
    exact ⟨hab, hmoved'⟩
  · rw [hp, hq]
    rfl

/-- The error that is put in place is given with its place, so it is moved by hand. -/
theorem shifts_failingWith {d : Diagnostic} (h : Shifts k R p q) :
    Shifts k R (failingWith d p) (failingWith (d.shift k) q) := by
  intro st s hmoved
  rw [failingWith, failingWith]
  rcases (h hmoved).cases with ⟨a, st', b, s', hp, hq, hab, hmoved'⟩ | ⟨d, st', s', hp, hq⟩
  · rw [hp, hq]
    exact ⟨hab, hmoved'⟩
  · rw [hp, hq]
    rfl

/-- One level deeper in both, or too deep in both, as the nesting is the same. -/
theorem shifts_deeper (h : Shifts k R p q) : Shifts k R (deeper p) (deeper q) := by
  intro st s hmoved
  rw [deeper, deeper, hmoved.nesting]
  split
  · exact shifts_fail _ hmoved
  have hdeep : Moved k { st with nesting := st.nesting + 1 }
      { s with nesting := st.nesting + 1 } :=
    ⟨hmoved.after, hmoved.endSpan, rfl, hmoved.openParens⟩
  rcases (h hdeep).cases with ⟨a, st', b, s', hp, hq, hab, hmoved'⟩ | ⟨d, st', s', hp, hq⟩
  · rw [hp, hq]
    exact ⟨hab, hmoved'.after, hmoved'.endSpan, congrArg (· - 1) hmoved'.nesting,
      hmoved'.openParens⟩
  · rw [hp, hq]
    rfl

theorem shifts_enclosed (h : Shifts k R p q) : Shifts k R (enclosed p) (enclosed q) := by
  intro st s hmoved
  rw [enclosed, enclosed, hmoved.openParens]
  have hinside : Moved k { st with openParens := st.openParens + 1 }
      { s with openParens := st.openParens + 1 } :=
    ⟨hmoved.after, hmoved.endSpan, hmoved.nesting, rfl⟩
  rcases (h hinside).cases with ⟨a, st', b, s', hp, hq, hab, hmoved'⟩ | ⟨d, st', s', hp, hq⟩
  · rw [hp, hq]
    exact ⟨hab, hmoved'.after, hmoved'.endSpan, hmoved'.nesting,
      congrArg (· - 1) hmoved'.openParens⟩
  · rw [hp, hq]
    rfl

/-- Both loops have as many turns, since there are as many tokens left. So here the loop can be
opened as it is defined, by the number of turns that are allowed, and the turns need not be known to
read anything. -/
theorem shifts_grow {R : σ → τ → Prop} {turn : σ → Parser (Option σ)}
    {turn₁ : τ → Parser (Option τ)}
    (h : ∀ ⦃a b⦄, R a b → Shifts k (Option.Rel R) (turn a) (turn₁ b)) {a : σ} {b : τ}
    (hab : R a b) : Shifts k R (grow turn a) (grow turn₁ b) := by
  have hfor : ∀ turns {a b}, R a b →
      Shifts k R (growFor turn turns a) (growFor turn₁ turns b) := by
    intro turns
    induction turns with
    | zero => exact fun hab => shifts_pure hab
    | succ turns ih =>
      intro a b hab
      apply shifts_bind (h hab)
      intro next next₁ hrel
      cases hrel with
      | none => exact shifts_pure hab
      | some hab => exact ih hab
  intro st s hmoved
  -- the number of tokens left, which bounds the turns, is the same in both
  rw [grow, grow, hmoved.after, List.length_map]
  exact hfor st.cursor.after.length hab hmoved

/-! ## Single tokens

Reading a token is where the tokens ahead are looked at one by one; from here on they are not
mentioned. -/

theorem shifts_upcomingKind : Shifts k Eq upcomingKind upcomingKind := by
  intro st s h
  rw [upcomingKind_eq, upcomingKind_eq]
  exact ⟨h.ahead_kind.symm, h⟩

theorem shifts_upcomingAre (kinds : List TokenKind) :
    Shifts k Eq (upcomingAre kinds) (upcomingAre kinds) := by
  intro st s h
  rw [upcomingAre, upcomingAre, h.upcoming_kind]
  exact ⟨rfl, h⟩

theorem shifts_atEnd : Shifts k Eq atEnd atEnd :=
  shifts_bind shifts_upcomingKind fun _ _ h => shifts_pure (congrArg Option.isNone h)

/-- The tokens that are skipped are as many in both texts, and the one behind them is the same
further on. If there is none, both texts end, and the places where they end are related. -/
theorem shifts_next : Shifts k (fun token token₁ => token₁ = token.shift k) next next := by
  intro st s h
  have hquiet : s.isQuiet ∘ Token.shift k = st.isQuiet := funext h.isQuiet
  have hsplit := (List.takeWhile_append_dropWhile (p := st.isQuiet) (l := st.cursor.after)).symm
  have hsplit' : s.cursor.after = (st.cursor.after.takeWhile st.isQuiet).map (Token.shift k) ++
      (st.cursor.after.dropWhile st.isQuiet).map (Token.shift k) := by
    rw [← List.map_append, ← hsplit, h.after]
  -- skipping is by a test that does not depend on places, so it commutes with moving
  rw [next, next, skip_eq, skip_eq, h.after, List.takeWhile_map, List.dropWhile_map, hquiet]
  cases hdrop : st.cursor.after.dropWhile st.isQuiet with
  | nil =>
    rw [hdrop] at hsplit hsplit'
    exact shifts_fail .unexpectedEnd
      (h.passed ⟨hsplit, rfl, rfl, rfl⟩ ⟨hsplit', rfl, rfl, rfl⟩)
  | cons token after =>
    rw [hdrop, List.append_cons] at hsplit
    rw [hdrop, List.map_cons, List.append_cons, ← List.map_singleton, ← List.map_append] at hsplit'
    refine ⟨rfl, h.passed ⟨hsplit, ?_, rfl, rfl⟩ ⟨hsplit', ?_, rfl, rfl⟩⟩
    · rw [List.reverse_append]
      rfl
    · rw [List.map_append, List.reverse_append]
      rfl

/-- A token is read as something, which is moved as the token is. `h` says so of the conversion, for
its failures as well. -/
theorem shifts_tokenAs {convert : Token → Except SyntaxFault α} {f : α → α}
    (h : ∀ token : Token, convert (token.shift k) = (convert token).map f) :
    Shifts k (fun a a₁ => a₁ = f a) (tokenAs convert) (tokenAs convert) := by
  apply shifts_bind shifts_next
  rintro token _ rfl
  rw [h token]
  cases convert token with
  | ok a => exact shifts_pure rfl
  | error fault => exact shifts_throw

/-- A lookahead gives something or nothing, and in no case an error, so the two runs stay where they
are. -/
theorem shifts_lookahead {convert : Token → Except SyntaxFault α} {f : α → α}
    (h : ∀ token : Token, convert (token.shift k) = (convert token).map f) :
    Shifts k (fun a? a₁? => a₁? = a?.map f) (lookahead (tokenAs convert))
      (lookahead (tokenAs convert)) := by
  intro st s hmoved
  rw [lookahead_tokenAs, lookahead_tokenAs, hmoved.ahead]
  refine ⟨?_, hmoved⟩
  cases st.ahead with
  | none => rfl
  | some token =>
    simp only [Option.map_some, Option.bind_some, h token]
    cases convert token <;> rfl

theorem shifts_mark (kind : TokenKind) :
    Shifts k (fun token token₁ => token₁ = token.shift k)
      (attempt (tokenAs (Token.ofKind kind))) (attempt (tokenAs (Token.ofKind kind))) :=
  shifts_attempt (shifts_tokenAs fun token => token.ofKind_shift kind)

end Parser

/-! ## The grammar

One lemma for each function, with the rules in the order of the code. A complaint in the grammar is
about the place of a token that was read, or of parts put together; `rfl` proves that it is moved
when these are. -/

namespace Phrase

/-- What the phrase grows from stands `k` bytes further on. Other phrases have no places in them. -/
def shift (k : Nat) : Phrase → Phrase
  | chain lhs floor => chain (lhs.shift k) floor
  | rightSide op rhs => rightSide op (rhs.shift k)
  | phrase => phrase

/-- Whatever phrase is read, it is read further on as well. -/
def Shifting (k : Nat) (inner : Phrase → Parser Expr) : Prop :=
  ∀ phrase : Phrase, Shifts k (fun e e₁ => e₁ = e.shift k) (inner phrase) (inner (phrase.shift k))

variable {inner : Phrase → Parser Expr}

theorem shifts_primary (h : Shifting k inner) :
    Shifts k (fun e e₁ => e₁ = e.shift k) (primary inner) (primary inner) := by
  apply shifts_bind shifts_upcomingKind
  rintro kind? _ rfl
  apply shifts_ite (shifts_attempt (h .paren))
  exact shifts_attempt (shifts_tokenAs Token.literalExpr_shift)

/-- The complaints about parentheses point at the opening one or at both, and these were read in
both texts. -/
theorem shifts_interior (h : Shifting k inner) (opening : Token) (kind? : Option TokenKind) :
    Shifts k (fun e e₁ => e₁ = e.shift k) (interior inner opening kind?)
      (interior inner (opening.shift k) kind?) := by
  unfold interior
  split
  · exact shifts_throw
  · apply shifts_bind (shifts_mark .closeParen)
    rintro closing _ rfl
    exact shifts_throw
  · apply shifts_bind (shifts_attempt (h .expr))
    rintro e _ rfl
    apply shifts_bind (shifts_failingWith (shifts_mark .closeParen))
    rintro closing _ rfl
    exact shifts_pure rfl

theorem shifts_parenthesized (h : Shifting k inner) :
    Shifts k (fun e e₁ => e₁ = e.shift k) (parenthesized inner) (parenthesized inner) := by
  rw [parenthesized_eq]
  apply shifts_bind (shifts_mark .openParen)
  rintro opening _ rfl
  apply shifts_deeper
  apply shifts_enclosed
  apply shifts_bind shifts_upcomingKind
  rintro kind? _ rfl
  exact shifts_interior h opening kind?

theorem shifts_withSign (h : Shifting k inner) :
    Shifts k (fun e e₁ => e₁ = e.shift k) (withSign inner) (withSign inner) := by
  apply shifts_bind (shifts_attempt (shifts_tokenAs Token.unaryOp_shift))
  rintro ⟨sign, signSpan⟩ _ rfl
  apply shifts_deeper
  apply shifts_bind (h .operand)
  rintro first _ rfl
  apply shifts_bind (h (.chain first sign.precedence))
  rintro operand _ rfl
  apply shifts_pure
  rw [Expr.span_shift]
  rfl

/-- What a chain has grown into further on. The height is carried along and stays as it is. -/
def shiftGrown (k : Nat) : Expr × Nat → Expr × Nat := Prod.map (Expr.shift k) id

/-- A turn of a chain. The check of the height comes out alike, since it is of the same number. -/
theorem shifts_chainTurn (h : Shifting k inner) (floor : Precedence) (grown : Expr × Nat) :
    Shifts k (Option.Rel fun a a₁ => a₁ = shiftGrown k a) (chainTurn inner floor grown)
      (chainTurn inner floor (shiftGrown k grown)) := by
  obtain ⟨lhs, height⟩ := grown
  apply shifts_bind (shifts_lookahead Token.binaryOp_shift)
  rintro op? _ rfl
  cases op? with
  | none => exact shifts_pure .none
  | some op =>
    apply shifts_ite (shifts_pure .none)
    apply shifts_bind (shifts_discard shifts_next)
    rintro _ _ rfl
    apply shifts_bind (h .operand)
    rintro first _ rfl
    apply shifts_bind (h (.rightSide op.1 first))
    rintro rhs _ rfl
    dsimp only [shiftGrown, Prod.map]
    rw [Expr.height_shift, Expr.span_shift, Expr.span_shift]
    apply shifts_ite
    · exact shifts_throw_bind
    · exact shifts_pure (.some rfl)

theorem shifts_rightSideTurn (h : Shifting k inner) (op : BinOp) (rhs : Expr) :
    Shifts k (Option.Rel fun e e₁ => e₁ = e.shift k) (rightSideTurn inner op rhs)
      (rightSideTurn inner op (rhs.shift k)) := by
  apply shifts_bind (shifts_lookahead Token.binaryOp_shift)
  rintro op? _ rfl
  cases op? with
  | none => exact shifts_pure .none
  | some following =>
    apply shifts_ite
    · apply shifts_bind (h (.chain rhs following.1.precedence))
      rintro grown _ rfl
      exact shifts_pure (.some rfl)
    apply shifts_ite
    · apply shifts_bind (shifts_deeper (h (.chain rhs op.precedence)))
      rintro grown _ rfl
      exact shifts_pure (.some rfl)
    · exact shifts_pure .none

theorem shifting_read (h : Shifting k inner) : Shifting k (read inner) := by
  intro phrase
  cases phrase with
  | expr =>
    apply shifts_bind shifts_upcomingKind
    rintro kind? _ rfl
    apply shifts_ite
    · apply shifts_bind shifts_next
      rintro closing _ rfl
      exact shifts_throw_bind
    · apply shifts_bind (h .operand)
      rintro lhs _ rfl
      exact h (.chain lhs .any)
  | operand =>
    apply shifts_bind (shifts_lookahead Token.unaryOp_shift)
    rintro sign? _ rfl
    rw [Option.isSome_map]
    exact shifts_ite (h .signed) (shifts_attempt (shifts_primary h))
  | signed => exact shifts_withSign h
  | paren => exact shifts_parenthesized h
  | chain lhs floor =>
    -- the height goes along with the expression, and does not change with its place
    have hstart : (lhs.shift k, (lhs.shift k).height) = shiftGrown k (lhs, lhs.height) := by
      rw [Expr.height_shift]
      rfl
    have hgrow : Shifts k (fun a a₁ => a₁ = shiftGrown k a)
        (grow (chainTurn inner floor) (lhs, lhs.height))
        (grow (chainTurn inner floor) (lhs.shift k, (lhs.shift k).height)) := by
      refine shifts_grow ?_ hstart
      rintro grown _ rfl
      exact shifts_chainTurn h floor grown
    apply shifts_bind hgrow
    rintro grown _ rfl
    exact shifts_pure rfl
  | rightSide op rhs =>
    refine shifts_grow ?_ rfl
    rintro e _ rfl
    exact shifts_rightSideTurn h op e

/-- The induction on the layers. The lowest fails where the parser stands, which is further on. -/
theorem shifting_layers (depth : Nat) : Shifting k (layers depth) := by
  induction depth with
  | zero => exact fun _ => shifts_fail _
  | succ depth ih =>
    rw [layers_succ]
    exact shifting_read ih

end Phrase

/-! ## Statements and programs

To the end of the program. The second run may begin with statements in front, which are those of the
text before it. -/

namespace Parser

theorem shifts_expr : Shifts k (fun e e₁ => e₁ = e.shift k) Parser.expr Parser.expr :=
  Phrase.shifting_layers Phrase.callDepth .expr

theorem shifts_ident : Shifts k (fun target target₁ => target₁ = target.shift k)
    (attempt (tokenAs Token.ident)) (attempt (tokenAs Token.ident)) :=
  shifts_attempt (shifts_tokenAs Token.ident_shift)

theorem shifts_assignment :
    Shifts k (fun stmt stmt₁ => stmt₁ = stmt.shift k) assignment assignment := by
  apply shifts_bind shifts_ident
  rintro target _ rfl
  apply shifts_bind (shifts_discard (shifts_mark .assign))
  rintro _ _ rfl
  apply shifts_bind (shifts_attempt shifts_expr)
  rintro value _ rfl
  apply shifts_pure
  rw [Expr.span_shift]
  rfl

theorem shifts_assignTurn (span : Span) :
    Shifts k (Option.Rel fun span span₁ => span₁ = span.shift k) (assignTurn span)
      (assignTurn (span.shift k)) := by
  apply shifts_bind shifts_upcomingKind
  rintro kind? _ rfl
  apply shifts_ite _ (shifts_pure .none)
  apply shifts_bind (shifts_discard (shifts_mark .assign))
  rintro _ _ rfl
  apply shifts_bind (shifts_attempt shifts_expr)
  rintro e _ rfl
  exact shifts_pure (.some (Expr.span_shift e))

/-- The kind of a statement is decided by kinds of tokens, so both runs take the same branch. -/
theorem shifts_statement :
    Shifts k (fun stmt stmt₁ => stmt₁ = stmt.shift k) statement statement := by
  apply shifts_bind (shifts_upcomingAre [.name, .assign])
  rintro isAssign _ rfl
  apply shifts_ite
  · apply shifts_bind (shifts_attempt shifts_assignment)
    rintro first _ rfl
    apply shifts_bind shifts_upcomingKind
    rintro kind? _ rfl
    have hgrow : Shifts k (fun span span₁ => span₁ = span.shift k)
        (grow assignTurn first.span) (grow assignTurn (first.shift k).span) := by
      refine shifts_grow ?_ first.span_shift
      rintro span _ rfl
      exact shifts_assignTurn span
    apply shifts_ite
    · exact shifts_pure rfl
    apply shifts_bind hgrow
    rintro last _ rfl
    apply shifts_pure
    rw [Stmt.span_shift]
    rfl
  apply shifts_bind (shifts_upcomingAre [.name, .compoundAssign])
  rintro isCompound _ rfl
  apply shifts_ite
  · apply shifts_bind shifts_ident
    rintro target _ rfl
    apply shifts_bind (shifts_discard (shifts_mark .compoundAssign))
    rintro _ _ rfl
    apply shifts_bind (shifts_attempt shifts_expr)
    rintro value _ rfl
    apply shifts_pure
    rw [Expr.span_shift]
    rfl
  · apply shifts_bind (shifts_attempt shifts_expr)
    rintro value _ rfl
    apply shifts_pure
    rw [Expr.span_shift]
    rfl

theorem shifts_separators : Shifts k Eq separators separators := by
  rw [separators_eq]
  apply shifts_grow _ rfl
  rintro _ _ rfl
  apply shifts_bind shifts_upcomingKind
  rintro kind? _ rfl
  apply shifts_ite _ (shifts_pure .none)
  apply shifts_bind (shifts_discard shifts_next)
  rintro _ _ rfl
  exact shifts_pure (.some rfl)

/-- There is a token to end the statement in both texts, or in none. A rule for `possibly` in
general would need to know of the states behind an error; of `next` they are known. -/
theorem shifts_possibly_next :
    Shifts k (fun token? token₁? => token₁? = token?.map (Token.shift k)) (possibly next)
      (possibly next) := by
  intro st s h
  rw [possibly, possibly]
  cases hahead : st.ahead with
  | none =>
    have hahead' : s.ahead = none := by rw [h.ahead, hahead, Option.map_none]
    obtain ⟨d, st', hnext, -, -, hpassed⟩ := next_of_ahead_none hahead
    obtain ⟨d', s', hnext', -, -, hpassed'⟩ := next_of_ahead_none hahead'
    rw [h.after] at hpassed'
    rw [hnext, hnext']
    exact ⟨rfl, h.passed hpassed hpassed'⟩
  | some token =>
    obtain ⟨st', quiet, hnext, -⟩ := next_of_ahead hahead
    rcases (shifts_next h).cases with ⟨_, _, _, s', hp, hq, rfl, hmoved⟩ | ⟨d, st', s', hp, -⟩
    · rw [hp, hq]
      exact ⟨rfl, hmoved⟩
    · rw [hnext] at hp
      cases hp

theorem shifts_endOfStatement : Shifts k Eq endOfStatement endOfStatement := by
  apply shifts_bind shifts_possibly_next
  rintro token? _ rfl
  cases token? with
  | none => exact shifts_pure rfl
  | some token =>
    exact shifts_ite (shifts_pure rfl) (shifts_ite shifts_throw shifts_throw)

/-- What has been read before stays in front of what is read further on. -/
theorem shifts_programTurn (front stmts : List Stmt) :
    Shifts k (Option.Rel fun more more₁ => more₁ = front ++ more.map (Stmt.shift k))
      (programTurn stmts) (programTurn (front ++ stmts.map (Stmt.shift k))) := by
  apply shifts_bind shifts_separators
  rintro _ _ -
  apply shifts_bind shifts_atEnd
  rintro isEnd _ rfl
  apply shifts_ite (shifts_pure .none)
  apply shifts_bind (shifts_attempt shifts_statement)
  rintro stmt _ rfl
  have hheight : (stmt.shift k).value?.any (heightLimit < ·.height) =
      stmt.value?.any (heightLimit < ·.height) := by
    rw [Stmt.value?_shift, Option.any_map]
    simp only [Expr.height_shift]
  rw [hheight, Stmt.span_shift]
  apply shifts_ite
  · exact shifts_throw_bind
  apply shifts_bind shifts_endOfStatement
  rintro _ _ -
  apply shifts_pure
  apply Option.Rel.some
  rw [List.map_append, List.append_assoc, List.map_singleton]

/-- A program is read further on behind the statements in `front`. They only take part by being put
in front, whatever comes of the rest. -/
theorem shifts_program (front stmts : List Stmt) :
    Shifts k (fun more more₁ => more₁ = front ++ more.map (Stmt.shift k))
      (grow programTurn stmts) (grow programTurn (front ++ stmts.map (Stmt.shift k))) := by
  refine shifts_grow ?_ rfl
  rintro stmts _ rfl
  exact shifts_programTurn front stmts

end Parser

end ThreeAddress
