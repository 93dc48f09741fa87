import ThreeAddress.Proofs.Statements

/-!
# What a parser leaves behind

A parser can fail anywhere: within parentheses, several levels deep, in the middle of a lookahead.
However it ends, it leaves the tokens, the nesting and the open parentheses as it found them, and
only the cursor may stand elsewhere (`Restores`). So a parser that has been called any number of
times, whether the calls failed or not, can be called again as if nothing had been open before.

`Steps` and `Climbing` say what it takes to succeed; here failures count as well, so the properties
are of the state that is left in either case (`leaves`). They are proved the way the parsers are
built: one lemma for each combinator, one for each function of the grammar, an induction on the
layers for the recursion, and an induction on the calls at the end (`leaves_after`).

A second property is carried along. Only a call that asks for a part to be all that is left may
complain that the end was expected; if a parser inside could complain of that too, the complaint
would not say where the cursor is. Hence `fault_ne`, and hence the lemmas on what a token can be
refused for.
-/

set_option autoImplicit false

namespace ThreeAddress

namespace ParserState

/-- The tokens of the whole text. The cursor is a split of this list, and to read is to move the
split; what has been passed is kept in reverse. -/
def tokens (st : ParserState) : List Token := st.cursor.before.reverse ++ st.cursor.after

/-- How many tokens have been passed. -/
def position (st : ParserState) : Nat := st.cursor.before.length

/-- Two places in the same text, equally deep in parentheses, signs and powers. Nothing is said of
the cursors, which may stand anywhere in the text: a failed `peek` is beside what it began at, and
so is a whole program that has been read. -/
structure Beside (st st' : ParserState) : Prop where
  tokens : st'.tokens = st.tokens
  nesting : st'.nesting = st.nesting
  openParens : st'.openParens = st.openParens

variable {st st' st'' : ParserState} {raw : List Token}

/-! `Beside` is an equivalence between states of one text. To pass tokens is one way to stay beside,
and the one through which everything that reads comes in: `Passed` is what reading a single token is
shown to do. -/

theorem Beside.refl (st : ParserState) : Beside st st := ⟨rfl, rfl, rfl⟩

theorem Beside.trans (h : Beside st st') (h' : Beside st' st'') : Beside st st'' where
  tokens := h'.tokens.trans h.tokens
  nesting := h'.nesting.trans h.nesting
  openParens := h'.openParens.trans h.openParens

theorem Passed.beside (h : Passed raw st st') : Beside st st' where
  tokens := by
    rw [tokens, tokens, h.before, h.after, List.reverse_append, List.reverse_reverse,
      List.append_assoc]
  nesting := h.nesting
  openParens := h.openParens

/-- Passed and remaining tokens together are the whole text, so a parser that leaves fewer tokens
has moved the cursor on. The first is how progress is measured inside the grammar, the second is how
it is seen from outside. -/
theorem position_add_remaining (st : ParserState) :
    st.position + st.remaining = st.tokens.length := by
  rw [position, remaining, tokens, List.length_append, List.length_reverse]

theorem Beside.position_lt (h : Beside st st') (hless : st'.remaining < st.remaining) :
    st.position < st'.position := by
  have hst := st.position_add_remaining
  have hst' := st'.position_add_remaining
  rw [h.tokens] at hst'
  omega

/-- A state that differs from one beside only in the cursor it had before. An attempt that fails
sets the cursor back and nothing else, which brings the whole state back only because nothing else
was changed. -/
theorem Beside.restored (h : Beside st st') : { st' with cursor := st.cursor } = st := by
  rcases st with ⟨cursor, nesting, openParens⟩
  have hnesting := h.nesting
  have hopen := h.openParens
  simp only at hnesting hopen
  simp only [hnesting, hopen]

end ParserState

/-! ## Complaints of a token

A conversion of a token fails with one of three complaints, and each is of the token itself. None is
that the end was expected, which is all that `restores_tokenAs` takes from the lemmas here. -/

/-- The fault is one of a token that stands where it cannot be used: because of its kind, or because
its number does not fit. The complaints of a whole form (a parenthesis never closed, an expression
too deep, more text than expected) are not among them. -/
def SyntaxFault.IsOfToken : SyntaxFault → Prop
  | unexpectedToken _ _ _ | integerOutOfRange _ | floatOutOfRange _ => True
  | _ => False

namespace Token

/-- A conversion complains of nothing but the token it was given. That it complains at all is not
said: one that takes every token would do. -/
def Rejects {α : Type} (convert : Token → Except SyntaxFault α) : Prop :=
  ∀ {token fault}, convert token = .error fault → fault.IsOfToken

theorem rejects_ofKind (kind : TokenKind) : Rejects (ofKind kind) := by
  intro token fault h
  rw [ofKind] at h
  split_ifs at h
  cases h
  trivial

theorem rejects_ident : Rejects ident := by
  intro token fault h
  rw [ident] at h
  split_ifs at h
  cases h
  trivial

theorem rejects_unaryOp : Rejects unaryOp := by
  intro token fault h
  rw [unaryOp] at h
  split at h <;> cases h
  trivial

theorem rejects_binaryOp : Rejects binaryOp := by
  intro token fault h
  rw [binaryOp] at h
  split at h <;> cases h
  trivial

theorem rejects_literal : Rejects literal := by
  intro token fault h
  rw [literal] at h
  split at h
  · dsimp only at h
    split_ifs at h
    cases h
    trivial
  · dsimp only at h
    split_ifs at h
    cases h
    trivial
  · cases h
  · cases h
    trivial

theorem rejects_literalExpr : Rejects literalExpr := by
  intro token fault h
  rw [literalExpr] at h
  cases hliteral : token.literal with
  | ok value =>
    rw [hliteral] at h
    cases h
  | error fault' =>
    rw [hliteral] at h
    cases h
    exact rejects_literal hliteral

end Token

namespace Parser

open ParserState

variable {α β σ : Type} {st st' : ParserState} {p : Parser α} {d : Diagnostic}

/-- The state that a parser leaves, whether it succeeds or fails. Success and failure both carry a
state, and a statement about either alone would say nothing of a text read after a mistake. -/
def leaves (p : Parser α) (st : ParserState) : ParserState :=
  match p st with
  | .ok _ st' => st'
  | .error _ st' => st'

theorem leaves_of_ok {a : α} (h : p st = .ok a st') : leaves p st = st' := by
  rw [leaves, h]

theorem leaves_of_error (h : p st = .error d st') : leaves p st = st' := by
  rw [leaves, h]

/-- A parser that leaves all as it was but for the cursor, and that does not complain of anything
behind what it reads.

The second half fails for `full`, which is made to complain of that; so it is not among the parsers
this is proved of, and has its own lemmas below. -/
structure Restores (p : Parser α) : Prop where
  beside : ∀ st, Beside st (leaves p st)
  fault_ne : ∀ {st d st'}, p st = .error d st' → d.fault ≠ .form .expectedEnd

/-! ## Combinators

One lemma for each way a parser is put together. Where the state is opened up, it is because the
combinator changes it: `attempt` the cursor, `deeper` the nesting, `enclosed` the open parentheses.
Each of these has to undo its change on both ways out, and the proofs split there. -/

/-- What does not move and cannot fail restores trivially. All lookahead is of this kind. -/
theorem restores_of_ok {f : ParserState → α} (h : ∀ st, p st = .ok (f st) st) : Restores p where
  beside := by
    intro st
    rw [leaves_of_ok (h st)]
    exact .refl st
  fault_ne := by
    intro st d st' hp
    rw [h st] at hp
    cases hp

theorem restores_pure (a : α) : Restores (pure a : Parser α) := restores_of_ok (fun _ => rfl)

theorem restores_upcomingKind : Restores upcomingKind := restores_of_ok upcomingKind_eq

theorem restores_upcomingAre (kinds : List TokenKind) : Restores (upcomingAre kinds) :=
  restores_of_ok (fun _ => rfl)

theorem restores_atEnd : Restores atEnd := restores_of_ok atEnd_eq

theorem restores_lookahead (convert : Token → Except SyntaxFault α) :
    Restores (lookahead (tokenAs convert)) :=
  restores_of_ok (lookahead_tokenAs convert)

theorem fault_form_ne {fault : SyntaxFault} (h : fault ≠ .expectedEnd) (span : Span) :
    (Diagnostic.form span fault).fault ≠ .form .expectedEnd :=
  mt Fault.form.inj h

theorem restores_throw {span : Span} {fault : SyntaxFault} (h : fault ≠ .expectedEnd) :
    Restores (throw (.form span fault) : Parser α) where
  beside := .refl
  fault_ne := by
    intro st d st' hthrow
    cases hthrow
    exact fault_form_ne h span

theorem restores_fail {fault : SyntaxFault} (h : fault ≠ .expectedEnd) :
    Restores (fail fault : Parser α) where
  beside := .refl
  fault_ne := by
    intro st d st' hfail
    cases hfail
    exact fault_form_ne h st.cursor.span

/-- The second parser runs only where the first has succeeded, in the state that one left; if the
first fails, its state is the state of both. -/
theorem restores_bind {f : α → Parser β} (hp : Restores p) (hf : ∀ a, Restores (f a)) :
    Restores (p >>= f) where
  beside := by
    intro st
    cases h : p st with
    | error d st₁ =>
      rw [leaves_of_error (bind_of_error h), ← leaves_of_error h]
      exact hp.beside st
    | ok a st₁ =>
      have hfirst := hp.beside st
      have hsecond := (hf a).beside st₁
      rw [leaves_of_ok h] at hfirst
      rw [leaves, bind_of_ok h]
      exact hfirst.trans hsecond
  fault_ne := by
    intro st d st' herror
    cases h : p st with
    | error d' st₁ =>
      rw [bind_of_error h] at herror
      cases herror
      exact hp.fault_ne h
    | ok a st₁ =>
      rw [bind_of_ok h] at herror
      exact (hf a).fault_ne herror

theorem restores_ite {c : Prop} [Decidable c] {q : Parser α} (hp : Restores p) (hq : Restores q) :
    Restores (if c then p else q) := by
  split
  · exact hp
  · exact hq

theorem restores_discard (hp : Restores p) : Restores (discard p) :=
  restores_bind hp fun _ => restores_pure _

theorem restores_next : Restores next where
  beside := by
    intro st
    cases hahead : st.ahead with
    | none =>
      obtain ⟨d, st', hnext, -, -, hpassed⟩ := next_of_ahead_none hahead
      rw [leaves_of_error hnext]
      exact hpassed.beside
    | some token =>
      obtain ⟨st', quiet, hnext, -, -, hpassed⟩ := next_of_ahead hahead
      rw [leaves_of_ok hnext]
      exact hpassed.beside
  fault_ne := by
    intro st d st' h
    rw [next] at h
    split at h
    · cases h
    · cases h
      exact fault_form_ne SyntaxFault.noConfusion _

/-- Reading a token as something, which may complain of the token. A token refused has been passed
all the same, so on its own this does not bring the cursor back; `attempt` around it does. -/
theorem restores_tokenAs {convert : Token → Except SyntaxFault α} (h : Token.Rejects convert) :
    Restores (tokenAs convert) := by
  refine restores_bind restores_next fun token => ?_
  cases hconvert : convert token with
  | ok value => exact restores_pure value
  | error fault =>
    refine restores_throw ?_
    rintro rfl
    exact h hconvert

/-- A failed attempt restores all of the state, the cursor included. That the hypothesis is needed
can be seen from the code: only the cursor is set back, and the other two counters are trusted to be
right. -/
theorem restores_attempt (hp : Restores p) : Restores (attempt p) where
  beside := by
    intro st
    have hbeside := hp.beside st
    rw [leaves] at hbeside ⊢
    rw [attempt]
    cases h : p st with
    | ok a st₁ => rwa [h] at hbeside
    | error d st₁ =>
      rw [h] at hbeside
      -- the cursor is set back, and the rest was never changed
      simp only [hbeside.restored]
      exact .refl st
  fault_ne := by
    intro st d st' herror
    rw [attempt] at herror
    cases h : p st with
    | ok a st₁ =>
      rw [h] at herror
      cases herror
    | error d st₁ =>
      rw [h] at herror
      cases herror
      exact hp.fault_ne h

/-- The complaint is replaced, the state is not: a parenthesis that is found unclosed leaves the
cursor where the search for the closing one ended. -/
theorem restores_failingWith {span : Span} {fault : SyntaxFault} (hp : Restores p)
    (hfault : fault ≠ .expectedEnd) : Restores (failingWith (.form span fault) p) where
  beside := by
    intro st
    have hbeside := hp.beside st
    rw [leaves] at hbeside ⊢
    rw [failingWith]
    cases h : p st <;> rwa [h] at hbeside
  fault_ne := by
    intro st d' st' herror
    rw [failingWith] at herror
    cases h : p st with
    | ok a st₁ =>
      rw [h] at herror
      cases herror
    | error _ st₁ =>
      rw [h] at herror
      cases herror
      exact fault_form_ne hfault span

/-- A failure is swallowed, and the state it left is kept. That is harmless in both places this is
used: a lookahead puts the cursor back in any case, and behind a statement nothing but the end of
the text can make it fail. -/
theorem restores_possibly (hp : Restores p) : Restores (possibly p) where
  beside := by
    intro st
    have hbeside := hp.beside st
    rw [leaves] at hbeside ⊢
    rw [possibly]
    cases h : p st <;> rwa [h] at hbeside
  fault_ne := by
    intro st d st' herror
    rw [possibly] at herror
    cases h : p st <;> rw [h] at herror <;> cases herror

/-- The level is taken off again on both ways out. The limit is checked before it is added, so a
parser refused for being too deep has added nothing. -/
theorem restores_deeper (hp : Restores p) : Restores (deeper p) where
  beside := by
    intro st
    rw [leaves, deeper]
    split_ifs with hlimit
    · exact .refl st
    have hbeside := hp.beside { st with nesting := st.nesting + 1 }
    rw [leaves] at hbeside
    -- one is added before and taken away after; in between it was restored, so the difference is
    -- exact
    have hback : ∀ st', Beside { st with nesting := st.nesting + 1 } st' →
        Beside st { st' with nesting := st'.nesting - 1 } := by
      intro st' h
      refine ⟨h.tokens, ?_, h.openParens⟩
      rw [h.nesting]
      exact Nat.add_sub_cancel _ _
    cases h : p { st with nesting := st.nesting + 1 } <;> rw [h] at hbeside <;>
      exact hback _ hbeside
  fault_ne := by
    intro st d st' herror
    rw [deeper] at herror
    split_ifs at herror with hlimit
    · cases herror
      exact fault_form_ne SyntaxFault.noConfusion _
    cases h : p { st with nesting := st.nesting + 1 } with
    | ok a st₁ =>
      rw [h] at herror
      cases herror
    | error d st₁ =>
      rw [h] at herror
      cases herror
      exact hp.fault_ne h

/-- The same for the count of open parentheses, which decides whether line ends are skipped. Left
one too high, the rest of the program would be read as one line. -/
theorem restores_enclosed (hp : Restores p) : Restores (enclosed p) where
  beside := by
    intro st
    have hbeside := hp.beside { st with openParens := st.openParens + 1 }
    rw [leaves] at hbeside ⊢
    rw [enclosed]
    have hback : ∀ st', Beside { st with openParens := st.openParens + 1 } st' →
        Beside st { st' with openParens := st'.openParens - 1 } := by
      intro st' h
      refine ⟨h.tokens, h.nesting, ?_⟩
      rw [h.openParens]
      exact Nat.add_sub_cancel _ _
    cases h : p { st with openParens := st.openParens + 1 } <;> rw [h] at hbeside <;>
      exact hback _ hbeside
  fault_ne := by
    intro st d st' herror
    rw [enclosed] at herror
    cases h : p { st with openParens := st.openParens + 1 } with
    | ok a st₁ =>
      rw [h] at herror
      cases herror
    | error d st₁ =>
      rw [h] at herror
      cases herror
      exact hp.fault_ne h

/-- A loop of turns, each of which restores. The induction is on the number of turns allowed; that
there are enough of them does not matter here, since a loop that is cut off restores as well. -/
theorem restores_grow {turn : σ → Parser (Option σ)} (hturn : ∀ a, Restores (turn a)) (a : σ) :
    Restores (grow turn a) := by
  have hfor : ∀ turns a, Restores (growFor turn turns a) := by
    intro turns
    induction turns with
    | zero => exact restores_pure
    | succ turns ih =>
      intro a
      refine restores_bind (hturn a) fun larger? => ?_
      cases larger? with
      | none => exact restores_pure a
      | some larger => exact ih larger
  constructor
  · intro st
    exact (hfor st.cursor.after.length a).beside st
  · intro st d st' h
    exact (hfor st.cursor.after.length a).fault_ne h

end Parser

/-! ## The grammar

The grammar is open recursion: a layer reads phrases by calling `inner` for the phrases inside. Each
lemma here assumes of `inner` what it proves of the layer, and only of the phrases that the function
calls; `restores_layers` closes the recursion. -/

namespace Phrase

open ThreeAddress.Parser ThreeAddress.ParserState

variable {inner : Phrase → Parser Expr}

theorem restores_primary (h : Restores (inner .paren)) : Restores (primary inner) := by
  refine restores_bind restores_upcomingKind fun kind? => restores_ite (restores_attempt h) ?_
  exact restores_attempt (restores_tokenAs Token.rejects_literalExpr)

theorem restores_closing : Restores (attempt (tokenAs (Token.ofKind .closeParen))) :=
  restores_attempt (restores_tokenAs (Token.rejects_ofKind .closeParen))

/-- What follows an opening parenthesis: the end of the text, a closing parenthesis, or an
expression. The first two are complaints, and the closing parenthesis is read only to say where it
stands. -/
theorem restores_interior (h : Restores (inner .expr)) (opening : Token)
    (kind? : Option TokenKind) : Restores (interior inner opening kind?) := by
  unfold interior
  split
  · exact restores_throw SyntaxFault.noConfusion
  · exact restores_bind restores_closing fun _ => restores_throw SyntaxFault.noConfusion
  · refine restores_bind (restores_attempt h) fun _ => ?_
    refine restores_bind (restores_failingWith restores_closing SyntaxFault.noConfusion) fun _ => ?_
    exact restores_pure _

theorem restores_parenthesized (h : Restores (inner .expr)) : Restores (parenthesized inner) := by
  rw [parenthesized_eq]
  refine restores_bind ?_ fun opening => restores_deeper (restores_enclosed ?_)
  · exact restores_attempt (restores_tokenAs (Token.rejects_ofKind .openParen))
  · exact restores_bind restores_upcomingKind (restores_interior h opening)

/-- The operand of a sign is one level deeper than the sign. The chain of powers behind it starts
from the operand that was read, so `h` has to hold for every phrase and not for one in particular.
-/
theorem restores_withSign (h : ∀ phrase, Restores (inner phrase)) : Restores (withSign inner) := by
  have hsign : Restores (attempt (tokenAs Token.unaryOp)) :=
    restores_attempt (restores_tokenAs Token.rejects_unaryOp)
  refine restores_bind hsign fun sign => restores_deeper ?_
  exact restores_bind (h .operand) fun first => restores_bind (h _) fun operand => restores_pure _

/-- One turn of a chain of operators. An operator that binds too weakly is left for the caller, and
was only looked at. -/
theorem restores_chainTurn (h : ∀ phrase, Restores (inner phrase)) (floor : Precedence)
    (lhs : Expr × Nat) : Restores (chainTurn inner floor lhs) := by
  refine restores_bind (restores_lookahead Token.binaryOp) fun op? => ?_
  cases op? with
  | none => exact restores_pure none
  | some op =>
    refine restores_ite (restores_pure none) ?_
    refine restores_bind (restores_discard restores_next) fun _ => ?_
    refine restores_bind (h .operand) fun first => restores_bind (h _) fun rhs => ?_
    refine restores_ite ?_ ?_
    · exact restores_bind (restores_throw SyntaxFault.noConfusion) fun _ => restores_pure _
    · exact restores_pure _

/-- What binds more tightly than the operator before it belongs to its right side. A power to the
right is a level deeper, and that level is gone again when the turn ends. -/
theorem restores_rightSideTurn (h : ∀ phrase, Restores (inner phrase)) (op : BinOp) (rhs : Expr) :
    Restores (rightSideTurn inner op rhs) := by
  refine restores_bind (restores_lookahead Token.binaryOp) fun op? => ?_
  cases op? with
  | none => exact restores_pure none
  | some following =>
    refine restores_ite ?_ (restores_ite ?_ (restores_pure none))
    · exact restores_bind (h _) fun _ => restores_pure _
    · exact restores_bind (restores_deeper (h _)) fun _ => restores_pure _

/-- One layer of the grammar restores what it finds if the layer below it does. -/
theorem restores_read (h : ∀ phrase, Restores (inner phrase)) (phrase : Phrase) :
    Restores (read inner phrase) := by
  cases phrase with
  | expr =>
    refine restores_bind restores_upcomingKind fun kind? => restores_ite ?_ ?_
    · refine restores_bind restores_next fun closing => ?_
      exact restores_bind (restores_throw SyntaxFault.noConfusion) fun _ =>
        restores_bind (h .operand) fun lhs => h _
    · exact restores_bind (h .operand) fun lhs => h _
  | operand =>
    refine restores_bind (restores_lookahead Token.unaryOp) fun sign? => ?_
    exact restores_ite (h .signed) (restores_attempt (restores_primary (h .paren)))
  | signed => exact restores_withSign h
  | paren => exact restores_parenthesized (h .expr)
  | chain lhs floor =>
    exact restores_bind (restores_grow (restores_chainTurn h floor) _) fun _ => restores_pure _
  | rightSide op rhs => exact restores_grow (restores_rightSideTurn h op) rhs

/-- At the bottom there is a failure, which restores like any other; no bound on the depth of the
text is needed for this property. -/
theorem restores_layers (depth : Nat) (phrase : Phrase) : Restores (layers depth phrase) := by
  induction depth generalizing phrase with
  | zero => exact restores_fail SyntaxFault.noConfusion
  | succ depth ih => exact restores_read ih phrase

theorem restores_parse (phrase : Phrase) : Restores phrase.parse := restores_layers callDepth phrase

end Phrase

namespace Parser

open ParserState

variable {α : Type}

/-! The statements and the program: each is a sequence of parsers already treated, so the proofs
follow the code line by line. -/

theorem restores_expr : Restores Parser.expr := Phrase.restores_parse .expr

theorem restores_ident : Restores (attempt (tokenAs Token.ident)) :=
  restores_attempt (restores_tokenAs Token.rejects_ident)

theorem restores_mark (kind : TokenKind) :
    Restores (discard (attempt (tokenAs (Token.ofKind kind)))) :=
  restores_discard (restores_attempt (restores_tokenAs (Token.rejects_ofKind kind)))

theorem restores_assignment : Restores assignment := by
  refine restores_bind restores_ident fun target => ?_
  refine restores_bind (restores_mark .assign) fun _ => ?_
  exact restores_bind (restores_attempt restores_expr) fun value => restores_pure _

theorem restores_assignTurn (span : Span) : Restores (assignTurn span) := by
  refine restores_bind restores_upcomingKind fun kind? => restores_ite ?_ (restores_pure none)
  refine restores_bind (restores_mark .assign) fun _ => ?_
  exact restores_bind (restores_attempt restores_expr) fun _ => restores_pure _

/-- Which kind of statement it is was decided by looking at the kinds of the tokens ahead, and that
lookahead moves nothing whichever way it goes. -/
theorem restores_statement : Restores statement := by
  refine restores_bind (restores_upcomingAre _) fun isAssign => restores_ite ?_ ?_
  · refine restores_bind (restores_attempt restores_assignment) fun first => ?_
    refine restores_bind restores_upcomingKind fun kind? => restores_ite (restores_pure first) ?_
    exact restores_bind (restores_grow restores_assignTurn _) fun last => restores_pure _
  refine restores_bind (restores_upcomingAre _) fun isCompound => restores_ite ?_ ?_
  · refine restores_bind restores_ident fun target => ?_
    refine restores_bind (restores_mark .compoundAssign) fun _ => ?_
    exact restores_bind (restores_attempt restores_expr) fun value => restores_pure _
  · exact restores_bind (restores_attempt restores_expr) fun value => restores_pure _

theorem restores_separators : Restores separators := by
  refine restores_grow (fun _ => ?_) ()
  refine restores_bind restores_upcomingKind fun kind? => restores_ite ?_ (restores_pure none)
  exact restores_bind (restores_discard restores_next) fun _ => restores_pure _

/-- The token behind a statement is read and, if it ends none, complained of; it is not put back. -/
theorem restores_endOfStatement : Restores endOfStatement := by
  refine restores_bind (restores_possibly restores_next) fun token? => ?_
  cases token? with
  | none => exact restores_pure ()
  | some token =>
    refine restores_ite (restores_pure ()) (restores_ite ?_ ?_)
    · exact restores_throw SyntaxFault.noConfusion
    · exact restores_throw SyntaxFault.noConfusion

/-- A statement that is too high is complained of before what follows it is read. What follows is
treated once, as `hrest`: it stands behind the complaint as well, where it never runs. -/
theorem restores_programTurn (stmts : List Stmt) : Restores (programTurn stmts) := by
  refine restores_bind restores_separators fun _ => restores_bind restores_atEnd fun isEnd => ?_
  refine restores_ite (restores_pure none) ?_
  refine restores_bind (restores_attempt restores_statement) fun stmt => ?_
  have hrest : Restores (do endOfStatement; return some (stmts ++ [stmt])) :=
    restores_bind restores_endOfStatement fun _ => restores_pure _
  refine restores_ite ?_ hrest
  exact restores_bind (restores_throw SyntaxFault.noConfusion) fun _ => hrest

theorem restores_program : Restores program := restores_grow restores_programTurn []

end Parser

/-! ## Calls from outside

The parser is used as a library of calls on one state. `Part` lists the syntax that can be asked
for, `Call` the ways to ask; both are data, so that a run is a list of calls and the last theorem is
an induction on it. -/

/-- What can be read for itself. Each has a parser that the others are built from as well, so
nothing here is read in a way of its own. -/
inductive Part where
  | expr
  | statement
  | assignment
  | literal
  | ident
  | paren
  | primary
  | unaryOp
  | binaryOp
  /-- A single token of this kind. -/
  | mark (kind : TokenKind)

namespace Part

/-- What a part is read as. Signs and operators come with their place, since unlike the rest they do
not carry it. -/
def Value : Part → Type
  | expr | literal | paren | primary => Expr
  | statement | assignment => Stmt
  | ident => Ident
  | unaryOp => UnOp × Span
  | binaryOp => BinOp × Span
  | mark _ => Token

open ThreeAddress.Parser ThreeAddress.ParserState

/-- The parser a part stands for. `primary` has no phrase of its own; its parentheses are read with
the same layers as everywhere else. -/
def parser : (part : Part) → Parser part.Value
  | expr => Parser.expr
  | statement => Parser.statement
  | assignment => Parser.assignment
  | literal => tokenAs Token.literalExpr
  | ident => tokenAs Token.ident
  | paren => Phrase.paren.parse
  | primary => Phrase.primary Phrase.parse
  | unaryOp => tokenAs Token.unaryOp
  | binaryOp => tokenAs Token.binaryOp
  | mark kind => tokenAs (Token.ofKind kind)

/-- Every part restores: an induction over the grammar for the expressions, one lemma for each of
the others. -/
theorem restores (part : Part) : Restores part.parser := by
  cases part with
  | expr => exact restores_expr
  | statement => exact restores_statement
  | assignment => exact restores_assignment
  | literal => exact restores_tokenAs Token.rejects_literalExpr
  | ident => exact restores_tokenAs Token.rejects_ident
  | paren => exact Phrase.restores_parse .paren
  | primary => exact Phrase.restores_primary (Phrase.restores_parse .paren)
  | unaryOp => exact restores_tokenAs Token.rejects_unaryOp
  | binaryOp => exact restores_tokenAs Token.rejects_binaryOp
  | mark kind => exact restores_tokenAs (Token.rejects_ofKind kind)

/-- Parentheses take at least the two tokens that are written for them, and what stands between
takes none back. Hence they advance even if nothing is known of the expression inside but that it
does not go backwards. -/
theorem advances_paren {inner : Phrase → Parser Expr} (h : Phrase.Moving inner) :
    Advances (Phrase.read inner .paren) := by
  intro st e st' hread
  obtain ⟨opening, st₁, kind, content, st₂, closing, st₃, hopening, -, -, -, -, hcontent, hclosing,
    -, rfl, -⟩ := Phrase.paren_ok_iff.mp hread
  have hbefore := advances_next hopening
  have hwithin := Forward.remaining_le (h.forward .expr) hcontent
  have hbehind := advances_next hclosing
  exact (hbehind.trans_le hwithin).trans hbefore

theorem advances_paren_parse : Advances Phrase.paren.parse :=
  advances_paren (Phrase.moving_layers _)

/-- Every part has a token, so to read one is to move on. Without this a loop of reads could stand
still, and a caller could not tell from a success that anything was read. -/
theorem advances (part : Part) : Advances part.parser := by
  cases part with
  | expr => exact advances_expr
  | statement => exact advances_statement
  | assignment => exact advances_assignment
  | paren => exact advances_paren_parse
  | primary =>
    refine advances_bind_right forward_upcomingKind fun kind? => advances_ite ?_ ?_
    · exact advances_attempt advances_paren_parse
    · exact advances_attempt (advances_tokenAs _)
  | literal | ident | unaryOp | binaryOp | mark => exact advances_tokenAs _

end Part

/-- What a parser can be asked for. A program is read by a call of its own, since it is all of the
text and not a part of it. -/
inductive Call where
  | next
  | upcomingKind
  | upcomingAre (kinds : List TokenKind)
  | atEnd
  | span
  | read (part : Part)
  | attempt (part : Part)
  | peek (part : Part)
  /-- A part that has to be all that is left. -/
  | full (part : Part)
  | program

namespace Call

/-- What a call gives back when it succeeds. -/
def Value : Call → Type
  | next => Token
  | upcomingKind => Option TokenKind
  | upcomingAre _ | atEnd => Bool
  | span => Span
  | read part | attempt part | peek part | full part => part.Value
  | program => List Stmt

open ThreeAddress.Parser ThreeAddress.ParserState

/-- The parser that a call runs. `attempt`, `peek` and `full` are ways to run the parser of a part,
and add nothing to what it reads. -/
def parser : (call : Call) → Parser call.Value
  | next => Parser.next
  | upcomingKind => Parser.upcomingKind
  | upcomingAre kinds => Parser.upcomingAre kinds
  | atEnd => Parser.atEnd
  | span => fun st => .ok st.cursor.span st
  | read part => part.parser
  | attempt part => Parser.attempt part.parser
  | peek part => Parser.peek part.parser
  | full part => Parser.full part.parser
  | program => Parser.program

/-- Calls that only look at what comes next. Only `peek` among them can fail, and a failed look has
moved as little as a successful one. -/
def looks : Call → Bool
  | upcomingKind | upcomingAre _ | atEnd | span | peek _ => true
  | next | read _ | attempt _ | full _ | program => false

/-- Calls that read one thing. A program may be empty, so reading it is not among them; nor is
`full`, which reads what `read` does and adds a condition on the end. -/
def reads : Call → Bool
  | next | read _ | attempt _ => true
  | upcomingKind | upcomingAre _ | atEnd | span | peek _ | full _ | program => false

end Call

namespace Parser

open ParserState

variable {α : Type} {p : Parser α} {st st' : ParserState} {d : Diagnostic}

/-- A look sets the cursor back in both cases, where an attempt does it only in one. -/
theorem leaves_peek (hp : Restores p) (st : ParserState) : leaves (peek p) st = st := by
  have hbeside := hp.beside st
  rw [leaves] at hbeside ⊢
  rw [peek]
  cases h : p st <;> rw [h] at hbeside <;> exact hbeside.restored

/-- An attempt that failed might as well not have been made: the state is equal to the one before,
not only beside it. -/
theorem eq_of_attempt_error (hp : Restores p) (h : attempt p st = .error d st') : st' = st := by
  have hbeside := hp.beside st
  rw [leaves] at hbeside
  rw [attempt] at h
  cases hrun : p st with
  | ok a st₁ =>
    rw [hrun] at h
    cases h
  | error d' st₁ =>
    rw [hrun] at h hbeside
    cases h
    exact hbeside.restored

/-- A parser that leaves over a token has the cursor put in front of that. Blanks between are
passed: the token is found by reading on, and only the token itself is put back. -/
theorem full_of_ahead {a : α} {st₁ : ParserState} {token : Token} (h : p st = .ok a st₁)
    (hahead : st₁.ahead = some token) :
    ∃ quiet rest, st₁.cursor.after = quiet ++ token :: rest ∧ (∀ t ∈ quiet, st₁.isQuiet t) ∧
      st₁.isQuiet token = false ∧
      full p st = .error (.form token.span .expectedEnd)
        { st₁ with cursor := ⟨quiet.reverse ++ st₁.cursor.before, token :: rest⟩ } := by
  obtain ⟨st₂, quiet, hnext, hquiet, hloud, hpassed⟩ := next_of_ahead hahead
  have hdiscard : discard Parser.next st₁ = .ok () st₂ := discard_ok_iff.mpr ⟨token, hnext⟩
  refine ⟨quiet, st₂.cursor.after, ?_, hquiet, hloud, ?_⟩
  · rw [hpassed.after, List.append_assoc, List.singleton_append]
  · rw [full, bind_of_ok h, bind_of_ok (atEnd_eq st₁), hahead]
    simp only [Option.isNone_some, Bool.false_eq_true, if_false]
    rw [bind_of_ok hdiscard]
    -- the token is read and then put back, which leaves the quiet ones before it passed
    rcases st₂ with ⟨⟨before, after⟩, nesting, openParens⟩
    obtain rfl : nesting = st₁.nesting := hpassed.nesting
    obtain rfl : openParens = st₁.openParens := hpassed.openParens
    obtain rfl : before = token :: (quiet.reverse ++ st₁.cursor.before) := by
      simpa using hpassed.before
    rfl

/-- With nothing left over, to ask for all that is left changes neither the result nor the state.
Blanks at the end count as nothing. -/
theorem full_of_ahead_none {a : α} {st₁ : ParserState} (h : p st = .ok a st₁)
    (hahead : st₁.ahead = none) : full p st = .ok a st₁ := full_ok_iff.mpr ⟨h, hahead⟩

/-- The one parser that complains of what is behind it still leaves the counters and the tokens
alone. -/
theorem beside_full (hp : Restores p) (st : ParserState) : Beside st (leaves (full p) st) := by
  have hbeside := hp.beside st
  cases h : p st with
  | error d st₁ =>
    have herror : full p st = .error d st₁ := by rw [full, bind_of_error h]
    rw [leaves_of_error herror]
    rwa [leaves_of_error h] at hbeside
  | ok a st₁ =>
    rw [leaves_of_ok h] at hbeside
    cases hahead : st₁.ahead with
    | none => rwa [leaves_of_ok (full_of_ahead_none h hahead)]
    | some token =>
      obtain ⟨quiet, rest, hafter, -, -, herror⟩ := full_of_ahead h hahead
      rw [leaves_of_error herror]
      refine ⟨?_, hbeside.nesting, hbeside.openParens⟩
      rw [← hbeside.tokens]
      simp only [tokens, hafter, List.reverse_append, List.reverse_reverse, List.append_assoc]

/-- Only a token left over makes the end of the text expected. The part was read all the same, and
what is said of the cursor says where: in front of the first token that is not skipped. -/
theorem full_of_expectedEnd (hp : Restores p) (h : full p st = .error d st')
    (hfault : d.fault = .form .expectedEnd) :
    ∃ a st₁ quiet token rest, p st = .ok a st₁ ∧ st₁.cursor.after = quiet ++ token :: rest ∧
      (∀ t ∈ quiet, st₁.isQuiet t) ∧ st₁.isQuiet token = false ∧
      st' = { st₁ with cursor := ⟨quiet.reverse ++ st₁.cursor.before, token :: rest⟩ } := by
  cases hrun : p st with
  | error d' st₁ =>
    rw [full, bind_of_error hrun] at h
    cases h
    -- the part itself never complains of this
    exact (hp.fault_ne hrun hfault).elim
  | ok a st₁ =>
    cases hahead : st₁.ahead with
    | none =>
      rw [full_of_ahead_none hrun hahead] at h
      cases h
    | some token =>
      obtain ⟨quiet, rest, hafter, hquiet, hloud, herror⟩ := full_of_ahead hrun hahead
      rw [herror] at h
      cases h
      exact ⟨a, st₁, quiet, token, rest, rfl, hafter, hquiet, hloud, rfl⟩

end Parser

namespace Call

open ThreeAddress.Parser ThreeAddress.ParserState

/-- Every call leaves the text and the counters alone. `span` reads nothing, so it is beside by
`refl`. -/
theorem beside (call : Call) (st : ParserState) : Beside st (leaves call.parser st) := by
  cases call with
  | next => exact restores_next.beside st
  | upcomingKind => exact restores_upcomingKind.beside st
  | upcomingAre kinds => exact (restores_upcomingAre kinds).beside st
  | atEnd => exact restores_atEnd.beside st
  | span => exact .refl st
  | read part => exact part.restores.beside st
  | attempt part => exact (restores_attempt part.restores).beside st
  | peek part => exact (leaves_peek part.restores st).symm ▸ Beside.refl st
  | full part => exact beside_full part.restores st
  | program => exact restores_program.beside st

theorem leaves_of_looks {call : Call} (h : call.looks) (st : ParserState) :
    leaves call.parser st = st := by
  cases call with
  | upcomingKind | upcomingAre | span => rfl
  | atEnd => exact leaves_of_ok (atEnd_eq st)
  | peek part => exact leaves_peek part.restores st
  | next | read | attempt | full | program => cases h

theorem advances_of_reads {call : Call} (h : call.reads) : Advances call.parser := by
  cases call with
  | next => exact advances_next
  | read part => exact part.advances
  | attempt part => exact advances_attempt part.advances
  | upcomingKind | upcomingAre | atEnd | span | peek | full | program => cases h

/-- The state after some calls, each of which may have failed. The values are dropped: no call
depends on what an earlier one returned, so the state is all that is handed on. -/
def after (calls : List Call) (st : ParserState) : ParserState :=
  calls.foldl (fun st call => leaves call.parser st) st

/-- The run lemma: each call leaves a state beside the one it began in, and so do all of them
together. -/
theorem beside_after (calls : List Call) (st : ParserState) : Beside st (after calls st) := by
  induction calls generalizing st with
  | nil => exact .refl st
  | cons call calls ih => exact (call.beside st).trans (ih _)

/-- However a text is read, by calls that succeed and calls that fail, nothing stays open between
two of them. Looking moves nothing, and neither does an attempt that fails; what is read is behind
the cursor; and where the end was expected, the cursor is at the token found there.

The calls before are arbitrary, and the statements are about one more call after them, in whatever
state they have left. That the counters are back at zero is why the tokens skipped in the last part
are blanks and nothing else: line ends are skipped only within parentheses, and none are open. -/
theorem leaves_after (source : String) (calls : List Call) :
    let st := after calls (.start source)
    (∀ call : Call, (leaves call.parser st).tokens = Token.scan source ∧
      (leaves call.parser st).position ≤ (Token.scan source).length ∧
      (leaves call.parser st).nesting = 0 ∧ (leaves call.parser st).openParens = 0) ∧
    (∀ call : Call, call.looks → leaves call.parser st = st) ∧
    (∀ part d st', (attempt part).parser st = .error d st' → st' = st) ∧
    (∀ (call : Call) value st', call.reads → call.parser st = .ok value st' →
      st.position < st'.position) ∧
    ∀ part d st', (full part).parser st = .error d st' → d.fault = .form .expectedEnd →
      ∃ value st₁ skipped token rest, part.parser st = .ok value st₁ ∧
        st₁.cursor.after = skipped ++ token :: rest ∧ (∀ t ∈ skipped, t.kind = .whitespace) ∧
        token.kind ≠ .whitespace ∧
        st'.cursor = ⟨skipped.reverse ++ st₁.cursor.before, token :: rest⟩ := by
  intro st
  have hst : Beside (.start source) st := beside_after calls _
  refine ⟨?_, ?_, ?_, ?_, ?_⟩
  · intro call
    have hcall := hst.trans (call.beside st)
    have hposition := (leaves call.parser st).position_add_remaining
    have htokens : (leaves call.parser st).tokens = Token.scan source := hcall.tokens
    rw [htokens] at hposition
    exact ⟨htokens, by omega, hcall.nesting, hcall.openParens⟩
  · intro call hlooks
    exact leaves_of_looks hlooks st
  · intro part d st' h
    exact eq_of_attempt_error part.restores h
  · intro call value st' hreads h
    have hbeside := call.beside st
    rw [leaves_of_ok h] at hbeside
    exact hbeside.position_lt (advances_of_reads hreads h)
  · intro part d st' h hfault
    obtain ⟨value, st₁, skipped, token, rest, hread, hafter, hskipped, htoken, rfl⟩ :=
      full_of_expectedEnd part.restores h hfault
    have hpart := part.restores.beside st
    rw [leaves_of_ok hread] at hpart
    -- outside of parentheses, blanks are all that is skipped
    have hquiet : ∀ t, st₁.isQuiet t = decide (t.kind = .whitespace) := by
      intro t
      have hopen : st₁.openParens = 0 := (hst.trans hpart).openParens
      simp [isQuiet, hopen]
    refine ⟨value, st₁, skipped, token, rest, hread, hafter, ?_, ?_, rfl⟩
    · intro t ht
      simpa [hquiet] using hskipped t ht
    · simpa [hquiet] using htoken

/-- A parenthesis behind the expression, and behind two blanks, is where reading stops. -/
example :
    (leaves (full .expr).parser (.start "(1 * 2)  )")).cursor.after.map (·.lexeme) = [")"] := by
  decide +kernel

end Call

end ThreeAddress
