import ThreeAddress.Proofs.CuttingShort
import ThreeAddress.Proofs.Parentheses
import ThreeAddress.Proofs.Turns

/-!
# Where a statement should have ended

A statement is followed by a separator or by the end of the text. If something else follows, that is
complained of, and the complaint marks the place where the program is still in order: the text up to
there is a program, and so it is with a separator behind it
(`parseProgram_of_expectedEndOfStatement`).

Nothing else in a program is complained of in this way (`Undemanding`). So a program that fails with
such a complaint has gone through some whole statements (`Turns`) and one that is not ended, and all
of them are read in the same way if the text is cut short behind the last.

The proof has three parts. Which failures there are is a matter of the rules for outcomes, and takes
most of the lemmas, though each is short. What the failing turn has read is a matter of taking it
apart. That this can be read again from less text is `CuttingShort`, whose relation is established
at the start of the text, where the cut is in front of the token that is complained of.
-/

set_option autoImplicit false

namespace ThreeAddress

open ThreeAddress.Parser ThreeAddress.ParserState

/-! ## The complaint

It is thrown in one place, behind a statement. That all other places throw something else is shown
once for each function of the parser. -/

/-- The diagnostic demands that a statement ends. What was found instead is left open; which token
it is comes out of the place where it is thrown. -/
def Diagnostic.DemandsEnd (d : Diagnostic) : Prop :=
  ∃ found, d.fault = .form (.expectedEndOfStatement found)

theorem Diagnostic.not_demandsEnd {fault : SyntaxFault}
    (h : ∀ found, fault ≠ .expectedEndOfStatement found) (span : Span) :
    ¬(Diagnostic.form span fault).DemandsEnd := by
  rintro ⟨found, hfault⟩
  exact h found (Fault.form.inj hfault)

/-- A complaint of a token is not this one, so `Token.Rejects` takes care of all conversions. -/
theorem SyntaxFault.IsOfToken.not_demandsEnd {fault : SyntaxFault} (h : fault.IsOfToken)
    (span : Span) : ¬(Diagnostic.form span fault).DemandsEnd := by
  apply Diagnostic.not_demandsEnd
  rintro found rfl
  exact h

namespace Parser

variable {α β σ : Type} {p q : Parser α}

/-- Whatever the parser complains of, it does not demand the end of a statement. Nothing is said of
its success, and the postcondition is trivial. -/
def Undemanding (p : Parser α) : Prop :=
  ∀ st, Ends (fun d => ¬d.DemandsEnd) (fun _ _ => True) (p st)

/-- What never fails complains of nothing. -/
theorem undemanding_of_ok {f : ParserState → α} (h : ∀ st, p st = .ok (f st) st) :
    Undemanding p := by
  intro st
  rw [h st]
  trivial

theorem undemanding_pure (a : α) : Undemanding (pure a : Parser α) :=
  undemanding_of_ok fun _ => rfl

theorem undemanding_upcomingKind : Undemanding upcomingKind := undemanding_of_ok upcomingKind_eq

theorem undemanding_lookahead (convert : Token → Except SyntaxFault α) :
    Undemanding (lookahead (tokenAs convert)) :=
  undemanding_of_ok (lookahead_tokenAs convert)

theorem undemanding_throw {span : Span} {fault : SyntaxFault}
    (h : ∀ found, fault ≠ .expectedEndOfStatement found) :
    Undemanding (throw (.form span fault) : Parser α) :=
  fun _ => ends_throw (Diagnostic.not_demandsEnd h span)

theorem undemanding_bind {f : α → Parser β} (hp : Undemanding p) (hf : ∀ a, Undemanding (f a)) :
    Undemanding (p >>= f) :=
  fun st => ends_bind (hp st) fun a st' _ => hf a st'

theorem undemanding_ite {c : Prop} [Decidable c] (hp : Undemanding p) (hq : Undemanding q) :
    Undemanding (if c then p else q) := by
  split
  · exact hp
  · exact hq

theorem undemanding_discard (hp : Undemanding p) : Undemanding (discard p) :=
  undemanding_bind hp fun _ => undemanding_pure ()

theorem undemanding_next : Undemanding next := by
  intro st
  apply ends_next
  · intro st' _
    exact Diagnostic.not_demandsEnd (fun _ => SyntaxFault.noConfusion) _
  · exact fun _ _ _ => trivial

theorem undemanding_tokenAs {convert : Token → Except SyntaxFault α}
    (h : Token.Rejects convert) : Undemanding (tokenAs convert) := by
  apply undemanding_bind undemanding_next
  intro token
  cases hconvert : convert token with
  | ok a => exact undemanding_pure a
  | error fault => exact fun _ => ends_throw ((h hconvert).not_demandsEnd token.span)

theorem undemanding_attempt (hp : Undemanding p) : Undemanding (attempt p) :=
  fun st => ends_attempt (hp st)

theorem undemanding_failingWith {span : Span} {fault : SyntaxFault} (hp : Undemanding p)
    (h : ∀ found, fault ≠ .expectedEndOfStatement found) :
    Undemanding (failingWith (.form span fault) p) := by
  intro st
  apply ends_failingWith
  exact (hp st).imp fun _ _ => Diagnostic.not_demandsEnd h span

theorem undemanding_deeper (hp : Undemanding p) : Undemanding (deeper p) := by
  intro st
  apply ends_deeper (Diagnostic.not_demandsEnd (fun _ => SyntaxFault.noConfusion) _)
  exact hp st.deepened

theorem undemanding_enclosed (hp : Undemanding p) : Undemanding (enclosed p) :=
  fun _ => ends_enclosed (hp _)

theorem undemanding_grow {turn : σ → Parser (Option σ)} (hturn : ∀ a, Undemanding (turn a))
    (a : σ) : Undemanding (grow turn a) :=
  fun _ => ends_grow (fun a st _ => hturn a st) trivial

end Parser

namespace Phrase

variable {inner : Phrase → Parser Expr}

/-! The functions of the grammar, in the order of the code. Each lemma assumes of the layer below
what it shows of its own. -/

theorem undemanding_primary (h : Undemanding (inner .paren)) : Undemanding (primary inner) := by
  apply undemanding_bind undemanding_upcomingKind
  intro kind?
  apply undemanding_ite (undemanding_attempt h)
  exact undemanding_attempt (undemanding_tokenAs Token.rejects_literalExpr)

theorem undemanding_parenthesized (h : Undemanding (inner .expr)) :
    Undemanding (parenthesized inner) := by
  have hparen (kind : TokenKind) : Undemanding (attempt (tokenAs (Token.ofKind kind))) :=
    undemanding_attempt (undemanding_tokenAs (Token.rejects_ofKind kind))
  rw [parenthesized_eq]
  apply undemanding_bind (hparen .openParen)
  intro opening
  apply undemanding_deeper
  apply undemanding_enclosed
  apply undemanding_bind undemanding_upcomingKind
  intro kind?
  unfold interior
  split
  · exact undemanding_throw fun _ => SyntaxFault.noConfusion
  · apply undemanding_bind (hparen .closeParen)
    exact fun closing => undemanding_throw fun _ => SyntaxFault.noConfusion
  · apply undemanding_bind (undemanding_attempt h)
    intro e
    apply undemanding_bind
      (undemanding_failingWith (hparen .closeParen) fun _ => SyntaxFault.noConfusion)
    exact fun closing => undemanding_pure _

theorem undemanding_withSign (h : ∀ phrase, Undemanding (inner phrase)) :
    Undemanding (withSign inner) := by
  apply undemanding_bind (undemanding_attempt (undemanding_tokenAs Token.rejects_unaryOp))
  intro sign
  apply undemanding_deeper
  apply undemanding_bind (h .operand)
  intro first
  exact undemanding_bind (h _) fun operand => undemanding_pure _

theorem undemanding_chainTurn (h : ∀ phrase, Undemanding (inner phrase)) (floor : Precedence)
    (grown : Expr × Nat) : Undemanding (chainTurn inner floor grown) := by
  apply undemanding_bind (undemanding_lookahead Token.binaryOp)
  intro op?
  cases op? with
  | none => exact undemanding_pure none
  | some op =>
    apply undemanding_ite (undemanding_pure none)
    apply undemanding_bind (undemanding_discard undemanding_next)
    intro _
    apply undemanding_bind (h .operand)
    intro first
    apply undemanding_bind (h _)
    intro rhs
    apply undemanding_ite _ (undemanding_pure _)
    exact undemanding_bind (undemanding_throw fun _ => SyntaxFault.noConfusion) fun _ =>
      undemanding_pure _

theorem undemanding_rightSideTurn (h : ∀ phrase, Undemanding (inner phrase)) (op : BinOp)
    (rhs : Expr) : Undemanding (rightSideTurn inner op rhs) := by
  apply undemanding_bind (undemanding_lookahead Token.binaryOp)
  intro op?
  cases op? with
  | none => exact undemanding_pure none
  | some following =>
    apply undemanding_ite
    · exact undemanding_bind (h _) fun _ => undemanding_pure _
    apply undemanding_ite _ (undemanding_pure none)
    exact undemanding_bind (undemanding_deeper (h _)) fun _ => undemanding_pure _

theorem undemanding_read (h : ∀ phrase, Undemanding (inner phrase)) (phrase : Phrase) :
    Undemanding (read inner phrase) := by
  cases phrase with
  | expr =>
    have hread : Undemanding (do let lhs ← inner .operand; inner (.chain lhs .any)) :=
      undemanding_bind (h .operand) fun lhs => h _
    apply undemanding_bind undemanding_upcomingKind
    intro kind?
    apply undemanding_ite _ hread
    apply undemanding_bind undemanding_next
    intro closing
    exact undemanding_bind (undemanding_throw fun _ => SyntaxFault.noConfusion) fun _ => hread
  | operand =>
    apply undemanding_bind (undemanding_lookahead Token.unaryOp)
    intro sign?
    exact undemanding_ite (h .signed) (undemanding_attempt (undemanding_primary (h .paren)))
  | signed => exact undemanding_withSign h
  | paren => exact undemanding_parenthesized (h .expr)
  | chain lhs floor =>
    exact undemanding_bind (undemanding_grow (undemanding_chainTurn h floor) _) fun _ =>
      undemanding_pure _
  | rightSide op rhs => exact undemanding_grow (undemanding_rightSideTurn h op) rhs

theorem undemanding_layers (depth : Nat) (phrase : Phrase) :
    Undemanding (layers depth phrase) := by
  induction depth generalizing phrase with
  | zero => exact fun _ => Diagnostic.not_demandsEnd (fun _ => SyntaxFault.noConfusion) _
  | succ depth ih => exact undemanding_read ih phrase

end Phrase

namespace Parser

/-! The parts of a program, all but the end of a statement. -/

theorem undemanding_expr : Undemanding Parser.expr :=
  Phrase.undemanding_layers Phrase.callDepth .expr

theorem undemanding_mark (kind : TokenKind) :
    Undemanding (discard (attempt (tokenAs (Token.ofKind kind)))) :=
  undemanding_discard (undemanding_attempt (undemanding_tokenAs (Token.rejects_ofKind kind)))

theorem undemanding_binding (kind : TokenKind) (f : Ident → Expr → Stmt) :
    Undemanding (binding kind f) := by
  apply undemanding_bind (undemanding_attempt (undemanding_tokenAs Token.rejects_ident))
  intro target
  apply undemanding_bind (undemanding_mark kind)
  intro _
  exact undemanding_bind (undemanding_attempt undemanding_expr) fun value => undemanding_pure _

theorem undemanding_assignTurn (span : Span) : Undemanding (assignTurn span) := by
  apply undemanding_bind undemanding_upcomingKind
  intro kind?
  apply undemanding_ite _ (undemanding_pure none)
  apply undemanding_bind (undemanding_mark .assign)
  intro _
  exact undemanding_bind (undemanding_attempt undemanding_expr) fun value => undemanding_pure _

theorem undemanding_assignments : Undemanding assignments := by
  apply undemanding_bind (undemanding_attempt (undemanding_binding .assign _))
  intro first
  apply undemanding_bind undemanding_upcomingKind
  intro kind?
  apply undemanding_ite _ (undemanding_pure first)
  exact undemanding_bind (undemanding_grow undemanding_assignTurn _) fun last =>
    undemanding_pure _

theorem undemanding_statement : Undemanding statement := by
  intro st
  rw [statement_eq]
  split
  · exact undemanding_assignments st
  split
  · exact undemanding_binding .compoundAssign _ st
  · exact undemanding_bind (undemanding_attempt undemanding_expr)
      (fun value => undemanding_pure _) st

theorem undemanding_separators : Undemanding separators := by
  apply undemanding_grow
  intro _
  apply undemanding_bind undemanding_upcomingKind
  intro kind?
  apply undemanding_ite _ (undemanding_pure none)
  exact undemanding_bind (undemanding_discard undemanding_next) fun _ => undemanding_pure _

/-! ## The end of a statement

Of the token that is complained of it is known that it ends no statement and closes no parenthesis.
That it is no binary operator either comes from the expression in front of it. -/

variable {st st' s : ParserState} {stmt : Stmt} {d : Diagnostic} {right : List Token}
  {ending : Option Token}

/-- An expression takes in all operators behind it. -/
theorem aheadOp_of_expr {e : Expr} (h : Parser.expr st = .ok e st') : st'.aheadOp = none :=
  (Phrase.complete_of_layers h).aheadOp

theorem aheadOp_of_binding {kind : TokenKind} {f : Ident → Expr → Stmt}
    (h : binding kind f st = .ok stmt st') : st'.aheadOp = none := by
  obtain ⟨target, st₁, mark, st₂, value, -, -, -, -, hvalue, -⟩ := binding_ok_iff.mp h
  exact aheadOp_of_expr hvalue

/-- Further assignments end with an expression as well; if there is none, what comes next is what
came next before. -/
theorem aheadOp_of_assignTurn {span : Span} {more : Option Span} (hst : st.aheadOp = none)
    (h : assignTurn span st = .ok more st') : st'.aheadOp = none := by
  rw [assignTurn, bind_of_ok (upcomingKind_eq st)] at h
  split at h
  · obtain ⟨_, st₁, -, h⟩ := bind_ok_iff.mp h
    obtain ⟨value, st₂, hvalue, h⟩ := bind_ok_iff.mp h
    obtain ⟨-, rfl⟩ := pure_ok_iff.mp h
    exact aheadOp_of_expr (attempt_ok_iff.mp hvalue)
  · obtain ⟨-, rfl⟩ := pure_ok_iff.mp h
    exact hst

/-- Every statement ends with an expression, and so no operator comes behind it. -/
theorem aheadOp_of_statement (h : statement st = .ok stmt st') : st'.aheadOp = none := by
  rw [statement_eq] at h
  split at h
  · obtain ⟨first, st₁, hfirst, h⟩ := bind_ok_iff.mp h
    have hst₁ : st₁.aheadOp = none := by
      rw [attempt_ok_iff, assignment_eq] at hfirst
      exact aheadOp_of_binding hfirst
    rw [bind_of_ok (upcomingKind_eq st₁)] at h
    split at h
    · obtain ⟨last, st₂, hgrow, h⟩ := bind_ok_iff.mp h
      obtain ⟨-, rfl⟩ := pure_ok_iff.mp h
      obtain ⟨st₃, hst₃, hturn⟩ := grow_induct consuming_assignTurn
        (fun _ st => st.aheadOp = none) aheadOp_of_assignTurn hgrow hst₁
      exact aheadOp_of_assignTurn hst₃ hturn
    · obtain ⟨-, rfl⟩ := pure_ok_iff.mp h
      exact hst₁
  split at h
  · exact aheadOp_of_binding h
  · obtain ⟨value, st₁, hvalue, h⟩ := bind_ok_iff.mp h
    obtain ⟨-, rfl⟩ := pure_ok_iff.mp h
    exact aheadOp_of_expr (attempt_ok_iff.mp hvalue)

/-! ## The turn that fails

Which of the parts of a turn has failed is decided by the complaint. All but one are undemanding. -/

/-- The form in which `Undemanding` is used: such a parser has not failed with this diagnostic. -/
theorem Undemanding.ne_error {α : Type} {p : Parser α} (hp : Undemanding p) (hd : d.DemandsEnd) :
    p st ≠ .error d st' :=
  fun h => (hp st).of_error h hd

/-- The token that is complained of has been read: the parser stands behind it, and the diagnostic
has its range and its text. -/
theorem endOfStatement_error (h : endOfStatement st = .error d st') (hd : d.DemandsEnd) :
    ∃ token, next st = .ok token st' ∧ token.kind.isSeparator = false ∧
      token.kind ≠ .closeParen ∧ d = .form token.span (.expectedEndOfStatement token.lexeme) := by
  rw [endOfStatement] at h
  cases hnext : next st with
  | error d₁ st₁ =>
    have hpossibly : possibly next st = .ok none st₁ := by rw [possibly, hnext]
    rw [bind_of_ok hpossibly] at h
    cases h
  | ok token st₁ =>
    have hpossibly : possibly next st = .ok (some token) st₁ := by rw [possibly, hnext]
    rw [bind_of_ok hpossibly] at h
    dsimp only at h
    split at h
    next => cases h
    next hseparator =>
      split at h
      next => exact ((undemanding_throw fun _ => SyntaxFault.noConfusion).ne_error hd h).elim
      next hclose =>
        cases h
        exact ⟨token, rfl, by simpa using hseparator, hclose, rfl⟩

/-- The turn has read a statement, and has then met a token that cannot be there. The height is part
of what is known, since it is checked before the end of the statement is looked for. -/
theorem programTurn_error {stmts : List Stmt} (h : programTurn stmts st = .error d st')
    (hd : d.DemandsEnd) : ∃ st₁ stmt st₂ token,
      separators st = .ok () st₁ ∧ statement st₁ = .ok stmt st₂ ∧
        (∀ value, stmt.value? = some value → value.height ≤ heightLimit) ∧
        next st₂ = .ok token st' ∧ token.kind.isSeparator = false ∧ token.kind ≠ .closeParen ∧
        d = .form token.span (.expectedEndOfStatement token.lexeme) := by
  rcases bind_error_iff.mp h with h | ⟨_, st₁, hseparators, h⟩
  · exact (undemanding_separators.ne_error hd h).elim
  rw [bind_of_ok (atEnd_eq st₁)] at h
  split at h
  next => cases h
  next =>
    rcases bind_error_iff.mp h with h | ⟨stmt, st₂, hstmt, h⟩
    · exact ((undemanding_attempt undemanding_statement).ne_error hd h).elim
    split at h
    next =>
      rcases bind_error_iff.mp h with h | ⟨_, _, h, -⟩
      · exact ((undemanding_throw fun _ => SyntaxFault.noConfusion).ne_error hd h).elim
      · exact (throw_ne_ok h).elim
    -- the statement is there and not too high, so only its end is left to fail
    next hheight =>
      rcases bind_error_iff.mp h with h | ⟨_, st₃, -, h⟩
      · obtain ⟨token, hnext, hkind⟩ := endOfStatement_error h hd
        exact ⟨st₁, stmt, st₂, token, hseparators, attempt_ok_iff.mp hstmt,
          not_tooHigh_iff.mp hheight, hnext, hkind⟩
      · cases h

/-! ## Turns

From the start of the text to the turn that fails, every turn has succeeded. -/

/-- Turns in front of the cut can be made in the text that is cut short. The induction begins with
the first turn, as the relation between the two texts is known at the start and carried along. -/
theorem Turns.of_cutShort {x y : List Stmt × ParserState} (h : Turns programTurn x y)
    (hright : right ≠ []) (hcut : CutShort right ending x.2 s) (hfront : InFront right y.2) :
    ∃ s', Turns programTurn (x.1, s) (y.1, s') ∧ CutShort right ending y.2 s' := by
  induction h using Relation.ReflTransGen.head_induction_on generalizing s with
  | refl => exact ⟨s, .refl, hcut⟩
  | head hstep hmore ih =>
    obtain ⟨raw, hpassed⟩ := Turns.passed forward_programTurn hmore
    obtain ⟨s₁, hstep', hcut₁⟩ :=
      programTurn_of_cutShort hright hcut hstep (hfront.trans ⟨raw, hpassed.after.symm⟩)
    obtain ⟨s', hturns, hcut'⟩ := ih hcut₁
    exact ⟨s', .head hstep' hturns, hcut'⟩

end Parser

/-- If the text is cut short behind a statement, what has been read up to there is a program. The
turns are repeated, and the last statement then ends where the text does. -/
theorem parseProgram_of_turns {source text : String} {right quiet : List Token}
    {ending : Option Token} {stmts : List Stmt} {stmt : Stmt} {st st₁ st₂ : ParserState}
    (hcut : CutShort right ending (start source) (start text)) (hright : right ≠ [])
    (hturns : Turns programTurn ([], start source) (stmts, st))
    (hseparators : separators st = .ok () st₁) (hstmt : statement st₁ = .ok stmt st₂)
    (hheight : ∀ value, stmt.value? = some value → value.height ≤ heightLimit)
    (hafter : st₂.cursor.after = quiet ++ right) (hquiet : ∀ t ∈ quiet, st₂.isQuiet t) :
    parseProgram text = .ok (stmts ++ [stmt]) := by
  obtain ⟨raw, hraw⟩ := hturns.passed forward_programTurn
  have hstatement := suffix_of_forward forward_statement hstmt
  have hfront : InFront right st := List.IsSuffix.trans ⟨quiet, hafter.symm⟩
    (hstatement.trans (suffix_of_forward forward_separators hseparators))
  obtain ⟨s, hturns', hcut'⟩ := hturns.of_cutShort hright hcut hfront
  obtain ⟨s', hgrow⟩ :=
    grow_of_cutShort hcut' hraw.openParens hseparators hstmt hheight hafter hquiet
  exact runOn_ok_iff.mpr ⟨s', (hturns'.grow_eq consuming_programTurn).trans hgrow⟩

/-- If the end of a statement is demanded, the tokens before the place are those of a program, and
so they are with a separator behind them.

The text that is cut short is any with these tokens. That makes the statements the same each time,
since they come from the one run that failed and not from the text. -/
theorem exists_program_of_demandsEnd {source : String} {d : Diagnostic}
    (h : parseProgram source = .error d) (hd : d.DemandsEnd) :
    ∃ before token after stmts, Token.scan source = before ++ token :: after ∧
      d = .form token.span (.expectedEndOfStatement token.lexeme) ∧
      (token.kind.isSeparator = false ∧ token.kind ≠ .closeParen ∧
        ∀ op : BinOp, token.kind ≠ op.kind) ∧
      ∀ (text : String) (ending : Option Token), Token.scan text = before ++ ending.toList →
        (∀ t ∈ ending, t.kind.isSeparator) → parseProgram text = .ok stmts := by
  rw [parseProgram, runOn] at h
  cases hprogram : program (start source) with
  | ok stmts st' =>
    rw [hprogram] at h
    cases h
  | error d₁ st' =>
    rw [hprogram] at h
    obtain rfl := Except.error.inj h
    obtain ⟨stmts, st, hturns, herror⟩ := exists_turns_of_error consuming_programTurn hprogram
    obtain ⟨st₁, stmt, st₂, token, hseparators, hstmt, hheight, hnext, hseparator, hclose, rfl⟩ :=
      programTurn_error herror hd
    -- what has been read up to the offending token, and the blanks in front of it
    obtain ⟨quiet, hquiet, -, hpassed⟩ := passed_of_next hnext
    have hafter : st₂.cursor.after = quiet ++ token :: st'.cursor.after := by
      rw [hpassed.after, List.append_assoc, List.singleton_append]
    obtain ⟨raw, hraw⟩ := hturns.passed forward_programTurn
    obtain ⟨raw₁, hraw₁⟩ := forward_separators hseparators
    obtain ⟨raw₂, hraw₂⟩ := forward_statement hstmt
    have hscan : Token.scan source =
        raw ++ raw₁ ++ raw₂ ++ quiet ++ token :: st'.cursor.after := by
      have hstart : Token.scan source = _ ++ st₂.cursor.after :=
        ((hraw.trans hraw₁).trans hraw₂).after
      rw [hstart, hafter, List.append_assoc _ quiet]
    refine ⟨_, token, st'.cursor.after, stmts ++ [stmt], hscan, rfl,
      ⟨hseparator, hclose, ?_⟩, ?_⟩
    · -- the expression before would have taken in an operator
      intro op hop
      have hnone := aheadOp_of_statement hstmt
      rw [aheadOp_eq_some_iff.mpr ⟨token, ahead_of_next hnext, hop, rfl⟩] at hnone
      cases hnone
    · intro text ending htext hending
      have hcut : CutShort (token :: st'.cursor.after) ending (start source) (start text) :=
        ⟨⟨_, hscan, htext⟩, hending, rfl, rfl⟩
      exact parseProgram_of_turns hcut (List.cons_ne_nil _ _) hturns hseparators hstmt hheight
        hafter hquiet

/-- A line end behind a program changes nothing. It cannot be treated as a semicolon is: a text that
ends with a line end takes in another one as part of the same token, and then there is no token
more. -/
theorem parseProgram_append_newLine {text : String} {stmts : List Stmt}
    (h : parseProgram text = .ok stmts) : parseProgram (text ++ "\n") = .ok stmts := by
  obtain ⟨left, more, ending, lead, newLine, htext, hnone, hjoined, hending, -, hline⟩ :=
    Token.scan_append_line text ""
  obtain ⟨-, rfl⟩ := List.append_eq_nil_iff.mp hnone.symm
  rw [String.append_empty] at hjoined
  obtain ⟨last, hprogram⟩ := runOn_ok_iff.mp h
  have hcont : Continued _ (start text) (start (text ++ "\n")) :=
    ⟨⟨left, ending, newLine, htext, hjoined, hending, hline⟩, rfl, rfl⟩
  obtain ⟨s, raw, -, hnil, hon⟩ := program_of_parting (.inl hcont) rfl hprogram
  exact runOn_ok_iff.mpr ⟨s, hon.trans (program_of_ahead_none (ahead_of_after_nil hnil))⟩

/-- An error that demands the end of a statement marks the place up to which the text is a program.
The text in front of the range is one, with a line end or a semicolon behind it as well, and it has
the same statements each time. The range is that of a token which is no separator, no closing
parenthesis and no binary operator.

The text behind the token plays no part: it has not been looked at when the error is found, and may
be anything. -/
theorem parseProgram_of_expectedEndOfStatement {source found : String} {p q : Nat}
    (h : parseProgram source = .error (.form ⟨p, q⟩ (.expectedEndOfStatement found))) :
    ∃ before after stmts, source = before ++ found ++ after ∧
      before.utf8ByteSize = p ∧ (before ++ found).utf8ByteSize = q ∧
      parseProgram before = .ok stmts ∧ parseProgram (before ++ "\n") = .ok stmts ∧
      parseProgram (before ++ ";") = .ok stmts ∧
      ∃ token ∈ Token.scan source, token.span = ⟨p, q⟩ ∧ token.lexeme = found ∧
        token.kind.isSeparator = false ∧ token.kind ≠ .closeParen ∧
        ∀ op : BinOp, token.kind ≠ op.kind := by
  obtain ⟨before, token, after, stmts, hscan, hform, hkind, hparses⟩ :=
    exists_program_of_demandsEnd h ⟨found, rfl⟩
  obtain ⟨hspan, hlexeme⟩ : ⟨p, q⟩ = token.span ∧ found = token.lexeme := by
    simpa [Diagnostic.form] using hform
  subst hlexeme
  have hplace := (Token.head_of_scan hscan).1
  rw [← hspan] at hplace
  obtain ⟨rfl, rfl⟩ := Span.mk.inj hplace
  -- the text in front of the range has the same tokens by itself
  have hfront : Token.scan (Token.joined before) = before := Token.scan_joined hscan
  have hbefore : parseProgram (Token.joined before) = .ok stmts :=
    hparses _ none (by rw [hfront, Option.toList_none, List.append_nil]) (by simp)
  obtain ⟨semicolon, hsemicolon, hseparator⟩ := Token.scan_append_semicolon (Token.joined before)
  rw [hfront] at hsemicolon
  have hended : parseProgram (Token.joined before ++ ";") = .ok stmts :=
    hparses _ (some semicolon) hsemicolon (by simp [hseparator, TokenKind.isSeparator])
  refine ⟨Token.joined before, Token.joined after, stmts, ?_, rfl, String.utf8ByteSize_append,
    hbefore, parseProgram_append_newLine hbefore, hended, token, ?_, hspan.symm, rfl, hkind⟩
  · rw [← Token.joined_scan source, hscan, Token.joined_append, Token.joined_cons,
      String.append_assoc]
  · rw [hscan]
    exact List.mem_append_right before List.mem_cons_self

/-- Two statements, and a dollar sign behind the second. -/
theorem parseProgram_of_expectedEndOfStatement_dollar :
    parseProgram "a += 1; x = 3 $ 4" = .error (.form ⟨14, 15⟩ (.expectedEndOfStatement "$")) ∧
      ∃ before after stmts, "a += 1; x = 3 $ 4" = before ++ "$" ++ after ∧
        before.utf8ByteSize = 14 ∧ (before ++ "$").utf8ByteSize = 15 ∧
        parseProgram before = .ok stmts ∧ parseProgram (before ++ "\n") = .ok stmts ∧
        parseProgram (before ++ ";") = .ok stmts ∧
        ∃ token ∈ Token.scan "a += 1; x = 3 $ 4", token.span = ⟨14, 15⟩ ∧ token.lexeme = "$" ∧
          token.kind.isSeparator = false ∧ token.kind ≠ .closeParen ∧
          ∀ op : BinOp, token.kind ≠ op.kind := by
  have h : parseProgram "a += 1; x = 3 $ 4" =
      .error (.form ⟨14, 15⟩ (.expectedEndOfStatement "$")) :=
    eq_error_of_errorOf? (by decide +kernel)
  exact ⟨h, parseProgram_of_expectedEndOfStatement h⟩

end ThreeAddress
