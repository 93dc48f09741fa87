import ThreeAddress.Proofs.Layout
import ThreeAddress.Proofs.Outcomes
import ThreeAddress.Proofs.Restoring

/-!
# What is said of parentheses

An error that names a closing parenthesis is true: outside of parentheses every one that was opened
before has been closed, and this one was never opened (`NeverOpened`). An error that names an
opening one need not be. It stands for anything that is met behind an expression where the
parenthesis should be closed, and if that is not the end of the text, a partner may well stand
further on (`Interrupted`).

What the proof needs to know of the tokens behind a parser is that the parentheses among them are
paired. They are where a statement begins and at each step within it, since an expression brings
none that is not (`Expr.Yields.balanced`), and what does not count is no parenthesis.

Two facts of different kinds meet in the argument. That all parentheses behind a place are paired
(`Unenclosed`) goes along with the statements, from the start of the text; within an expression it
does not hold, and is not needed, since there an error is about the parenthesis just opened. That
what stands behind an opening parenthesis is no more than an expression (`Complete`) is taken from
what is known of successful reading.
-/

set_option autoImplicit false

namespace ThreeAddress

open ThreeAddress.Parser ThreeAddress.ParserState

/-! ## Parentheses and their partners

A parenthesis has a partner if there is another with a balanced list of tokens between. So both
statements that there is none are about `Balanced`, and not about counting: a count says that one of
several is left over, but not which. -/

/-- There is no partner among these tokens for a closing parenthesis behind them: however an opening
one is chosen, what stands between is not balanced. -/
def NeverOpened (before : List Token) : Prop :=
  ∀ (left : List Token) (opening : Token) (inner : List Token),
    before = left ++ opening :: inner → opening.kind = .openParen → ¬Balanced inner

/-- There is no partner among these tokens for an opening parenthesis before them. -/
def NeverClosed (after : List Token) : Prop :=
  ∀ (inner : List Token) (closing : Token) (right : List Token),
    after = inner ++ closing :: right → closing.kind = .closeParen → ¬Balanced inner

/-- Behind an opening parenthesis there is an expression, and a token that does not go on with it,
nor does it close the parenthesis.

Within parentheses one level deep, blanks and line ends do not count (`significant 1`). The level
makes no difference as long as there is one, by `Balanced.significant_eq`, so that the definition
need not say how many parentheses are open. -/
def Interrupted (after : List Token) : Prop :=
  ∃ (e : Expr) (raw : List Token) (stray : Token) (rest : List Token),
    after = raw ++ stray :: rest ∧ e.Yields (significant 1 raw) ∧ ¬stray.IsQuietAt 1 ∧
      (∀ op : BinOp, stray.kind ≠ op.kind) ∧ stray.kind ≠ .closeParen

def Token.isParen (token : Token) : Bool := token.kind = .openParen ∨ token.kind = .closeParen

section

variable {ts us raw : List Token} {token : Token} {depth : Nat}

namespace Token

/-! Most tokens are no parentheses: those that are passed over, signs, operators, and literals. -/

theorem isParen_eq_false_iff :
    token.isParen = false ↔ token.kind ≠ .openParen ∧ token.kind ≠ .closeParen := by
  simp [isParen]

theorem isParen_of_isQuietAt (h : token.IsQuietAt depth) : token.isParen = false := by
  rcases h with h | ⟨-, h⟩ <;> simp [isParen, h]

theorem isParen_of_unaryOp {op : UnOp} (h : token.kind = op.kind) : token.isParen = false := by
  cases op <;> simp [isParen, h, UnOp.kind]

theorem isParen_of_binaryOp {op : BinOp} (h : token.kind = op.kind) : token.isParen = false := by
  cases op <;> simp [isParen, h, BinOp.kind]

theorem isParen_of_literal {value : Literal} (h : value.IsToken token) :
    token.isParen = false := by
  cases value <;> simp [isParen, h.1]

end Token

namespace Balanced

theorem cons (htoken : token.isParen = false) (h : Balanced ts) : Balanced (token :: ts) :=
  .token (Token.isParen_eq_false_iff.mp htoken).1 (Token.isParen_eq_false_iff.mp htoken).2 h

/-- Balanced lists in a row are balanced. The induction is on the first; that parentheses are a
constructor with the rest of the list in it makes each case one application. -/
theorem append (h : Balanced ts) (h' : Balanced us) : Balanced (ts ++ us) := by
  induction h with
  | nil => exact h'
  | token hopen hclose _ ih => exact .token hopen hclose ih
  | parens hopen hinner hclose _ _ ih =>
    rw [List.cons_append, List.append_assoc, List.cons_append]
    exact .parens hopen hinner hclose ih

theorem of_forall (h : ∀ t ∈ ts, t.isParen = false) : Balanced ts := by
  induction ts with
  | nil => exact .nil
  | cons token ts ih =>
    obtain ⟨htoken, hts⟩ := List.forall_mem_cons.mp h
    exact .cons htoken (ih hts)

/-! Whether tokens are balanced is a matter of the parentheses among them. So a list of tokens is
balanced if what counts of it is, and the blanks between can be put back. -/

theorem filter (h : Balanced ts) : Balanced (ts.filter Token.isParen) := by
  induction h with
  | nil => exact .nil
  | token hopen hclose _ ih =>
    rwa [List.filter_cons_of_neg (by simp [Token.isParen, hopen, hclose])]
  | parens hopen _ hclose _ ihinner ihrest =>
    rw [List.filter_cons_of_pos (by simp [Token.isParen, hopen]), List.filter_append,
      List.filter_cons_of_pos (by simp [Token.isParen, hclose])]
    exact .parens hopen ihinner hclose ihrest

/-- The converse of `filter`. The induction is on how the parentheses are paired, and each of them
is found again in the full list, with tokens that are none around it. -/
theorem of_filter (h : Balanced (ts.filter Token.isParen)) : Balanced ts := by
  generalize hfilter : ts.filter Token.isParen = core at h
  induction h generalizing ts with
  | nil =>
    apply of_forall
    intro t ht
    exact Bool.eq_false_iff.mpr (List.filter_eq_nil_iff.mp hfilter t ht)
  | @token token _ hopen hclose _ _ =>
    have hmem : token ∈ ts.filter Token.isParen := hfilter ▸ List.mem_cons_self
    simp [Token.isParen, hopen, hclose] at hmem
  | parens hopen _ hclose _ ihinner ihrest =>
    obtain ⟨quiet, behind, rfl, hquiet, -, hbehind⟩ := List.filter_eq_cons_iff.mp hfilter
    obtain ⟨inner, tail, rfl, hinner, htail⟩ := List.filter_eq_append_iff.mp hbehind
    obtain ⟨quiet', rest, rfl, hquiet', -, hrest⟩ := List.filter_eq_cons_iff.mp htail
    have hquiet : Balanced quiet := of_forall fun t ht => Bool.eq_false_iff.mpr (hquiet t ht)
    have hquiet' : Balanced quiet' := of_forall fun t ht => Bool.eq_false_iff.mpr (hquiet' t ht)
    have hinner := (ihinner hinner).append hquiet'
    rw [← List.append_assoc]
    exact hquiet.append (.parens hopen hinner hclose (ihrest hrest))

/-- What does not count is no parenthesis, so dropping it leaves the pairing as it is. What counts
depends on the depth, and yet the parentheses do not. -/
theorem of_significant (h : Balanced (significant depth ts)) : Balanced ts := by
  have hsame : (significant depth ts).filter Token.isParen = ts.filter Token.isParen := by
    clear h
    induction ts generalizing depth with
    | nil => rfl
    | cons token ts ih =>
      rw [significant]
      split
      next hquiet =>
        rw [ih, List.filter_cons_of_neg (by simp [Token.isParen_of_isQuietAt hquiet])]
      next => rw [List.filter_cons, List.filter_cons, ih]
  apply of_filter
  rw [← hsame]
  exact h.filter

/-- Within any parentheses the same of these tokens count. Balanced tokens never lead out of the
parentheses they are in, so the depth stays positive throughout, and that is all that is asked of
it. -/
theorem significant_eq (h : Balanced ts) {depth' : Nat} (hdepth : 0 < depth)
    (hdepth' : 0 < depth') : significant depth ts = significant depth' ts := by
  have hquiet {depth : Nat} (h : 0 < depth) (t : Token) :
      t.IsQuietAt depth ↔ t.kind = .whitespace ∨ t.kind = .newLine := by
    simp [Token.IsQuietAt, h]
  induction h generalizing depth depth' with
  | nil => rfl
  | token hopen hclose _ ih =>
    simp only [significant, hquiet hdepth, hquiet hdepth', Token.depthAfter_of_ne hopen hclose,
      ih hdepth hdepth']
  | @parens opening closing inner rest hopen hinner hclose _ ihinner ihrest =>
    -- the depth is back where it was behind a pair, so the rest is counted as the beginning was
    have hstep {depth : Nat} (h : 0 < depth) :
        significant depth (opening :: (inner ++ closing :: rest)) =
          opening :: (significant (depth + 1) inner ++ closing :: significant depth rest) := by
      rw [significant, if_neg (by simp [hquiet h, hopen]), Token.depthAfter_of_openParen hopen,
        significant_append, hinner.depthBehind_eq, significant,
        if_neg (by simp [hquiet (Nat.succ_pos depth), hclose]),
        Token.depthAfter_of_closeParen hclose, Nat.add_sub_cancel]
    rw [hstep hdepth, hstep hdepth', ihinner (Nat.succ_pos depth) (Nat.succ_pos depth'),
      ihrest hdepth hdepth']

/-- In a balanced list nothing waits for a closing parenthesis. If something did, the depth behind
the list would be larger than before it. -/
theorem neverOpened (h : Balanced ts) : NeverOpened ts := by
  rintro left opening inner rfl hopen hinner
  have hdepth := h.depthBehind_eq 0
  rw [depthBehind_append, depthBehind_cons, Token.depthAfter_of_openParen hopen,
    hinner.depthBehind_eq] at hdepth
  exact Nat.succ_ne_zero _ hdepth

/-- In a balanced list no closing parenthesis is left for one before it. If one were, the depth
would come down below where it began. -/
theorem neverClosed (h : Balanced ts) : NeverClosed ts := by
  rintro inner closing right rfl hclose hinner
  rw [List.append_cons] at h
  have hdepth := h.le_depthBehind 1
  rw [depthBehind_append, hinner.depthBehind_eq, depthBehind_cons,
    Token.depthAfter_of_closeParen hclose] at hdepth
  exact Nat.not_succ_le_zero 0 hdepth

end Balanced

/-- The parentheses of an expression are paired. Only the form for parentheses brings any, and it
brings both. -/
theorem Expr.Yields.balanced {e : Expr} (h : e.Yields ts) : Balanced ts := by
  induction h with
  | literal hliteral => exact .cons (Token.isParen_of_literal hliteral) .nil
  | paren hopening _ hclosing ih => exact .parens hopening ih hclosing .nil
  | unary hsign _ ih => exact .cons (Token.isParen_of_unaryOp hsign) ih
  | binary _ hop _ ihl ihr => exact ihl.append (.cons (Token.isParen_of_binaryOp hop) ihr)

end

/-! ## Errors about parentheses

What an error about a parenthesis says of the text, and that other errors say nothing of this kind.
-/

/-- The text bears out what an error says of the parenthesis at a range. A closing one has no
partner. An opening one has none, or there is something else that is wrong behind it.

The two cases are not alike because the errors are not. A closing parenthesis is complained of where
an expression or a statement cannot go on, and the parser knows that none is open. An opening one is
complained of whenever what follows its expression is not a closing one. -/
def BornOut (source : String) (span : Span) : (opening : Bool) → Prop
  | true => ∃ before token after, Token.scan source = before ++ token :: after ∧
      token.span = span ∧ token.kind = .openParen ∧ (NeverClosed after ∨ Interrupted after)
  | false => ∃ before token after, Token.scan source = before ++ token :: after ∧
      token.span = span ∧ token.kind = .closeParen ∧ NeverOpened before

/-- If the error is about a parenthesis, the text bears it out. Of other errors nothing is asked,
which is what makes this a property that goes through the whole grammar. -/
def Diagnostic.Justified (source : String) (d : Diagnostic) : Prop :=
  ∀ span opening, d = .form span (.unclosedParenthesis opening) → BornOut source span opening

section

variable {source : String} {span : Span} {fault : SyntaxFault}

/-- All faults but two are about something else. Both are `unclosedParenthesis`, with either flag.
-/
theorem justified_form (h : ∀ opening, fault ≠ .unclosedParenthesis opening) (span : Span) :
    (Diagnostic.form span fault).Justified source := by
  intro span' opening heq
  exact (h opening (Fault.form.inj (congrArg Diagnostic.fault heq))).elim

theorem justified_unclosed {opening : Bool} (h : BornOut source span opening) :
    (Diagnostic.form span (.unclosedParenthesis opening)).Justified source := by
  intro span' opening' heq
  obtain ⟨hspans, hfault⟩ := Diagnostic.mk.inj heq
  obtain rfl := List.singleton_inj.mp hspans
  obtain rfl := SyntaxFault.unclosedParenthesis.inj (Fault.form.inj hfault)
  exact h

/-- A complaint of a token is none of a parenthesis, even if the token is one: then it says that
another kind was expected. -/
theorem SyntaxFault.IsOfToken.justified (h : fault.IsOfToken) (span : Span) :
    (Diagnostic.form span fault).Justified source := by
  apply justified_form
  rintro opening rfl
  exact h

end

/-! ## Places in a text

Within an expression a place is only known to be in the text; between expressions the parentheses
behind it are known to be paired as well. -/

namespace ParserState

variable {source : String} {st st' : ParserState} {raw : List Token} {token : Token}

/-- This is a place in the text. The error has to find the tokens around the parenthesis again, so
the state must still hold all of them. -/
def InText (source : String) (st : ParserState) : Prop := st.tokens = Token.scan source

theorem InText.passed (h : InText source st) (hpassed : Passed raw st st') : InText source st' :=
  hpassed.beside.tokens.trans h

theorem InText.behind (h : InText source st) (hnext : next st = .ok token st') :
    InText source st' := by
  obtain ⟨raw, hpassed⟩ := forward_next hnext
  exact h.passed hpassed

/-- What has been read of the text, and what is left. -/
theorem InText.scan_eq {quiet : List Token} (h : InText source st)
    (hpassed : Passed (quiet ++ [token]) st st') :
    Token.scan source = (st.cursor.before.reverse ++ quiet) ++ token :: st'.cursor.after := by
  rw [← h, tokens, hpassed.after]
  simp only [List.append_assoc, List.singleton_append]

/-- Every parenthesis behind this place in the text has its partner there. It holds at the start of
a statement and between its parts. -/
structure Unenclosed (source : String) (st : ParserState) : Prop where
  inText : InText source st
  balanced : Balanced st.cursor.before.reverse

theorem unenclosed_start (source : String) : Unenclosed source (.start source) := ⟨rfl, .nil⟩

/-- Passing balanced tokens keeps it. What is passed between statements and their parts is either an
expression or has no parentheses at all. -/
theorem Unenclosed.passed (h : Unenclosed source st) (hpassed : Passed raw st st')
    (hraw : Balanced raw) : Unenclosed source st' where
  inText := h.inText.passed hpassed
  balanced := by
    rw [hpassed.before, List.reverse_append, List.reverse_reverse]
    exact h.balanced.append hraw

theorem balanced_of_isQuiet (h : ∀ t ∈ raw, st.isQuiet t) : Balanced raw :=
  .of_forall fun t ht => Token.isParen_of_isQuietAt (isQuiet_iff.mp (h t ht))

theorem Unenclosed.behind (h : Unenclosed source st) (hnext : next st = .ok token st')
    (htoken : token.isParen = false) : Unenclosed source st' := by
  obtain ⟨quiet, hquiet, -, hpassed⟩ := passed_of_next hnext
  exact h.passed hpassed ((balanced_of_isQuiet hquiet).append (.cons htoken .nil))

/-- A closing parenthesis that is met there has no partner. This is the one place where an error
about a closing parenthesis is justified; both ways of meeting one are traced back to it. -/
theorem Unenclosed.bornOut (h : Unenclosed source st) (hnext : next st = .ok token st')
    (hkind : token.kind = .closeParen) : BornOut source token.span false := by
  obtain ⟨quiet, hquiet, -, hpassed⟩ := passed_of_next hnext
  exact ⟨_, token, _, h.inText.scan_eq hpassed, rfl, hkind,
    (h.balanced.append (balanced_of_isQuiet hquiet)).neverOpened⟩

end ParserState

/-- Between the two places of an expression, parentheses are paired. What the parser has passed is
what was read and what was skipped over; the first is balanced as the tokens of an expression, and
the second has no parentheses. -/
theorem Parsed.exists_passed {st st' : ParserState} {e : Expr} (h : Parsed st e st') :
    ∃ raw, st.cursor.after = raw ++ st'.cursor.after ∧ Balanced raw ∧
      e.Yields (significant st.openParens raw) := by
  obtain ⟨ts, hconsumes, hyields⟩ := h.reads
  obtain ⟨raw, hafter, -, hsignificant⟩ := hconsumes.exists_passed
  have hsignificant := hsignificant []
  rw [List.append_nil, significant, List.append_nil] at hsignificant
  rw [← hsignificant] at hyields
  exact ⟨raw, hafter, .of_significant hyields.balanced, hyields⟩

/-! ## Single tokens

Reading a token never brings up an error about parentheses. What is kept is that `next` succeeded,
from which a caller takes what it needs of the token and of the place. -/

namespace Parser

variable {α : Type} {source : String} {st : ParserState}

theorem ends_next_ok : Ends (Diagnostic.Justified source)
    (fun token st' => next st = .ok token st') (next st) := by
  apply ends_next
  · intro st' _
    exact justified_form (fun _ => SyntaxFault.noConfusion) _
  · exact fun _ _ hnext => hnext

theorem ends_tokenAs {convert : Token → Except SyntaxFault α} (h : Token.Rejects convert) :
    Ends (Diagnostic.Justified source)
      (fun a st' => ∃ token, next st = .ok token st' ∧ convert token = .ok a)
      (tokenAs convert st) := by
  apply ends_bind ends_next_ok
  intro token st' hnext
  cases hconvert : convert token with
  | ok a => exact ⟨token, hnext, hconvert⟩
  | error fault => exact ends_throw ((h hconvert).justified token.span)

end Parser

/-! ## Expressions

Through the layers of the grammar goes `Justifying`: the error is borne out, or the parser is still
in the text. That parentheses are paired behind an expression is not shown here, but taken from
`Parsed` when it has been read. -/

namespace Phrase

variable {source : String} {inner : Phrase → Parser Expr} {st st' : ParserState} {lhs rhs : Expr}
  {floor : Precedence} {op : BinOp}

/-- An expression may be asked for at a closing parenthesis only where all before that have their
partners. Any other phrase may be asked for anywhere.

The condition is about the one error that the phrase for expressions throws itself. Within
parentheses it is vacuous, since an expression is asked for there only if something else comes next.
-/
def Admissible (st : ParserState) : Phrase → Prop
  | expr => st.ahead.map (·.kind) = some .closeParen → Balanced st.cursor.before.reverse
  | _ => True

/-- Whatever phrase is read, its errors about parentheses are borne out. Nothing is said of the
nesting of what has been read: that a failed parser is somewhere in the middle of it does no harm.
-/
def Justifying (source : String) (inner : Phrase → Parser Expr) : Prop :=
  ∀ phrase {st}, InText source st → phrase.Admissible st →
    Ends (Diagnostic.Justified source) (fun _ => InText source) (inner phrase st)

theorem ends_literal (hst : InText source st) :
    Ends (Diagnostic.Justified source) (fun _ => InText source)
      (tokenAs Token.literalExpr st) := by
  apply (ends_tokenAs Token.rejects_literalExpr).mono
  rintro e st' - ⟨token, hnext, -⟩
  exact hst.behind hnext

/-- An expression that begins with a closing parenthesis. By `Admissible` all parentheses before it
are paired, so that it has no partner. -/
theorem ends_expr_read (h : Justifying source inner) (hst : InText source st)
    (hadmissible : Admissible st .expr) :
    Ends (Diagnostic.Justified source) (fun _ => InText source)
      (read inner .expr st) := by
  rw [Phrase.read, bind_of_ok (upcomingKind_eq st)]
  split
  next hkind =>
    apply ends_bind ends_next_ok
    intro closing st' hnext
    have hunenclosed : Unenclosed source st := ⟨hst, hadmissible hkind⟩
    rw [ahead_of_next hnext] at hkind
    exact ends_throw_bind (justified_unclosed (hunenclosed.bornOut hnext (Option.some.inj hkind)))
  next =>
    apply ends_bind (h .operand hst trivial)
    intro lhs st₁ hst₁
    exact h (.chain lhs .any) hst₁ trivial

theorem ends_operand (h : Justifying source inner) (hst : InText source st) :
    Ends (Diagnostic.Justified source) (fun _ => InText source)
      (read inner .operand st) := by
  rw [Phrase.read, bind_of_ok (lookahead_tokenAs Token.unaryOp st)]
  split
  · exact h .signed hst trivial
  apply ends_attempt
  rw [primary, bind_of_ok (upcomingKind_eq st)]
  split
  · exact ends_attempt (h .paren hst trivial)
  · exact ends_attempt (ends_literal hst)

theorem ends_signed (h : Justifying source inner) (hst : InText source st) :
    Ends (Diagnostic.Justified source) (fun _ => InText source)
      (read inner .signed st) := by
  apply ends_bind (ends_attempt (ends_tokenAs Token.rejects_unaryOp))
  rintro ⟨sign, signSpan⟩ st₁ ⟨token, hnext, -⟩
  have hst₁ : InText source st₁ := hst.behind hnext
  have hdeep : InText source st₁.deepened := hst₁
  apply ends_deeper (justified_form (fun _ => SyntaxFault.noConfusion) _)
  apply ends_bind (h .operand hdeep trivial)
  intro first st₂ hst₂
  apply ends_bind (h (.chain first sign.precedence) hst₂ trivial)
  exact fun operand st₃ hst₃ => hst₃

/-- What is known of an expression that has been read, and of where the parser then is: which tokens
it took, that as many parentheses are open as before, and that no operator follows. -/
structure Complete (st : ParserState) (e : Expr) (st' : ParserState) : Prop where
  parsed : Parsed st e st'
  openParens : st'.openParens = st.openParens
  aheadOp : st'.aheadOp = none

/-- An expression takes in all operators behind it, as any of them binds tightly enough. This is a
fact about success, at any depth of layers, and so it can be used for the layer below while the
errors are treated by induction. -/
theorem complete_of_layers {depth : Nat} {e : Expr} (h : layers depth .expr st = .ok e st') :
    Complete st e st' where
  parsed := sound_layers depth .expr h
  openParens := by
    obtain ⟨raw, hpassed⟩ := (moving_layers depth).forward .expr h
    exact hpassed.openParens
  aheadOp := by
    cases depth with
    | zero => exact (layers_zero_ne_ok h).elim
    | succ depth =>
      obtain ⟨-, lhs, st₁, hlhs, hchain⟩ := expr_ok_iff.mp h
      have hlhs : Parsed st lhs st₁ := (sound_layers depth .operand hlhs).1
      have hstops : st'.StopsBelow .any := (sound_layers depth (.chain lhs .any) hchain st hlhs).2.2
      cases hahead : st'.aheadOp with
      | none => rfl
      | some ahead => exact (Nat.not_lt_zero _ (hstops ahead.1 ahead.2 hahead)).elim

/-- Another token that counts behind the expression interrupts what the parenthesis opened. It
cannot be an operator, since the expression would have gone on with it; and it is supposed to be no
closing parenthesis. -/
theorem Complete.stray {e : Expr} {stray : Token} (h : Complete st e st')
    (hdepth : 0 < st.openParens) (hahead : st'.ahead = some stray)
    (hkind : stray.kind ≠ .closeParen) : Interrupted st.cursor.after := by
  obtain ⟨raw, hafter, hraw, hyields⟩ := h.parsed.exists_passed
  obtain ⟨st₁, quiet, -, hquiet, hloud, hpassed⟩ := next_of_ahead hahead
  have hquiet : ∀ t ∈ quiet, t.IsQuietAt st.openParens := by
    intro t ht
    rw [← h.openParens]
    exact isQuiet_iff.mp (hquiet t ht)
  have hbalanced : Balanced (raw ++ quiet) :=
    hraw.append (.of_forall fun t ht => Token.isParen_of_isQuietAt (hquiet t ht))
  -- blanks between the expression and the token add nothing to what counts
  have hcount : significant st.openParens (raw ++ quiet) = significant st.openParens raw := by
    have hnone := significant_append_of_quiet hquiet []
    rw [List.append_nil, significant] at hnone
    rw [significant_append, hraw.depthBehind_eq, hnone, List.append_nil]
  refine ⟨e, raw ++ quiet, stray, st₁.cursor.after, ?_, ?_, ?_, ?_, hkind⟩
  · rw [hafter, hpassed.after]
    simp only [List.append_assoc, List.singleton_append]
  · rwa [← hbalanced.significant_eq hdepth Nat.one_pos, hcount]
  · have hstray : ¬stray.IsQuietAt st.openParens := by
      rw [← h.openParens, ← isQuiet_iff, hloud]
      exact Bool.false_ne_true
    simpa [Token.IsQuietAt, hdepth] using hstray
  · intro op hop
    have hnone := h.aheadOp
    rw [aheadOp_eq_some_iff.mpr ⟨stray, hahead, hop, rfl⟩] at hnone
    cases hnone

/-- If nothing that counts is left behind the expression, the parenthesis is never closed. What
follows is the expression, whose parentheses are paired, and what is passed over. -/
theorem Complete.neverClosed {e : Expr} (h : Complete st e st') (hahead : st'.ahead = none) :
    NeverClosed st.cursor.after := by
  obtain ⟨raw, hafter, hraw, -⟩ := h.parsed.exists_passed
  rw [hafter]
  exact (hraw.append (balanced_of_isQuiet (ahead_eq_none_iff.mp hahead))).neverClosed

/-- Reading a closing parenthesis fails at the end of the text or at another token. What can be said
of any diagnostic in both cases is said of the one that it fails with.

`E` is asked of all diagnostics because the one at hand is about to be replaced: what is shown is
that there is a reason for it, and the reason justifies the other. -/
theorem ends_closing {E : Diagnostic → Prop} (hend : st.ahead = none → ∀ d, E d)
    (hstray : ∀ token, st.ahead = some token → token.kind ≠ .closeParen → ∀ d, E d) :
    Ends E (fun closing st' => next st = .ok closing st')
      (attempt (tokenAs (Token.ofKind .closeParen)) st) := by
  apply ends_attempt
  apply ends_bind (Q := fun token st' => next st = .ok token st')
  · apply ends_next
    · exact fun st' hnext => hend (end_of_next hnext).1 _
    · exact fun _ _ hnext => hnext
  · intro token st' hnext
    by_cases hkind : token.kind = .closeParen
    · rw [Token.ofKind_ok_iff.mpr ⟨hkind, rfl⟩]
      exact hnext
    · rw [Token.ofKind, if_neg hkind]
      exact ends_throw (hstray token (ahead_of_next hnext) hkind _)

/-- What follows an opening parenthesis. `hscan` says where that stands in the text, and `hahead`
that the kind handed on is that of the next token; both come from the lines of the code before.

Three ways lead to a complaint. The text ends at once, so there is no partner. The text ends behind
the expression, so there is none either. Or a token follows that does not fit, and then it is not
known whether there is a partner. -/
theorem ends_interior (h : Justifying source inner)
    (hcomplete : ∀ {st e st'}, inner .expr st = .ok e st' → Complete st e st') {opening : Token}
    {before : List Token} {kind? : Option TokenKind} (hahead : st.ahead.map (·.kind) = kind?)
    (hscan : Token.scan source = before ++ opening :: st.cursor.after)
    (hopen : opening.kind = .openParen) (hst : InText source st)
    (hdepth : 0 < st.openParens) :
    Ends (Diagnostic.Justified source) (fun _ => InText source)
      (interior inner opening kind? st) := by
  have hunclosed (h : NeverClosed st.cursor.after ∨ Interrupted st.cursor.after) :
      (Diagnostic.form opening.span (.unclosedParenthesis true)).Justified source :=
    justified_unclosed ⟨before, opening, _, hscan, rfl, hopen, h⟩
  unfold interior
  split
  next =>
    have hquiet := ahead_eq_none_iff.mp (Option.map_eq_none_iff.mp hahead)
    exact ends_throw (hunclosed (.inl (balanced_of_isQuiet hquiet).neverClosed))
  next =>
    apply ends_bind (ends_attempt (ends_tokenAs (Token.rejects_ofKind .closeParen)))
    intro closing st' _
    exact ends_throw (justified_form (fun _ => SyntaxFault.noConfusion) _)
  next kind hne =>
    have hadmissible : Admissible st .expr := by
      intro hclose
      exact (hne (Option.some.inj (hahead.symm.trans hclose))).elim
    apply ends_bind ((ends_attempt (h .expr hst hadmissible)).mono
      (R := fun e st₁ => Complete st e st₁ ∧ InText source st₁)
      fun _ _ hread hst₁ => ⟨hcomplete (attempt_ok_iff.mp hread), hst₁⟩)
    rintro e st₁ ⟨he, hst₁⟩
    -- the diagnostic that is given up would tell the two cases apart
    apply ends_bind (ends_failingWith (ends_closing
      (fun hend _ => hunclosed (.inl (he.neverClosed hend)))
      fun stray hstray hkind _ => hunclosed (.inr (he.stray hdepth hstray hkind))))
    exact fun closing st₂ hnext => hst₁.behind hnext

/-- The opening parenthesis is read, and its place in the text noted. From there on the state is one
deeper and has one more parenthesis open, neither of which `InText` looks at. -/
theorem ends_paren (h : Justifying source inner)
    (hcomplete : ∀ {st e st'}, inner .expr st = .ok e st' → Complete st e st')
    (hst : InText source st) :
    Ends (Diagnostic.Justified source) (fun _ => InText source)
      (read inner .paren st) := by
  rw [Phrase.read, parenthesized_eq]
  apply ends_bind (ends_attempt (ends_tokenAs (Token.rejects_ofKind .openParen)))
  rintro opening st₁ ⟨token, hnext, hopening⟩
  obtain ⟨hopen, rfl⟩ := Token.ofKind_ok_iff.mp hopening
  obtain ⟨quiet, -, -, hpassed⟩ := passed_of_next hnext
  have hst₁ : InText source st₁ := hst.passed hpassed
  have hinside : InText source st₁.inside := hst₁
  apply ends_deeper (justified_form (fun _ => SyntaxFault.noConfusion) _)
  apply ends_enclosed
  rw [bind_of_ok (upcomingKind_eq _)]
  have hscan := hst.scan_eq hpassed
  exact ends_interior h hcomplete rfl hscan hopen hinside (Nat.succ_pos _)

/-- An operator and its right side. No error about parentheses begins here, so all that is to be
shown is that those of the parts are handed on. -/
theorem ends_extend (h : Justifying source inner) {height : Nat} {opSpan : Span}
    (hst : InText source st) :
    Ends (Diagnostic.Justified source) (fun _ => InText source)
      (extend inner lhs height op opSpan st) := by
  have hdiscard : Ends (Diagnostic.Justified source) (fun _ => InText source)
      (discard next st) := by
    apply ends_discard ends_next_ok
    exact fun token st' hnext => hst.behind hnext
  apply ends_bind hdiscard
  intro _ st₁ hst₁
  apply ends_bind (h .operand hst₁ trivial)
  intro first st₂ hst₂
  apply ends_bind (h (.rightSide op first) hst₂ trivial)
  intro rhs st₃ hst₃
  dsimp only
  split
  · exact ends_throw_bind (justified_form (fun _ => SyntaxFault.noConfusion) _)
  · exact hst₃

theorem ends_chainTurn (h : Justifying source inner) (grown : Expr × Nat)
    (hst : InText source st) :
    Ends (Diagnostic.Justified source) (fun _ => InText source)
      (chainTurn inner floor grown st) := by
  obtain ⟨lhs, height⟩ := grown
  rw [chainTurn_eq]
  cases st.aheadOp with
  | none => exact hst
  | some ahead =>
    dsimp only
    split
    · exact hst
    · exact ends_extend h hst

theorem ends_rightSideTurn (h : Justifying source inner) (rhs : Expr)
    (hst : InText source st) :
    Ends (Diagnostic.Justified source) (fun _ => InText source)
      (rightSideTurn inner op rhs st) := by
  rw [rightSideTurn, bind_of_ok (lookahead_tokenAs Token.binaryOp st)]
  cases st.ahead.bind fun token => token.binaryOp.toOption with
  | none => exact hst
  | some following =>
    dsimp only
    split
    · exact ends_bind (h (.chain rhs _) hst trivial) fun _ _ hgrown => hgrown
    split
    · have hdeep : InText source st.deepened := hst
      exact ends_bind (ends_deeper (Q := fun _ => InText source)
        (justified_form (fun _ => SyntaxFault.noConfusion) _)
        (h (.chain rhs op.precedence) hdeep trivial)) fun _ _ hgrown => hgrown
    · exact hst

/-- One layer, given the layer below and what it is to succeed with an expression there. The second
hypothesis stands apart, since it is not an outcome of this induction. -/
theorem justifying_read (h : Justifying source inner)
    (hcomplete : ∀ {st e st'}, inner .expr st = .ok e st' → Complete st e st') :
    Justifying source (read inner) := by
  intro phrase st hst hadmissible
  cases phrase with
  | expr => exact ends_expr_read h hst hadmissible
  | operand => exact ends_operand h hst
  | signed => exact ends_signed h hst
  | paren => exact ends_paren h hcomplete hst
  | chain lhs floor =>
    exact ends_bind (ends_grow (fun a _ => ends_chainTurn h a) hst) fun _ _ hst' => hst'
  | rightSide op rhs => exact ends_grow (fun a _ => ends_rightSideTurn h a) hst

/-- The induction on the layers. The lowest fails for want of depth, which is nothing about
parentheses. -/
theorem justifying_layers (depth : Nat) : Justifying source (layers depth) := by
  induction depth with
  | zero =>
    intro phrase st _ _
    exact ends_throw (justified_form (fun _ => SyntaxFault.noConfusion) _)
  | succ depth ih =>
    rw [layers_succ]
    exact justifying_read ih complete_of_layers

end Phrase

/-! ## Statements and programs

Between statements and between their parts `Unenclosed` is kept, which makes expressions admissible.
So the invariant here is stronger than within expressions, and it is restored behind each of them.
-/

namespace Parser

variable {source : String} {st st' : ParserState}

/-- An expression in a statement. The outcome from the grammar says only that the parser is in the
text; that parentheses are paired again behind the expression comes from what it has passed. -/
theorem ends_expr (hst : Unenclosed source st) :
    Ends (Diagnostic.Justified source) (fun _ => Unenclosed source) (Parser.expr st) := by
  apply (Phrase.justifying_layers Phrase.callDepth .expr hst.inText fun _ => hst.balanced).mono
  intro e st' hread _
  obtain ⟨raw, hafter, hraw, -⟩ := (parsed_of_expr hread).exists_passed
  obtain ⟨raw', hpassed⟩ := forward_expr hread
  obtain rfl : raw' = raw := List.append_cancel_right (hpassed.after.symm.trans hafter)
  exact hst.passed hpassed hraw

theorem ends_ident (hst : Unenclosed source st) :
    Ends (Diagnostic.Justified source) (fun _ => Unenclosed source)
      (attempt (tokenAs Token.ident) st) := by
  apply ends_attempt
  apply (ends_tokenAs Token.rejects_ident).mono
  rintro target st' - ⟨token, hnext, hident⟩
  obtain ⟨hkind, -⟩ := Token.ident_ok_iff.mp hident
  exact hst.behind hnext (by simp [Token.isParen, hkind])

theorem ends_mark {kind : TokenKind} (hopen : kind ≠ .openParen) (hclose : kind ≠ .closeParen)
    (hst : Unenclosed source st) :
    Ends (Diagnostic.Justified source) (fun _ => Unenclosed source)
      (discard (attempt (tokenAs (Token.ofKind kind))) st) := by
  apply ends_discard (ends_attempt (ends_tokenAs (Token.rejects_ofKind kind)))
  rintro token st' ⟨token', hnext, hofKind⟩
  obtain ⟨hkind, -⟩ := Token.ofKind_ok_iff.mp hofKind
  exact hst.behind hnext (by simp [Token.isParen, hkind, hopen, hclose])

theorem ends_assignment (hst : Unenclosed source st) :
    Ends (Diagnostic.Justified source) (fun _ => Unenclosed source) (assignment st) := by
  apply ends_bind (ends_ident hst)
  intro target st₁ hst₁
  apply ends_bind (ends_mark TokenKind.noConfusion TokenKind.noConfusion hst₁)
  intro _ st₂ hst₂
  apply ends_bind (ends_attempt (ends_expr hst₂))
  exact fun value st₃ hst₃ => hst₃

theorem ends_assignTurn (last : Span) (hst : Unenclosed source st) :
    Ends (Diagnostic.Justified source) (fun _ => Unenclosed source) (assignTurn last st) := by
  rw [assignTurn, bind_of_ok (upcomingKind_eq st)]
  split
  · apply ends_bind (ends_mark TokenKind.noConfusion TokenKind.noConfusion hst)
    intro _ st₁ hst₁
    apply ends_bind (ends_attempt (ends_expr hst₁))
    exact fun value st₂ hst₂ => hst₂
  · exact hst

/-- Each kind of statement is names, signs that are no parentheses, and expressions, one after the
other. -/
theorem ends_statement (hst : Unenclosed source st) :
    Ends (Diagnostic.Justified source) (fun _ => Unenclosed source) (statement st) := by
  have hupcoming : ∀ kinds, upcomingAre kinds st =
      .ok (kinds.isPrefixOf (st.upcoming.map (·.kind))) st := fun _ => rfl
  rw [statement, bind_of_ok (hupcoming _)]
  split
  · apply ends_bind (ends_attempt (ends_assignment hst))
    intro first st₁ hst₁
    rw [bind_of_ok (upcomingKind_eq st₁)]
    split
    · exact hst₁
    apply ends_bind (ends_grow (fun last _ => ends_assignTurn last) hst₁)
    exact fun last st₂ hst₂ => hst₂
  rw [bind_of_ok (hupcoming _)]
  split
  · apply ends_bind (ends_ident hst)
    intro target st₁ hst₁
    apply ends_bind (ends_mark TokenKind.noConfusion TokenKind.noConfusion hst₁)
    intro _ st₂ hst₂
    apply ends_bind (ends_attempt (ends_expr hst₂))
    exact fun value st₃ hst₃ => hst₃
  · apply ends_bind (ends_attempt (ends_expr hst))
    exact fun value st₁ hst₁ => hst₁

theorem isParen_of_isSeparator {token : Token} (h : token.kind.isSeparator) :
    token.isParen = false :=
  Token.isParen_eq_false_iff.mpr (not_paren_of_isSeparator h)

theorem ends_separatorTurn (u : Unit) (hst : Unenclosed source st) :
    Ends (Diagnostic.Justified source) (fun _ => Unenclosed source) (separatorTurn u st) := by
  rw [separatorTurn, bind_of_ok (upcomingKind_eq st)]
  split
  next hseparator =>
    have hdiscard : Ends (Diagnostic.Justified source) (fun _ => Unenclosed source)
        (discard next st) := by
      apply ends_discard ends_next_ok
      intro token st' hnext
      rw [ahead_of_next hnext] at hseparator
      exact hst.behind hnext (isParen_of_isSeparator hseparator)
    exact ends_bind hdiscard fun _ _ hst' => hst'
  next => exact hst

/-- A closing parenthesis that is met behind a statement was never opened. -/
theorem ends_endOfStatement (hst : Unenclosed source st) :
    Ends (Diagnostic.Justified source) (fun _ => Unenclosed source) (endOfStatement st) := by
  cases hnext : next st with
  | error d st' =>
    have hpossibly : possibly next st = .ok none st' := by rw [possibly, hnext]
    obtain ⟨hahead, -, hpassed⟩ := end_of_next hnext
    rw [endOfStatement, bind_of_ok hpossibly]
    exact hst.passed hpassed (balanced_of_isQuiet (ahead_eq_none_iff.mp hahead))
  | ok token st' =>
    have hpossibly : possibly next st = .ok (some token) st' := by rw [possibly, hnext]
    rw [endOfStatement, bind_of_ok hpossibly]
    dsimp only
    split
    next hseparator => exact hst.behind hnext (isParen_of_isSeparator hseparator)
    split
    next hclose => exact ends_throw (justified_unclosed (hst.bornOut hnext hclose))
    next => exact ends_throw (justified_form (fun _ => SyntaxFault.noConfusion) _)

/-- One statement with what separates it from the next. Behind a whole statement the parentheses are
paired, and so the loop can go on. -/
theorem ends_programTurn (stmts : List Stmt) (hst : Unenclosed source st) :
    Ends (Diagnostic.Justified source) (fun _ => Unenclosed source) (programTurn stmts st) := by
  apply ends_bind (ends_grow (fun u _ => ends_separatorTurn u) hst)
  intro _ st₁ hst₁
  rw [bind_of_ok (atEnd_eq st₁)]
  split
  · exact hst₁
  apply ends_bind (ends_attempt (ends_statement hst₁))
  intro stmt st₂ hst₂
  split
  · exact ends_throw_bind (justified_form (fun _ => SyntaxFault.noConfusion) _)
  apply ends_bind (ends_endOfStatement hst₂)
  exact fun _ st₃ hst₃ => hst₃

theorem ends_program (source : String) :
    Ends (Diagnostic.Justified source) (fun _ => Unenclosed source) (program (.start source)) :=
  ends_grow (fun stmts _ => ends_programTurn stmts) (unenclosed_start source)

end Parser

/-- If an error of parsing a program names a closing parenthesis, it has no partner in the text. If
it names an opening one, it has none either, or there is an expression behind it and then a token
that is out of place.

The alternative for an opening parenthesis cannot be left out, as `unclosedParenthesis_of_closed`
shows. -/
theorem bornOut_of_parseProgram {source : String} {span : Span} {opening : Bool}
    (h : parseProgram source = .error (.form span (.unclosedParenthesis opening))) :
    BornOut source span opening := by
  rw [parseProgram, runOn] at h
  cases hprogram : program (.start source) with
  | ok stmts st' =>
    rw [hprogram] at h
    cases h
  | error d st' =>
    rw [hprogram] at h
    exact (ends_program source).of_error hprogram span opening (Except.error.inj h)

/-- The error, if there is one. It lets a run that fails be compared by evaluation, where the type
of the value has no decidable equality. -/
def errorOf? {ε α : Type} : Except ε α → Option ε
  | .error e => some e
  | .ok _ => none

theorem eq_error_of_errorOf? {ε α : Type} {r : Except ε α} {e : ε} (h : errorOf? r = some e) :
    r = .error e := by
  cases r with
  | error e' => exact congrArg _ (Option.some.inj h)
  | ok a => cases h

/-- One that was never opened, one that is never closed, and one with a token out of place behind
it. -/
theorem bornOut_of_parseProgram_cases :
    BornOut "x = (1))" ⟨7, 8⟩ false ∧ BornOut "y = ((1)\n + 2" ⟨4, 5⟩ true ∧
      BornOut "x = (1 2)" ⟨4, 5⟩ true := by
  refine ⟨?_, ?_, ?_⟩
  · exact bornOut_of_parseProgram (eq_error_of_errorOf? (by decide +kernel))
  · exact bornOut_of_parseProgram (eq_error_of_errorOf? (by decide +kernel))
  · exact bornOut_of_parseProgram (eq_error_of_errorOf? (by decide +kernel))

/-- The last of these parentheses is called unclosed, and it is closed. Behind the `1` a closing
parenthesis was wanted and the `2` is met; the complaint is then about the opening one, wherever its
partner is. -/
theorem unclosedParenthesis_of_closed :
    parseProgram "x = (1 2)" = .error (.form ⟨4, 5⟩ (.unclosedParenthesis true)) ∧
      ∃ before opening inner closing after,
        Token.scan "x = (1 2)" = before ++ opening :: (inner ++ closing :: after) ∧
          opening.kind = .openParen ∧ opening.span = ⟨4, 5⟩ ∧ Balanced inner ∧
          closing.kind = .closeParen ∧ closing.span = ⟨8, 9⟩ := by
  refine ⟨eq_error_of_errorOf? (by decide +kernel), ?_⟩
  have hscan : Token.scan "x = (1 2)" =
      [⟨.name, "x", ⟨0, 1⟩⟩, ⟨.whitespace, " ", ⟨1, 2⟩⟩, ⟨.assign, "=", ⟨2, 3⟩⟩,
        ⟨.whitespace, " ", ⟨3, 4⟩⟩] ++ ⟨.openParen, "(", ⟨4, 5⟩⟩ ::
      ([⟨.int, "1", ⟨5, 6⟩⟩, ⟨.whitespace, " ", ⟨6, 7⟩⟩, ⟨.int, "2", ⟨7, 8⟩⟩] ++
        ⟨.closeParen, ")", ⟨8, 9⟩⟩ :: []) := by
    decide +kernel
  exact ⟨_, _, _, _, _, hscan, rfl, rfl, .of_forall (by decide), rfl, rfl⟩

end ThreeAddress
