import ThreeAddress.Proofs.Completeness
import ThreeAddress.Proofs.Scanning
import ThreeAddress.Proofs.Statements

/-!
# Parsing undoes printing

A canonical expression that is written out is cut into the tokens that it stands for, but for their
places, and with blanks in between. So it is read again as it was, and so is a program, line by
line.

What stands behind a word decides where the word ends. In what is printed it is a blank, a closing
parenthesis, the end of the line or the end of the text, and no word goes on with these
(`EndsWord`).

Other texts than the printed one are read as the same expression (`Expr.ReadFrom`), such as those
without blanks around an operator. What is said of texts here is said of all of them as far as it
goes, and then of the printed one.

The way from a text to the statement it stands for has three steps, and so has the proof. The
scanner cuts the text into tokens (`Expr.CutsTo`); the parser passes those of them that count
(`Spells`); and of these an expression is read because they are what it yields (`expr_of_yields`).
Only the first step is about characters, and only the last about precedences.

Places are lost in printing, and come back different. So everything is up to them (`bare`), and the
properties of expressions that are needed are shown not to depend on them.
-/

set_option autoImplicit false

namespace ThreeAddress

open ThreeAddress.ParserState ThreeAddress.Parser

/-! ## Tokens of a text

What a parser gets to read depends on its state, since line ends count outside of parentheses.
`Spells` is for tokens that are read alike in every state, as it is with what is printed: no line
end is printed within a statement. -/

/-- In a list of tokens those that a parser gets to read are `ts`, wherever the list comes next. The
tail is kept, so that pieces can be put behind each other; the parentheses that are open are the
same afterwards, so that the next piece may count on them. -/
def Spells (raw ts : List Token) : Prop :=
  ∀ (st : ParserState) (tail : List Token), st.cursor.after = raw ++ tail →
    ∃ st', Consumes st ts st' ∧ st'.cursor.after = tail ∧ st'.openParens = st.openParens

/-! A single token at the front, in the two cases that it counts and that it does not. In the second
nothing has been read yet, and reading goes on as it would have from the place behind it. -/

theorem next_of_loud {st : ParserState} {token : Token} {tail : List Token}
    (hafter : st.cursor.after = token :: tail) (hloud : st.isQuiet token = false) :
    ∃ st', next st = .ok token st' ∧ st'.cursor.after = tail ∧ st'.openParens = st.openParens := by
  refine ⟨{ st with cursor := ⟨token :: st.cursor.before, tail⟩ }, ?_, rfl, rfl⟩
  rw [next, skip_eq, hafter, List.takeWhile_cons_of_neg (by simp [hloud]),
    List.dropWhile_cons_of_neg (by simp [hloud])]
  rfl

theorem next_of_quiet {st : ParserState} {token : Token} {tail : List Token}
    (hafter : st.cursor.after = token :: tail) (hquiet : st.isQuiet token) :
    ∃ st', next st = next st' ∧ st'.cursor.after = tail ∧ st'.openParens = st.openParens := by
  refine ⟨{ st with cursor := ⟨token :: st.cursor.before, tail⟩ }, ?_, rfl, rfl⟩
  have hsame : (ParserState.mk ⟨token :: st.cursor.before, tail⟩ st.nesting st.openParens).isQuiet =
      st.isQuiet := rfl
  rw [next, next, skip_eq, skip_eq, hafter, hsame, List.takeWhile_cons_of_pos hquiet,
    List.dropWhile_cons_of_pos hquiet, List.reverse_cons, List.append_assoc]
  rfl

namespace Spells

variable {raw raw' ts ts' : List Token} {token opening closing : Token}

theorem append (h : Spells raw ts) (h' : Spells raw' ts') : Spells (raw ++ raw') (ts ++ ts') := by
  intro st tail hafter
  obtain ⟨st₁, hconsumes, hafter₁, hopen₁⟩ := h st (raw' ++ tail) (by simpa using hafter)
  obtain ⟨st₂, hconsumes', hafter₂, hopen₂⟩ := h' st₁ tail hafter₁
  exact ⟨st₂, hconsumes.trans hconsumes', hafter₂, hopen₂.trans hopen₁⟩

/-- A token that counts everywhere. It is none that is ever skipped, and it opens and closes no
parenthesis. -/
theorem single (hwhite : token.kind ≠ .whitespace) (hline : token.kind ≠ .newLine)
    (hcounting : ∀ st : ParserState, st.counting token = st) : Spells [token] [token] := by
  intro st tail hafter
  obtain ⟨st', hnext, hafter', hopen⟩ := next_of_loud hafter (by simp [isQuiet, hwhite, hline])
  refine ⟨st', .cons hnext ?_, hafter', hopen⟩
  rw [hcounting]
  exact .nil st'

/-- A blank in front of tokens is skipped, if there are any to be read: otherwise it would be left
for the next piece. -/
theorem blank (hkind : token.kind = .whitespace) (h : Spells raw ts) (hne : ts ≠ []) :
    Spells (token :: raw) ts := by
  intro st tail hafter
  obtain ⟨st₁, hskip, hafter₁, hopen₁⟩ := next_of_quiet hafter (by simp [isQuiet, hkind])
  obtain ⟨st', hconsumes, hafter', hopen⟩ := h st₁ tail hafter₁
  refine ⟨st', ?_, hafter', hopen.trans hopen₁⟩
  cases hconsumes with
  | nil => exact (hne rfl).elim
  | cons hnext hrest => exact .cons (hskip.trans hnext) hrest

/-- Parentheses around tokens. What is within is read with one more open, which is no matter, as
`Spells` is for any state. -/
theorem parens (hopen : opening.kind = .openParen) (h : Spells raw ts)
    (hclose : closing.kind = .closeParen) :
    Spells (opening :: raw ++ [closing]) (opening :: ts ++ [closing]) := by
  intro st tail hafter
  obtain ⟨st₁, hopening, hafter₁, hopen₁⟩ := next_of_loud hafter (by simp [isQuiet, hopen])
  obtain ⟨st₂, hconsumes, hafter₂, hopen₂⟩ :=
    h (st₁.counting opening) (closing :: tail) (hafter₁.trans (by simp))
  obtain ⟨st₃, hclosing, hafter₃, hopen₃⟩ := next_of_loud hafter₂ (by simp [isQuiet, hclose])
  refine ⟨st₃.counting closing, .cons hopening (hconsumes.trans (.cons hclosing (.nil _))),
    hafter₃, ?_⟩
  show closing.depthAfter st₃.openParens = st.openParens
  have hinside : (st₁.counting opening).openParens = st.openParens + 1 := by
    show opening.depthAfter st₁.openParens = _
    rw [Token.depthAfter_of_openParen hopen, hopen₁]
  rw [Token.depthAfter_of_closeParen hclose, hopen₃, hopen₂, hinside, Nat.add_sub_cancel]

end Spells

/-! ## Operators

Where the symbol of an operator ends. The symbols of some operators begin with those of others (`*`
and `**`), so what stands behind decides; in what is printed it is a blank, and behind a sign it is
the beginning of an operand. -/

theorem BinOp.munch_symbol (op : BinOp) (rest : List Char) :
    ∃ c word, op.symbol.toList = c :: word ∧ isBlank c = false ∧
      TokenKind.munch c (word ++ ' ' :: rest) = (op.kind, word.length) := by
  cases op <;> exact ⟨_, _, rfl, rfl, rfl⟩

/-- A sign is cut off unless `=` stands behind it, which would make the sign of an augmented
assignment of the two. -/
theorem UnOp.munch_symbol (op : UnOp) {d : Char} (hd : d ≠ '=') (rest : List Char) :
    ∃ c, op.symbol.toList = [c] ∧ TokenKind.munch c (d :: rest) = (op.kind, 0) := by
  have hassign : ('=' == d) = false := by simpa using hd.symm
  cases op with
  | neg =>
    refine ⟨'-', rfl, ?_⟩
    simp [TokenKind.munch, TokenKind.spellings, isLineEnd, isBlank, isNameStart,
      List.isPrefixOf, hassign, UnOp.kind]
  | pos =>
    refine ⟨'+', rfl, ?_⟩
    simp [TokenKind.munch, TokenKind.spellings, isLineEnd, isBlank, isNameStart,
      List.isPrefixOf, hassign, UnOp.kind]

/-! ## Expressions up to places

`bare` puts the same place everywhere. That each property below is the same of `bare e` lets it be
carried from one expression to another that differs only in its places. -/

/-- The expression without its places. They are all set to the same one, so that equality of two
such expressions is equality up to places. -/
def Expr.bare : Expr → Expr
  | literal value _ => literal value (.point 0)
  | paren inner _ => paren inner.bare (.point 0)
  | unary op _ operand _ => unary op (.point 0) operand.bare (.point 0)
  | binary op _ lhs rhs _ => binary op (.point 0) lhs.bare rhs.bare (.point 0)

namespace Expr

variable {e e' : Expr}

theorem fitsLeft_bare {op : BinOp} : e.bare.FitsLeft op ↔ e.FitsLeft op := by
  cases e <;> rfl

theorem fitsRight_bare {op : BinOp} : e.bare.FitsRight op ↔ e.FitsRight op := by
  cases e <;> rfl

theorem fitsSign_bare : e.bare.FitsSign ↔ e.FitsSign := by
  cases e <;> rfl

theorem canonical_bare : e.bare.Canonical ↔ e.Canonical := by
  induction e with
  | literal value span => rfl
  | paren inner span ih => exact ih
  | unary op opSpan operand span ih =>
    simp only [bare, Canonical, fitsSign_bare, ih]
  | binary op opSpan lhs rhs span ihl ihr =>
    simp only [bare, Canonical, fitsLeft_bare, fitsRight_bare, ihl, ihr]

theorem nesting_bare : e.bare.nesting = e.nesting := by
  induction e with
  | literal value span => rfl
  | paren inner span ih => simp only [bare, nesting, ih]
  | unary op opSpan operand span ih => simp only [bare, nesting, ih]
  | binary op opSpan lhs rhs span ihl ihr => simp only [bare, nesting, ihl, ihr]

theorem height_bare : e.bare.height = e.height := by
  induction e with
  | literal value span => simp only [bare, height_literal]
  | paren inner span ih => simp only [bare, height_paren, ih]
  | unary op opSpan operand span ih => simp only [bare, height_unary, ih]
  | binary op opSpan lhs rhs span ihl ihr => simp only [bare, height_binary, ihl, ihr]

end Expr

/-! ## Expressions

By induction on the expression, its text is cut into tokens that it yields. The blanks in the text
are tokens too, and are left out by `Spells`. -/

/-- The literal is written as one token, from which it is read again.

A negative integer is not, as its sign would be a token of its own. For a float this is a condition
on its text: that it is one token, and that the float nearest to it is the one written. -/
def Literal.Prints : Literal → Prop
  | int n => 0 ≤ n.toInt
  | float x => ∃ token, Token.scan (Number.floatText x) = [token] ∧ token.kind = .float ∧
    token.literal = .ok (.float x)
  | name text => IsName text.toList

/-- All literals in the expression are so written. -/
def Expr.Prints : Expr → Prop
  | literal value _ => value.Prints
  | paren inner _ => inner.Prints
  | unary _ _ operand _ => operand.Prints
  | binary _ _ lhs rhs _ => lhs.Prints ∧ rhs.Prints

/-- The text has a first character, and neither a sign nor a blank before it takes that in. A sign
in front would take in `=` only, and a blank only another blank. -/
def BeginsOperand (cs : List Char) : Prop :=
  ∃ c rest, cs = c :: rest ∧ c ≠ '=' ∧ isBlank c = false

/-- The digits of a number are one word, and its value is the number again. The scanner is asked for
the longest word, and behind the last digit stands something that does not go on with it. -/
theorem munch_intText {n : Int64} (hn : 0 ≤ n.toInt) {rest : List Char} (hrest : EndsWord rest) :
    ∃ c word, (Number.intText n).toList = c :: word ∧ c.isDigit ∧
      TokenKind.munch c (word ++ rest) = (.int, word.length) ∧
      n.toInt = Token.digitsValue (c :: word) := by
  obtain ⟨k, hk⟩ := Int.eq_ofNat_of_zero_le hn
  have htext : (Number.intText n).toList = Nat.toDigits 10 k := by
    rw [Number.intText, hk]
    exact Nat.toList_repr
  have hdigits : ∀ d ∈ Nat.toDigits 10 k, d.isDigit := by
    intro d hd
    exact Nat.isDigit_of_mem_toDigits (by decide) (by decide) hd
  have hvalue : Token.digitsValue (Nat.toDigits 10 k) = k :=
    Nat.ofDigitChars_toDigits (by decide) (by decide)
  cases hcs : Nat.toDigits 10 k with
  | nil => exact (Nat.toDigits_ne_nil hcs).elim
  | cons c word =>
    rw [hcs] at hdigits hvalue htext
    refine ⟨c, word, htext, hdigits c List.mem_cons_self, ?_, ?_⟩
    · exact TokenKind.munch_int (hdigits c List.mem_cons_self)
        (fun d hd => hdigits d (List.mem_cons_of_mem c hd)) hrest
    · rw [hk, hvalue]

/-- In front of what ends a word, the text is cut into one token, which is that of the literal. A
case for each kind of literal; they come together in what `IsToken` asks of a token. -/
theorem Literal.Prints.munch {value : Literal} (h : value.Prints) {rest : List Char}
    (hrest : EndsWord rest) : ∃ c word kind, value.text.toList = c :: word ∧
      (c ≠ '=' ∧ isBlank c = false) ∧ TokenKind.munch c (word ++ rest) = (kind, word.length) ∧
      ∀ token : Token, token.kind = kind → token.lexeme = String.ofList (c :: word) →
        value.IsToken token := by
  cases value with
  | int n =>
    obtain ⟨c, word, hcs, hdigit, hmunch, hvalue⟩ := munch_intText h hrest
    refine ⟨c, word, .int, hcs, ⟨ne_of_isDigit hdigit rfl, isBlank_of_isDigit hdigit⟩, hmunch,
      ?_⟩
    intro token hkind hlexeme
    refine ⟨hkind, ?_⟩
    rw [hvalue, hlexeme, String.toList_ofList]
  | float x =>
    -- that the float reads back is known of its text alone, and has to be carried to the longer
    -- text
    obtain ⟨token, hscan, hkind, hliteral⟩ := h
    obtain ⟨c, word, hcs, hfirst, hmunch, hlexeme⟩ := Token.munch_of_scan_float hscan hkind hrest
    obtain ⟨-, hvalue⟩ := Token.literal_ok_iff.mp hliteral
    rw [hlexeme] at hvalue
    refine ⟨c, word, .float, hcs, ?_, hmunch, ?_⟩
    · rcases hfirst with hdigit | rfl
      · exact ⟨ne_of_isDigit hdigit rfl, isBlank_of_isDigit hdigit⟩
      · decide
    · intro token hkind hlexeme
      exact ⟨hkind, by rwa [hlexeme]⟩
  | name text =>
    cases hcs : text.toList with
    | nil =>
      rw [Literal.Prints, hcs] at h
      exact h.elim
    | cons c word =>
      rw [Literal.Prints, hcs] at h
      have hassign : c ≠ '=' := by
        rintro rfl
        exact absurd h.1 (by decide)
      refine ⟨c, word, .name, hcs, ⟨hassign, isBlank_of_isNameStart h.1⟩,
        TokenKind.munch_name h.1 h.2 hrest, ?_⟩
      intro token hkind hlexeme
      refine ⟨hkind, ?_⟩
      rw [hlexeme, ← hcs, String.ofList_toList]

theorem Literal.Prints.beginsOperand {value : Literal} (h : value.Prints) :
    BeginsOperand value.text.toList := by
  obtain ⟨c, word, kind, hcs, ⟨hassign, hblank⟩, -⟩ := h.munch endsWord_nil
  exact ⟨c, word, hcs, hassign, hblank⟩

theorem Expr.Prints.beginsOperand {e : Expr} (h : e.Prints) : BeginsOperand e.text.toList := by
  induction e with
  | literal value span => exact Literal.Prints.beginsOperand h
  | paren inner span ih =>
    refine ⟨'(', (inner.text ++ ")").toList, ?_, by decide, by decide⟩
    rw [Expr.text, String.append_assoc, String.toList_append]
    rfl
  | unary op opSpan operand span ih =>
    cases op with
    | neg => exact ⟨'-', operand.text.toList, String.toList_append, by decide, by decide⟩
    | pos => exact ⟨'+', operand.text.toList, String.toList_append, by decide, by decide⟩
  | binary op opSpan lhs rhs span ihl ihr =>
    obtain ⟨c, rest, hcs, hassign, hblank⟩ := ihl h.1
    refine ⟨c, rest ++ (" " ++ op.symbol ++ " " ++ rhs.text).toList, ?_, hassign, hblank⟩
    rw [← List.cons_append, ← hcs, ← String.toList_append, Expr.text]
    simp only [String.append_assoc]

/-- In front of what ends a word, the text is cut into tokens that the expression stands for, but
for the places.

`raw` are all tokens of the text and `ts` those that count. The expression `e'` is the one with the
places of this text, which is what will be read; it is determined by them, but no use is made of
that. -/
def Expr.CutsTo (e : Expr) (cs : List Char) : Prop :=
  ∀ rest offset, EndsWord rest → ∃ (raw ts : List Token) (e' : Expr) (stop : Nat),
    Token.scanFrom offset 0 (cs ++ rest) = raw ++ Token.scanFrom stop 0 rest ∧
      Spells raw ts ∧ e'.Yields ts ∧ e'.bare = e.bare

/-! Each token that an expression is made of counts in every state. -/

theorem spells_literal {value : Literal} {token : Token} (h : value.IsToken token) :
    Spells [token] [token] := by
  cases value <;>
    exact Spells.single (by simp [h.1]) (by simp [h.1]) (counting_of_literal h)

theorem spells_unaryOp {op : UnOp} {token : Token} (h : token.kind = op.kind) :
    Spells [token] [token] := by
  cases op <;>
    exact Spells.single (by simp [h, UnOp.kind]) (by simp [h, UnOp.kind]) (counting_of_unaryOp h)

theorem spells_binaryOp {op : BinOp} {token : Token} (h : token.kind = op.kind) :
    Spells [token] [token] := by
  cases op <;>
    exact Spells.single (by simp [h, BinOp.kind]) (by simp [h, BinOp.kind]) (counting_of_binaryOp h)

theorem cutsTo_literal {value : Literal} (h : value.Prints) (span : Span) :
    (Expr.literal value span).CutsTo value.text.toList := by
  intro rest offset hrest
  obtain ⟨c, word, kind, hcs, -, hmunch, htoken⟩ := h.munch hrest
  obtain ⟨token, stop, hscan, hkind, hlexeme⟩ := Token.scanFrom_word hmunch offset
  have hvalue : value.IsToken token := htoken token hkind hlexeme
  rw [hcs, List.cons_append, hscan]
  exact ⟨[token], [token], .literal value token.span, stop, rfl, spells_literal hvalue,
    .literal hvalue, rfl⟩

/-- The text within is in front of a closing parenthesis, which ends a word, so the hypothesis
applies there. -/
theorem cutsTo_paren {inner : Expr} {cs : List Char} (h : inner.CutsTo cs) (span : Span) :
    (Expr.paren inner span).CutsTo ('(' :: (cs ++ [')'])) := by
  intro rest offset hrest
  obtain ⟨opening, stop₁, hopening, hopen⟩ :=
    Token.scanFrom_mark (TokenKind.munch_openParen (cs ++ ')' :: rest)) offset
  obtain ⟨raw, ts, inner', stop₂, hinner, hspells, hyields, hbare⟩ :=
    h (')' :: rest) stop₁ (endsWord_cons (by decide) rest)
  obtain ⟨closing, stop₃, hclosing, hclose⟩ :=
    Token.scanFrom_mark (TokenKind.munch_closeParen rest) stop₂
  have htext : '(' :: (cs ++ [')']) ++ rest = '(' :: (cs ++ ')' :: rest) := by
    simp
  refine ⟨opening :: raw ++ [closing], opening :: ts ++ [closing], .paren inner' _, stop₃, ?_,
    hspells.parens hopen hclose, .paren hopen hyields hclose, ?_⟩
  · rw [htext, hopening, hinner, hclosing]
    simp
  · rw [Expr.bare, hbare, Expr.bare]

/-- A sign stands right in front of its operand. The operand does not begin with `=`, and so the
sign is cut off as it is. -/
theorem cutsTo_unary {operand : Expr} (h : operand.CutsTo operand.text.toList)
    (hprints : operand.Prints) (op : UnOp) (opSpan span : Span) :
    (Expr.unary op opSpan operand span).CutsTo (Expr.unary op opSpan operand span).text.toList := by
  intro rest offset hrest
  obtain ⟨d, after, hd, hassign, -⟩ := hprints.beginsOperand
  obtain ⟨c, hsymbol, hmunch⟩ := op.munch_symbol hassign (after ++ rest)
  rw [← List.cons_append, ← hd] at hmunch
  obtain ⟨sign, stop₁, hsign, hkind⟩ := Token.scanFrom_mark hmunch offset
  obtain ⟨raw, ts, operand', stop₂, hoperand, hspells, hyields, hbare⟩ := h rest stop₁ hrest
  have htext : (Expr.unary op opSpan operand span).text.toList ++ rest =
      c :: (operand.text.toList ++ rest) := by
    simp [Expr.text, hsymbol]
  refine ⟨sign :: raw, sign :: ts, .unary op sign.span operand' _, stop₂, ?_,
    (spells_unaryOp hkind).append hspells, .unary hkind hyields, ?_⟩
  · rw [htext, hsign, hoperand, List.cons_append]
  · rw [Expr.bare, hbare, Expr.bare]

/-- An operator with a blank to either side. The five pieces are cut one after the other, each in
front of the text of those behind it. -/
theorem cutsTo_binary {lhs rhs : Expr} {cs ds : List Char} (hl : lhs.CutsTo cs)
    (hr : rhs.CutsTo ds) (hbegins : BeginsOperand ds) (op : BinOp) (opSpan span : Span) :
    (Expr.binary op opSpan lhs rhs span).CutsTo
      (cs ++ ' ' :: (op.symbol.toList ++ ' ' :: ds)) := by
  intro rest offset hrest
  obtain ⟨d, after, hd, -, hblank⟩ := hbegins
  obtain ⟨c, word, hsymbol, hblank', hmunch⟩ := op.munch_symbol (ds ++ rest)
  obtain ⟨raw, ts, lhs', stop₁, hlhs, hspells, hyields, hbare⟩ :=
    hl (' ' :: (c :: (word ++ ' ' :: (ds ++ rest)))) offset (endsWord_cons (by decide) _)
  obtain ⟨blank₁, stop₂, hblank₁, hwhite₁⟩ :=
    Token.scanFrom_mark (TokenKind.munch_blank hblank' (word ++ ' ' :: (ds ++ rest))) stop₁
  obtain ⟨token, stop₃, hop, hkind, -⟩ := Token.scanFrom_word hmunch stop₂
  obtain ⟨blank₂, stop₄, hblank₂, hwhite₂⟩ :=
    Token.scanFrom_mark (TokenKind.munch_blank hblank (after ++ rest)) stop₃
  rw [← List.cons_append, ← hd] at hblank₂
  obtain ⟨raw', ts', rhs', stop₅, hrhs, hspells', hyields', hbare'⟩ := hr rest stop₄ hrest
  -- the text is written as the pieces are cut, each in front of the rest
  have htext : cs ++ ' ' :: (op.symbol.toList ++ ' ' :: ds) ++ rest =
      cs ++ ' ' :: (c :: (word ++ ' ' :: (ds ++ rest))) := by
    simp [hsymbol]
  have hspelled : Spells (blank₁ :: token :: blank₂ :: raw') (token :: ts') :=
    .blank hwhite₁ ((spells_binaryOp hkind).append (hspells'.blank hwhite₂ hyields'.ne_nil))
      (List.cons_ne_nil _ _)
  refine ⟨raw ++ blank₁ :: token :: blank₂ :: raw', ts ++ token :: ts',
    .binary op token.span lhs' rhs' _, stop₅, ?_, hspells.append hspelled,
    .binary hyields hkind hyields', ?_⟩
  · rw [htext, hlhs, hblank₁, hop, hblank₂, hrhs]
    simp
  · rw [Expr.bare, hbare, hbare', Expr.bare]

/-- In front of the text, the symbol of the operator is a token of its own, and no word goes on with
it.

The second part is for the word before: a name or a number goes on with a letter, a digit or a
point, so that without a blank the symbol has to begin with something else. -/
def BinOp.CutOff (op : BinOp) (ds : List Char) : Prop :=
  ∀ rest, ∃ c word, op.symbol.toList = c :: word ∧ (isNameRest c = false ∧ c ≠ '.') ∧
    TokenKind.munch c (word ++ (ds ++ rest)) = (op.kind, word.length)

/-- An operator without blanks around it. -/
theorem cutsTo_tight {op : BinOp} {lhs rhs : Expr} {cs ds : List Char} (hl : lhs.CutsTo cs)
    (hr : rhs.CutsTo ds) (hop : op.CutOff ds) (opSpan span : Span) :
    (Expr.binary op opSpan lhs rhs span).CutsTo (cs ++ (op.symbol.toList ++ ds)) := by
  intro rest offset hrest
  obtain ⟨c, word, hsymbol, hends, hmunch⟩ := hop rest
  obtain ⟨raw, ts, lhs', stop₁, hlhs, hspells, hyields, hbare⟩ :=
    hl (c :: (word ++ (ds ++ rest))) offset (endsWord_cons hends _)
  obtain ⟨token, stop₂, htoken, hkind, -⟩ := Token.scanFrom_word hmunch stop₁
  obtain ⟨raw', ts', rhs', stop₃, hrhs, hspells', hyields', hbare'⟩ := hr rest stop₂ hrest
  have htext : cs ++ (op.symbol.toList ++ ds) ++ rest = cs ++ c :: (word ++ (ds ++ rest)) := by
    simp [hsymbol]
  refine ⟨raw ++ token :: raw', ts ++ token :: ts', .binary op token.span lhs' rhs' _, stop₃, ?_,
    hspells.append ((spells_binaryOp hkind).append hspells'), .binary hyields hkind hyields', ?_⟩
  · rw [htext, hlhs, htoken, hrhs]
    simp
  · rw [Expr.bare, hbare, hbare', Expr.bare]

/-- The printed text of any expression with printable literals. Whether it is canonical does not
matter to how it is cut, only to what is read from the tokens. -/
theorem Expr.Prints.cutsTo {e : Expr} (h : e.Prints) : e.CutsTo e.text.toList := by
  induction e with
  | literal value span => exact cutsTo_literal h span
  | paren inner span ih =>
    have htext : (Expr.paren inner span).text.toList = '(' :: (inner.text.toList ++ [')']) := by
      simp [Expr.text]
    exact htext ▸ cutsTo_paren (ih h) span
  | unary op opSpan operand span ih => exact cutsTo_unary (ih h) h op opSpan span
  | binary op opSpan lhs rhs span ihl ihr =>
    have htext : (Expr.binary op opSpan lhs rhs span).text.toList =
        lhs.text.toList ++ ' ' :: (op.symbol.toList ++ ' ' :: rhs.text.toList) := by
      simp [Expr.text]
    exact htext ▸ cutsTo_binary (ihl h.1) (ihr h.2) h.2.beginsOperand op opSpan span

/-! ## Statements

An assignment is read from its text if its value is. Unsupported statements have no text to be read
from, as their parts are not kept. -/

/-- The statement without its places. -/
def Stmt.bare : Stmt → Stmt
  | assign target value _ => assign ⟨target.name, .point 0⟩ value.bare (.point 0)
  | unsupported kind _ => unsupported kind (.point 0)

/-- An expression that is read again from its text: no parentheses are missing, and the parser does
not run into a limit. -/
structure Expr.Readable (e : Expr) : Prop where
  prints : e.Prints
  canonical : e.Canonical
  nesting_le : e.nesting ≤ nestingLimit
  height_le : e.height ≤ heightLimit

/-- The expression is read from this text. It says of any text what `Readable` implies of the
printed one, so that other ways to write the same expression are covered as well. -/
structure Expr.ReadFrom (e : Expr) (cs : List Char) : Prop where
  cuts : e.CutsTo cs
  begins : BeginsOperand cs
  canonical : e.Canonical
  nesting_le : e.nesting ≤ nestingLimit
  height_le : e.height ≤ heightLimit

theorem Expr.Readable.readFrom {e : Expr} (h : e.Readable) : e.ReadFrom e.text.toList :=
  ⟨h.prints.cutsTo, h.prints.beginsOperand, h.canonical, h.nesting_le, h.height_le⟩

/-- A statement that is read again from its text. An unsupported one is not: what is printed of it
is not a program. -/
def Stmt.Readable : Stmt → Prop
  | assign target value _ => IsName target.name.toList ∧ value.Readable
  | unsupported _ _ => False

variable {st st' : ParserState} {cs rest : List Char} {target : Ident} {value : Expr}

/-- The text of an assignment, where `cs` is that of its value. -/
def assignText (target : Ident) (cs : List Char) : List Char :=
  target.name.toList ++ ' ' :: '=' :: ' ' :: cs

theorem toList_text_assign (target : Ident) (value : Expr) (span : Span) :
    (Stmt.assign target value span).text.toList = assignText target value.text.toList := by
  simp [Stmt.text, assignText]

/-- An assignment is cut into its name, `=` and the tokens of its value. The blanks around `=` are
skipped, and the second of them is in front of a token of the value, of which there is one. -/
theorem scanFrom_assign (hname : IsName target.name.toList) (hvalue : value.ReadFrom cs)
    (hrest : EndsWord rest) (offset : Nat) :
    ∃ (name blank sign : Token) (raw ts : List Token) (value' : Expr) (stop : Nat),
      Token.scanFrom offset 0 (assignText target cs ++ rest) =
        name :: blank :: sign :: raw ++ Token.scanFrom stop 0 rest ∧
      name.kind = .name ∧ name.lexeme = target.name ∧ blank.kind = .whitespace ∧
      sign.kind = .assign ∧ Spells (name :: blank :: sign :: raw) (name :: sign :: ts) ∧
      value'.Yields ts ∧ value'.bare = value.bare := by
  obtain ⟨d, after, hd, -, hblank⟩ := hvalue.begins
  obtain ⟨name, stop₁, hscan₁, hkind, hlexeme⟩ :=
    Token.scanFrom_name hname
      (endsWord_cons (c := ' ') (by decide) ('=' :: ' ' :: (cs ++ rest))) offset
  obtain ⟨blank₁, stop₂, hscan₂, hwhite₁⟩ :=
    Token.scanFrom_mark
      (TokenKind.munch_blank (c := '=') rfl (' ' :: (cs ++ rest))) stop₁
  obtain ⟨sign, stop₃, hscan₃, hassign⟩ :=
    Token.scanFrom_mark (TokenKind.munch_assign (cs ++ rest)) stop₂
  obtain ⟨blank₂, stop₄, hscan₄, hwhite₂⟩ :=
    Token.scanFrom_mark (TokenKind.munch_blank hblank (after ++ rest)) stop₃
  rw [← List.cons_append, ← hd] at hscan₄
  obtain ⟨raw, ts, value', stop₅, hscan₅, hspells, hyields, hbare⟩ :=
    hvalue.cuts rest stop₄ hrest
  -- of the five tokens the two blanks are quiet, and count for nothing in what is spelled
  have hname' : Spells [name] [name] :=
    .single (by simp [hkind]) (by simp [hkind])
      (counting_eq_self (by simp [hkind]) (by simp [hkind]))
  have hsign : Spells [sign] [sign] :=
    .single (by simp [hassign]) (by simp [hassign])
      (counting_eq_self (by simp [hassign]) (by simp [hassign]))
  refine ⟨name, blank₁, sign, blank₂ :: raw, ts, value', stop₅, ?_, hkind, ?_, hwhite₁, hassign,
    ?_, hyields, hbare⟩
  · have htext : assignText target cs ++ rest =
        target.name.toList ++ ' ' :: '=' :: ' ' :: (cs ++ rest) := by
      simp [assignText]
    rw [htext, hscan₁, hscan₂, hscan₃, hscan₄, hscan₅]
    rfl
  · rw [hlexeme, String.ofList_toList]
  · exact hname'.append (.blank hwhite₁
      (hsign.append (hspells.blank hwhite₂ hyields.ne_nil)) (List.cons_ne_nil _ _))

/-- The line ends in front of the text, or the whole text does. -/
def EndsLine (rest : List Char) : Prop := rest = [] ∨ ∃ next, rest = '\n' :: next

theorem EndsLine.endsWord (h : EndsLine rest) : EndsWord rest := by
  obtain rfl | ⟨next, rfl⟩ := h
  · exact endsWord_nil
  · exact endsWord_cons (by decide) next

/-- Outside of parentheses nothing comes next at the end of a line but that. So neither an operator
nor another `=` follows, and the statement is at its end. -/
theorem EndsLine.kind_ahead (h : EndsLine rest) {stop : Nat} (hopen : st.openParens = 0)
    (hafter : st.cursor.after = Token.scanFrom stop 0 rest) {token : Token}
    (hahead : st.ahead = some token) : token.kind = .newLine := by
  rw [ahead, hafter] at hahead
  obtain rfl | ⟨next, rfl⟩ := h
  · cases hahead
  · have hloud : ∀ t : Token, t.kind = .newLine → st.isQuiet t = false := by
      intro t ht
      simp [isQuiet, ht, hopen]
    rw [Token.scanFrom, List.find?_cons_of_pos (by rw [hloud _ rfl]; rfl)] at hahead
    rw [← Option.some.inj hahead]
    rfl

theorem aheadOp_eq_none (h : ∀ token, st.ahead = some token → token.kind = .newLine) :
    st.aheadOp = none := by
  rw [aheadOp]
  cases hahead : st.ahead with
  | none => rfl
  | some token => simp [Token.binaryOp, h token hahead, Except.toOption]

/-- An assignment is read from its text. Besides the statement, this says what it looks like from
outside: that a name comes first, for the separators in front of it, and that the parser stands at
the end of the line. -/
theorem statement_of_text (hname : IsName target.name.toList) (hvalue : value.ReadFrom cs)
    (hrest : EndsLine rest) {offset : Nat}
    (hafter : st.cursor.after = Token.scanFrom offset 0 (assignText target cs ++ rest))
    (hnesting : st.nesting = 0) (hopen : st.openParens = 0) :
    ∃ stmt st' stop, (∃ token, st.ahead = some token ∧ token.kind = .name) ∧
      statement st = .ok stmt st' ∧ stmt.bare = (Stmt.assign target value (.point 0)).bare ∧
      (∀ value, stmt.value? = some value → value.height ≤ heightLimit) ∧
      st'.cursor.after = Token.scanFrom stop 0 rest ∧ st'.openParens = 0 ∧ st'.nesting = 0 := by
  obtain ⟨name, blank, sign, raw, ts, value', stop, hscan, hkind, hlexeme, hwhite, hassign,
    hspells, hyields, hbare⟩ := scanFrom_assign hname hvalue hrest.endsWord offset
  rw [hscan] at hafter
  obtain ⟨st', hconsumes, hafter', hopen'⟩ := hspells st _ hafter
  rw [hopen] at hopen'
  have hline : ∀ token, st'.ahead = some token → token.kind = .newLine := by
    intro token hahead
    exact hrest.kind_ahead hopen' hafter' hahead
  have hnesting' : st'.nesting = 0 := hconsumes.nesting_eq.trans hnesting
  -- the limits are those of the expression that was printed, as they do not depend on places
  have hheight : value'.height ≤ heightLimit := by
    rw [← Expr.height_bare, hbare, Expr.height_bare]
    exact hvalue.height_le
  cases hconsumes with
  | @cons _ st₁ _ _ _ hnext hrest₁ =>
    rw [counting_eq_self (by simp [hkind]) (by simp [hkind])] at hrest₁
    cases hrest₁ with
    | @cons _ st₂ _ _ _ hnext' hrest₂ =>
      rw [counting_eq_self (by simp [hassign]) (by simp [hassign])] at hrest₂
      have hexpr : Parser.expr st₂ = .ok value' st' := by
        refine expr_of_yields hrest₂ hyields ?_ (aheadOp_eq_none hline) ?_ hheight
        · rw [← Expr.canonical_bare, hbare, Expr.canonical_bare]
          exact hvalue.canonical
        · rw [← hrest₂.nesting_eq, hnesting', Nat.zero_add, ← Expr.nesting_bare, hbare,
            Expr.nesting_bare]
          exact hvalue.nesting_le
      have hupcoming : [.name, .assign].isPrefixOf (st.upcoming.map (·.kind)) := by
        simp [upcoming, hafter, isQuiet, hkind, hwhite, hassign, hopen]
      have hassignment := assignment_ok_iff.mpr
        ⟨name, st₁, sign, st₂, value', hnext, hkind, hnext', hassign, hexpr, rfl⟩
      refine ⟨_, st', stop, ⟨name, ahead_of_next hnext, hkind⟩,
        statement_of_assignment hupcoming hassignment ?_, ?_, ?_, hafter', hopen', hnesting'⟩
      · intro hahead
        obtain ⟨token, htoken, hkind⟩ := Option.map_eq_some_iff.mp hahead
        rw [hline token htoken] at hkind
        cases hkind
      · rw [Stmt.bare, hbare, hlexeme, Stmt.bare]
      · rintro _ ⟨⟩
        exact hheight

/-! ## Programs

Lines are put together by induction on the statements. Each ends in front of a line end, which is
both what ends its last word and the separator that has to follow. -/

/-- The text of a program: its statements, each on a line of its own. -/
def programText (stmts : List Stmt) : String := "\n".intercalate (stmts.map Stmt.text)

/-- What stands behind a statement in the text of a program: nothing, or a line end and the text of
the rest. -/
def linesAfter : List Stmt → List Char
  | [] => []
  | stmt :: rest => '\n' :: (programText (stmt :: rest)).toList

theorem endsLine_linesAfter (stmts : List Stmt) : EndsLine (linesAfter stmts) := by
  cases stmts with
  | nil => exact .inl rfl
  | cons stmt rest => exact .inr ⟨_, rfl⟩

/-- The text of a program, line by line. The equation is stated with `linesAfter` so that a first
statement is always followed by something that ends a line. -/
theorem toList_programText_cons (stmt : Stmt) (rest : List Stmt) :
    (programText (stmt :: rest)).toList = stmt.text.toList ++ linesAfter rest := by
  cases rest with
  | nil => simp [programText, linesAfter]
  | cons next rest =>
    rw [programText, List.map_cons, List.map_cons, String.intercalate_cons_cons, linesAfter,
      programText, List.map_cons]
    simp

/-- The text of a statement begins with a letter, which is what a line end in front of it must be
told apart from. -/
theorem Stmt.Readable.exists_name {stmt : Stmt} (h : stmt.Readable) :
    ∃ c rest, stmt.text.toList = c :: rest ∧ isNameStart c := by
  cases stmt with
  | unsupported kind span => exact h.elim
  | assign target value span =>
    obtain ⟨hname, -⟩ := h
    rw [toList_text_assign, assignText]
    cases hcs : target.name.toList with
    | nil =>
      rw [hcs] at hname
      exact hname.elim
    | cons c word =>
      rw [hcs] at hname
      exact ⟨c, _, List.cons_append, hname.1⟩

/-- A statement at the front is read by one turn, whatever ends it. How it ends is left open, since
that depends on whether another line follows. -/
theorem programTurn_of_text (done : List Stmt) (hname : IsName target.name.toList)
    (hvalue : value.ReadFrom cs) (hrest : EndsLine rest) {offset : Nat}
    (hafter : st.cursor.after = Token.scanFrom offset 0 (assignText target cs ++ rest))
    (hnesting : st.nesting = 0) (hopen : st.openParens = 0) :
    ∃ stmt st' stop, stmt.bare = (Stmt.assign target value (.point 0)).bare ∧
      st'.cursor.after = Token.scanFrom stop 0 rest ∧ st'.openParens = 0 ∧ st'.nesting = 0 ∧
      ∀ st'', endOfStatement st' = .ok () st'' →
        programTurn done st = .ok (some (done ++ [stmt])) st'' := by
  obtain ⟨stmt, st', stop, ⟨token, hahead, hkind⟩, hstatement, hbare, hheight, hafter', hopen',
    hnesting'⟩ := statement_of_text hname hvalue hrest hafter hnesting hopen
  refine ⟨stmt, st', stop, hbare, hafter', hopen', hnesting', ?_⟩
  intro st'' hend
  have hseparators := separators_of_ahead hahead (by rw [hkind]; rfl)
  exact programTurn_some_iff.mpr ⟨st, stmt, st', hseparators, by simp [hahead], hstatement,
    hheight, hend, rfl⟩

/-- A program ends with a turn that there is nothing behind. -/
theorem grow_of_last_turn {done : List Stmt} {stmt : Stmt} {stop : Nat}
    (hafter : st'.cursor.after = Token.scanFrom stop 0 [])
    (hturn : ∀ st'', endOfStatement st' = .ok () st'' →
      programTurn done st = .ok (some (done ++ [stmt])) st'') :
    ∃ st'', grow programTurn done st = .ok (done ++ [stmt]) st'' := by
  have hnone : st'.ahead = none := by
    rw [ahead, hafter]
    rfl
  obtain ⟨st'', hend, hleft⟩ := endOfStatement_of_none hnone
  refine ⟨st'', ?_⟩
  rw [grow_of_some consuming_programTurn (hturn st'' hend)]
  exact grow_of_none consuming_programTurn (consuming_programTurn.idle hleft)

/-- A program of one assignment is read from its text. The text need not be the printed one. -/
theorem parseProgram_of_text {source : String} (hsource : source.toList = assignText target cs)
    (hname : IsName target.name.toList) (hvalue : value.ReadFrom cs) :
    ∃ stmt, parseProgram source = .ok [stmt] ∧
      stmt.bare = (Stmt.assign target value (.point 0)).bare := by
  have hafter : (ParserState.start source).cursor.after =
      Token.scanFrom 0 0 (assignText target cs ++ []) := by
    rw [List.append_nil, ← hsource]
    rfl
  obtain ⟨stmt, st', stop, hbare, hafter', -, -, hturn⟩ :=
    programTurn_of_text [] hname hvalue (.inl rfl) hafter rfl rfl
  obtain ⟨st'', hgrow⟩ := grow_of_last_turn hafter' hturn
  exact ⟨stmt, runOn_ok_iff.mpr ⟨st'', hgrow⟩, hbare⟩

/-- A program is read from its text, line by line, behind the statements that have been read. The
induction is on the statements, for all places and all offsets. -/
theorem program_of_text (done : List Stmt) {stmts : List Stmt}
    (h : ∀ stmt ∈ stmts, stmt.Readable) {offset : Nat}
    (hafter : st.cursor.after = Token.scanFrom offset 0 (programText stmts).toList)
    (hnesting : st.nesting = 0) (hopen : st.openParens = 0) :
    ∃ more st', grow programTurn done st = .ok (done ++ more) st' ∧
      more.map Stmt.bare = stmts.map Stmt.bare := by
  induction stmts generalizing st done offset with
  | nil =>
    have hleft : st.remaining = 0 := by rw [remaining, hafter]; rfl
    refine ⟨[], st, ?_, rfl⟩
    rw [List.append_nil]
    exact grow_of_none consuming_programTurn (consuming_programTurn.idle hleft)
  | cons stmt rest ih =>
    rw [toList_programText_cons] at hafter
    have hstmt := h stmt List.mem_cons_self
    obtain ⟨target, value, span, rfl⟩ : ∃ target value span, stmt = .assign target value span := by
      cases stmt with
      | assign target value span => exact ⟨target, value, span, rfl⟩
      | unsupported kind span => exact hstmt.elim
    rw [toList_text_assign] at hafter
    obtain ⟨stmt', st₁, stop, hbare, hafter₁, hopen₁, hnesting₁, hturn⟩ :=
      programTurn_of_text done hstmt.1 hstmt.2.readFrom (endsLine_linesAfter rest) hafter
        hnesting hopen
    cases rest with
    | nil =>
      obtain ⟨st₂, hgrow⟩ := grow_of_last_turn hafter₁ hturn
      exact ⟨[stmt'], st₂, hgrow, by rw [List.map_singleton, hbare]; rfl⟩
    | cons next rest =>
      have hnext : next.Readable := h next (by simp)
      obtain ⟨c, word, hcs, hc⟩ := hnext.exists_name
      rw [linesAfter, toList_programText_cons, hcs, List.cons_append] at hafter₁
      -- the next line begins with a letter, so that the line end is a token of its own
      obtain ⟨lineEnd, stop', hscan, hkind⟩ :=
        Token.scanFrom_mark
          (TokenKind.munch_lineEnd (isLineEnd_of_isNameStart hc) (word ++ linesAfter rest)) stop
      rw [hscan] at hafter₁
      obtain ⟨st₂, hread, hafter₂, hopen₂⟩ :=
        next_of_loud hafter₁ (by simp [isQuiet, hkind, hopen₁])
      have hend := endOfStatement_of_separator hread (by rw [hkind]; rfl)
      rw [← List.cons_append, ← hcs, ← toList_programText_cons] at hafter₂
      obtain ⟨more, st', hgrow, hmore⟩ :=
        ih (done ++ [stmt']) (fun s hs => h s (List.mem_cons_of_mem _ hs)) hafter₂
          ((nesting_of_next hread).trans hnesting₁) (hopen₂.trans hopen₁)
      refine ⟨stmt' :: more, st', ?_, ?_⟩
      · rw [grow_of_some consuming_programTurn (hturn st₂ hend), hgrow]
        simp
      · rw [List.map_cons, List.map_cons, hbare, hmore]
        rfl

/-- Parsing undoes printing. A program of assignments, each on a line of its own, is read again as
it was but for the places, if no parentheses are missing in it, its literals are written as tokens,
and it stays within the limits of the parser.

Each of these conditions is one on a single statement, so lines have no effect on each other. An
empty list of statements is printed as the empty text, and that is a program without statements. -/
theorem parse_programText {stmts : List Stmt} (h : ∀ stmt ∈ stmts, stmt.Readable) :
    ∃ parsed, parseProgram (programText stmts) = .ok parsed ∧
      parsed.map Stmt.bare = stmts.map Stmt.bare := by
  obtain ⟨more, st', hgrow, hbare⟩ : ∃ more st',
      grow programTurn [] (.start (programText stmts)) = .ok ([] ++ more) st' ∧
        more.map Stmt.bare = stmts.map Stmt.bare :=
    program_of_text [] h rfl rfl rfl
  exact ⟨more, runOn_ok_iff.mpr ⟨st', hgrow⟩, hbare⟩

/-- With both signs, a power to the right of one, parentheses that are needed, a float, and a name
that is assigned before it is read. -/
theorem parse_programText_two_lines :
    let power : Expr := .binary .exp (.point 0) (.literal (.int 2) (.point 0))
      (.unary .pos (.point 0) (.literal (.name "a") (.point 0)) (.point 0)) (.point 0)
    let sum : Expr := .paren (.binary .add (.point 0) (.literal (.name "b_1") (.point 0))
      (.literal (.float 2.5) (.point 0)) (.point 0)) (.point 0)
    let stmts : List Stmt :=
      [.assign ⟨"x", .point 0⟩ (.binary .mul (.point 0)
          (.unary .neg (.point 0) power (.point 0)) sum (.point 0)) (.point 0),
        .assign ⟨"y", .point 0⟩ (.literal (.name "x") (.point 0)) (.point 0)]
    programText stmts = "x = -2 ** +a * (b_1 + 2.5)\ny = x" ∧ (∀ stmt ∈ stmts, stmt.Readable) ∧
      ∃ parsed, parseProgram (programText stmts) = .ok parsed ∧
        parsed.map Stmt.bare = stmts.map Stmt.bare := by
  intro power sum stmts
  have htwo : (Literal.int 2).Prints := show (0 : Int) ≤ (2 : Int64).toInt by decide
  have hname : ∀ text ∈ ["a", "b_1", "x", "y"], IsName text.toList := by decide +kernel
  have hfloat : (Literal.float 2.5).Prints := by
    refine ⟨⟨.float, "2.5", ⟨0, 3⟩⟩, by decide +kernel, rfl, ?_⟩
    exact Token.literal_ok_iff.mpr ⟨rfl, rfl, by decide +kernel⟩
  have hreadable : ∀ stmt ∈ stmts, stmt.Readable := by
    rw [List.forall_mem_cons, List.forall_mem_singleton]
    constructor
    · have hpower : power.Prints := ⟨htwo, hname "a" (by simp)⟩
      have hsum : sum.Prints := ⟨hname "b_1" (by simp), hfloat⟩
      exact ⟨hname "x" (by simp), ⟨hpower, hsum⟩, by decide, by decide, by decide⟩
    · exact ⟨hname "y" (by simp), hname "x" (by simp), by decide, by decide, by decide⟩
  exact ⟨by decide +kernel, hreadable, parse_programText hreadable⟩

end ThreeAddress
