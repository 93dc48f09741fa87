import ThreeAddress.Proofs.Printing
import ThreeAddress.Proofs.Reading

/-!
# Reading the same words

Two texts can have the same words and differ in what does not count: where the words stand, the
blanks between them, the line ends in parentheses. A parser that succeeds on one of the texts then
succeeds on the other, with a result that is the same but for places, and comes to a place with the
same words ahead (`Follows`).

This holds of tokens, since `next` passes over what does not count. From there it goes up through
the phrases of the grammar, one layer at a time. A parenthesis is the one place where what counts
changes, and it does so in both texts.

The two runs are of the same parser from different states, so what is proved is a simulation: a
relation between states (`SameAhead`) that every step keeps, and between results (`Expr.Same`,
`Stmt.Same`). It is shown for successful runs only, and that is enough for both directions, as the
relation between the texts is symmetric: a failure on one of them is a failure on the other because
a success would come back.

Where a diagnostic points does differ between the texts, so for failures no more than this could be
had.
-/

set_option autoImplicit false

namespace ThreeAddress

open ThreeAddress.Parser ThreeAddress.ParserState

/-- The token without its place. Kind and text are left, which is what is made use of by everything
that reads a token. -/
def Token.bare (token : Token) : Token := { token with span := .point 0 }

variable {token token₁ : Token}

theorem Token.kind_eq_of_bare (h : token₁.bare = token.bare) : token₁.kind = token.kind := by
  have hkind := congrArg Token.kind h
  exact hkind

theorem Token.lexeme_eq_of_bare (h : token₁.bare = token.bare) : token₁.lexeme = token.lexeme := by
  have hlexeme := congrArg Token.lexeme h
  exact hlexeme

theorem Token.depthAfter_eq_of_bare (h : token₁.bare = token.bare) (depth : Nat) :
    token₁.depthAfter depth = token.depthAfter depth := by
  rw [depthAfter, depthAfter, kind_eq_of_bare h]

namespace ParserState

/-! ## Places with the same words ahead

What counts depends on how many parentheses are open, and this changes in the course of reading.
`significant` follows it along the text, counting parentheses as it goes; so the words ahead are a
list, and to read one is to take the first away. -/

/-- The tokens that count from here on. How far line ends count is settled by the parentheses among
the tokens themselves, whatever a parser makes of them. -/
def counted (st : ParserState) : List Token := significant st.openParens st.cursor.after

/-- From both places on, the same words count. The nesting is not a matter of the text, but it has
to be the same too, or one of the two might be too deep where the other is not. -/
structure SameAhead (st st₁ : ParserState) : Prop where
  words : st₁.counted.map Token.bare = st.counted.map Token.bare
  nesting : st₁.nesting = st.nesting
  openParens : st₁.openParens = st.openParens

variable {st st₁ st' st₁' : ParserState}

/-- To read a token is to take the first of those that count. The state behind it is one in which
the token has been counted, since a parenthesis changes what counts from there on. -/
theorem counted_of_next (h : next st = .ok token st') :
    st.counted = token :: (st'.counting token).counted := by
  obtain ⟨quiet, hquiet, hloud, hpassed⟩ := passed_of_next h
  have hloud : ¬token.IsQuietAt st.openParens := by
    rw [← isQuiet_iff, hloud]
    exact Bool.false_ne_true
  rw [counted, hpassed.after, List.append_assoc,
    significant_append_of_quiet fun t ht => isQuiet_iff.mp (hquiet t ht), List.singleton_append,
    significant, if_neg hloud, counted, counting, hpassed.openParens]

theorem counted_of_ahead_none (h : st.ahead = none) : st.counted = [] := by
  have hquiet : ∀ t ∈ st.cursor.after, t.IsQuietAt st.openParens := by
    intro t ht
    have hnone := List.find?_eq_none.mp h t ht
    rw [← isQuiet_iff]
    simpa using hnone
  have hall := significant_append_of_quiet hquiet []
  rwa [List.append_nil] at hall

/-- What a lookahead sees is the first of the tokens that count. -/
theorem ahead_eq_head? (st : ParserState) : st.ahead = st.counted.head? := by
  cases h : st.ahead with
  | none => rw [counted_of_ahead_none h, List.head?_nil]
  | some token =>
    obtain ⟨st', quiet, hnext, -⟩ := next_of_ahead h
    rw [counted_of_next hnext, List.head?_cons]

namespace SameAhead

/-! What is the same at two such places: whatever is decided by the kind of the token that comes
next. -/

theorem symm (h : SameAhead st st₁) : SameAhead st₁ st :=
  ⟨h.words.symm, h.nesting.symm, h.openParens.symm⟩

theorem ahead (h : SameAhead st st₁) : st₁.ahead.map Token.bare = st.ahead.map Token.bare := by
  rw [ahead_eq_head?, ahead_eq_head?, ← List.head?_map, ← List.head?_map, h.words]

theorem ahead_kind (h : SameAhead st st₁) :
    st₁.ahead.map (·.kind) = st.ahead.map (·.kind) := by
  have hword := congrArg (Option.map Token.kind) h.ahead
  rwa [Option.map_map, Option.map_map] at hword

theorem ahead_none (h : SameAhead st st₁) (hnone : st.ahead = none) : st₁.ahead = none := by
  have hword := h.ahead
  rwa [hnone, Option.map_none, Option.map_eq_none_iff] at hword

/-- Where one token is read, the other text has the same word. The two places behind it are related
after counting it; the parser itself counts only where it knows what the parenthesis is for. -/
theorem next (h : SameAhead st st₁) (hnext : Parser.next st = .ok token st') :
    ∃ token₁ st₁', Parser.next st₁ = .ok token₁ st₁' ∧ token₁.bare = token.bare ∧
      SameAhead (st'.counting token) (st₁'.counting token₁) := by
  have hahead := h.ahead
  rw [ahead_of_next hnext, Option.map_some, Option.map_eq_some_iff] at hahead
  obtain ⟨token₁, hahead, hword⟩ := hahead
  obtain ⟨st₁', quiet, hnext₁, -, -, hpassed₁⟩ := next_of_ahead hahead
  obtain ⟨quiet, -, -, hpassed⟩ := passed_of_next hnext
  refine ⟨token₁, st₁', hnext₁, hword, ?_, ?_, ?_⟩
  · have hwords := h.words
    rw [counted_of_next hnext, counted_of_next hnext₁] at hwords
    exact (List.cons.inj hwords).2
  · show st₁'.nesting = st'.nesting
    rw [hpassed.nesting, hpassed₁.nesting, h.nesting]
  · show token₁.depthAfter st₁'.openParens = token.depthAfter st'.openParens
    rw [Token.depthAfter_eq_of_bare hword, hpassed.openParens, hpassed₁.openParens, h.openParens]

/-- A token that is no parenthesis leaves it at that. -/
theorem next_of_kind (h : SameAhead st st₁) (hnext : Parser.next st = .ok token st')
    (hopen : token.kind ≠ .openParen) (hclose : token.kind ≠ .closeParen) :
    ∃ token₁ st₁', Parser.next st₁ = .ok token₁ st₁' ∧ token₁.bare = token.bare ∧
      SameAhead st' st₁' := by
  obtain ⟨token₁, st₁', hnext₁, hword, hsame⟩ := h.next hnext
  have hkind := Token.kind_eq_of_bare hword
  rw [counting_eq_self hopen hclose, counting_eq_self (by rwa [hkind]) (by rwa [hkind])] at hsame
  exact ⟨token₁, st₁', hnext₁, hword, hsame⟩

theorem deepened (h : SameAhead st st₁) : SameAhead st.deepened st₁.deepened :=
  ⟨h.words, congrArg (· + 1) h.nesting, h.openParens⟩

theorem raised (h : SameAhead st st₁) : SameAhead st.raised st₁.raised :=
  ⟨h.words, congrArg (· - 1) h.nesting, h.openParens⟩

/-- Behind an opening parenthesis. -/
theorem inside (h : SameAhead (st.counting token) (st₁.counting token₁))
    (hkind : token.kind = .openParen) (hkind₁ : token₁.kind = .openParen) :
    SameAhead st.inside st₁.inside := by
  rw [← deepened_counting hkind, ← deepened_counting hkind₁]
  exact h.deepened

/-- Behind a closing parenthesis. -/
theorem outside (h : SameAhead (st.counting token) (st₁.counting token₁))
    (hkind : token.kind = .closeParen) (hkind₁ : token₁.kind = .closeParen) :
    SameAhead st.outside st₁.outside := by
  rw [← raised_counting hkind, ← raised_counting hkind₁]
  exact h.raised

/-- The same operator is next, wherever it stands. -/
theorem aheadOp {op : BinOp} {span : Span} (h : SameAhead st st₁)
    (hop : st.aheadOp = some (op, span)) : ∃ span₁, st₁.aheadOp = some (op, span₁) := by
  obtain ⟨token, hahead, hkind, -⟩ := aheadOp_eq_some_iff.mp hop
  have hword := h.ahead
  rw [hahead, Option.map_some, Option.map_eq_some_iff] at hword
  obtain ⟨token₁, hahead₁, hword⟩ := hword
  refine ⟨token₁.span, aheadOp_eq_some_iff.mpr ⟨token₁, hahead₁, ?_, rfl⟩⟩
  rw [Token.kind_eq_of_bare hword, hkind]

/-! Where a chain or a right side stops, it stops in the other text. These are statements about
every operator that might come next, so they are carried over by symmetry. -/

theorem stopsBelow {floor : Precedence} (h : SameAhead st st₁) (hstops : st.StopsBelow floor) :
    st₁.StopsBelow floor := by
  intro op span hop
  obtain ⟨span', hop'⟩ := h.symm.aheadOp hop
  exact hstops op span' hop'

theorem stopsAfter {op : BinOp} (h : SameAhead st st₁) (hstops : st.StopsAfter op) :
    st₁.StopsAfter op := by
  intro following span hop
  obtain ⟨span', hop'⟩ := h.symm.aheadOp hop
  exact hstops following span' hop'

end SameAhead

end ParserState

/-! ## Parsers that follow each other

The rules of the simulation. `p` and `q` differ in what they have been given so far: an expression
to go on with, or statements before, the places of which are not the same. -/

/-- Where `p` succeeds, `q` does from every place with the same words ahead, with a result to match,
and the two come to places with the same words ahead. -/
def Follows {α β : Type} (R : α → β → Prop) (p : Parser α) (q : Parser β) : Prop :=
  ∀ ⦃st st₁ : ParserState⦄ ⦃a : α⦄ ⦃st' : ParserState⦄, SameAhead st st₁ → p st = .ok a st' →
    ∃ b st₁', q st₁ = .ok b st₁' ∧ R a b ∧ SameAhead st' st₁'

section Combinators

variable {α β γ δ σ τ : Type} {R : α → β → Prop} {S : γ → δ → Prop} {p p' : Parser α}
  {q q' : Parser β} {f : α → Parser γ} {g : β → Parser δ}

theorem follows_pure {a : α} {b : β} (h : R a b) : Follows R (pure a) (pure b) := by
  intro st st₁ a' st' hsame hpure
  obtain ⟨rfl, rfl⟩ := pure_ok_iff.mp hpure
  exact ⟨b, st₁, rfl, h, hsame⟩

/-- In sequence, the second parsers are given results that match, and have to follow each other for
all of these. -/
theorem follows_bind (h : Follows R p q) (hmore : ∀ ⦃a b⦄, R a b → Follows S (f a) (g b)) :
    Follows S (p >>= f) (q >>= g) := by
  intro st st₁ c st' hsame hbind
  obtain ⟨a, st₂, hp, hf⟩ := bind_ok_iff.mp hbind
  obtain ⟨b, st₃, hq, hab, hsame⟩ := h hsame hp
  obtain ⟨d, st₄, hg, hcd, hsame⟩ := hmore hab hsame hf
  exact ⟨d, st₄, bind_ok_iff.mpr ⟨b, st₃, hq, hg⟩, hcd, hsame⟩

theorem follows_ite {c : Prop} [Decidable c] (h : Follows R p q) (h' : Follows R p' q') :
    Follows R (if c then p else p') (if c then q else q') := by
  split
  · exact h
  · exact h'

theorem follows_attempt (h : Follows R p q) : Follows R (attempt p) (attempt q) := by
  intro st st₁ a st' hsame hp
  obtain ⟨b, st₁', hq, hab, hsame⟩ := h hsame (attempt_ok_iff.mp hp)
  exact ⟨b, st₁', attempt_ok_iff.mpr hq, hab, hsame⟩

theorem follows_discard (h : Follows R p q) : Follows Eq (discard p) (discard q) := by
  intro st st₁ _ st' hsame hp
  obtain ⟨a, hp⟩ := discard_ok_iff.mp hp
  obtain ⟨b, st₁', hq, -, hsame⟩ := h hsame hp
  exact ⟨(), st₁', discard_ok_iff.mpr ⟨b, hq⟩, rfl, hsame⟩

theorem follows_deeper (h : Follows R p q) : Follows R (deeper p) (deeper q) := by
  intro st st₁ a st' hsame hp
  obtain ⟨hlimit, st₂, hrun, rfl⟩ := deeper_ok_iff.mp hp
  obtain ⟨b, st₃, hq, hab, hsame'⟩ := h hsame.deepened hrun
  refine ⟨b, st₃.raised, deeper_ok_iff.mpr ⟨?_, st₃, hq, rfl⟩, hab, hsame'.raised⟩
  rwa [hsame.nesting]

/-- A look at the next kind gives the same answer, so that whatever it decides is decided alike, and
`follows_ite` applies. -/
theorem follows_upcomingKind : Follows Eq upcomingKind upcomingKind := by
  intro st st₁ kind? st' hsame hkind
  cases hkind
  exact ⟨_, st₁, upcomingKind_eq st₁, hsame.ahead_kind.symm, hsame⟩

/-- Reading a token that is no parenthesis as something. Parentheses are excluded because the parser
does not keep count of them by itself; the phrase for parentheses is treated on its own. -/
theorem follows_tokenAs {convert : Token → Except SyntaxFault α}
    {convert₁ : Token → Except SyntaxFault β}
    (h : ∀ ⦃token token₁ a⦄, token₁.bare = token.bare → convert token = .ok a →
      (token.kind ≠ .openParen ∧ token.kind ≠ .closeParen) ∧
        ∃ b, convert₁ token₁ = .ok b ∧ R a b) :
    Follows R (tokenAs convert) (tokenAs convert₁) := by
  intro st st₁ a st' hsame htoken
  obtain ⟨token, hnext, hconvert⟩ := tokenAs_ok_iff.mp htoken
  obtain ⟨token₁, st₁', hnext₁, hword, -⟩ := hsame.next hnext
  obtain ⟨⟨hopen, hclose⟩, b, hconvert₁, hab⟩ := h hword hconvert
  -- the token is read twice, for its word and for the place behind it
  obtain ⟨token₂, st₂, hnext₂, -, hsame⟩ := hsame.next_of_kind hnext hopen hclose
  obtain ⟨rfl, rfl⟩ : token₁ = token₂ ∧ st₁' = st₂ := by
    simpa using hnext₁.symm.trans hnext₂
  exact ⟨b, st₁', tokenAs_ok_iff.mpr ⟨token₁, hnext₁, hconvert₁⟩, hab, hsame⟩

/-- Two loops whose turns follow each other. They take as many turns, though not over as many
tokens: the induction is on those left in the first text, and the second loop is unfolded along with
it. -/
theorem follows_grow {R : σ → τ → Prop} {turn : σ → Parser (Option σ)}
    {turn₁ : τ → Parser (Option τ)} (hturn : Consuming turn) (hturn₁ : Consuming turn₁)
    (h : ∀ ⦃a b⦄, R a b → Follows (Option.Rel R) (turn a) (turn₁ b)) {a : σ} {b : τ} (hab : R a b) :
    Follows R (grow turn a) (grow turn₁ b) := by
  intro st st₁ c st' hsame hgrow
  induction hn : st.remaining using Nat.strongRecOn generalizing a b st st₁ with
  | ind n ih =>
    rw [grow_eq hturn, bind_ok_iff] at hgrow
    obtain ⟨next, st₂, hnext, hgrow⟩ := hgrow
    obtain ⟨next₁, st₃, hnext₁, hrel, hsame⟩ := h hab hsame hnext
    cases hrel with
    | none =>
      obtain ⟨rfl, rfl⟩ := pure_ok_iff.mp hgrow
      exact ⟨b, st₃, grow_of_none hturn₁ hnext₁, hab, hsame⟩
    | some hab =>
      have hless := hturn.less hnext
      rw [grow_of_some hturn₁ hnext₁]
      exact ih st₂.remaining (by omega) hab hsame hgrow rfl

end Combinators

/-! ## Expressions

One lemma for each phrase, by the conditions under which it succeeds. As phrases carry parts of
expressions in them, they too are the same only but for places. -/

/-- The same expression, but for places. -/
def Expr.Same (e e₁ : Expr) : Prop := e₁.bare = e.bare

/-- The height does not depend on places, so neither text is too high where the other is not. -/
theorem Expr.Same.height_eq {e e₁ : Expr} (h : e.Same e₁) : e₁.height = e.height := by
  rw [← height_bare, h, height_bare]

/-- The same phrase, but for places in what has been read of it. -/
inductive Phrase.Same : Phrase → Phrase → Prop
  | expr : Same .expr .expr
  | operand : Same .operand .operand
  | signed : Same .signed .signed
  | paren : Same .paren .paren
  | chain {lhs lhs₁ : Expr} (h : lhs.Same lhs₁) (floor : Precedence) :
      Same (.chain lhs floor) (.chain lhs₁ floor)
  | rightSide (op : BinOp) {rhs rhs₁ : Expr} (h : rhs.Same rhs₁) :
      Same (.rightSide op rhs) (.rightSide op rhs₁)

/-- What a token is as a literal depends on its kind and its text. -/
theorem Literal.IsToken.of_bare {value : Literal} (h : value.IsToken token)
    (hword : token₁.bare = token.bare) : value.IsToken token₁ := by
  have hkind := Token.kind_eq_of_bare hword
  have hlexeme := Token.lexeme_eq_of_bare hword
  cases value <;> simpa only [IsToken, hkind, hlexeme] using h

theorem Literal.IsToken.kind_ne_closeParen {value : Literal} (h : value.IsToken token) :
    token.kind ≠ .closeParen := by
  cases value <;> simp [h.1]

theorem BinOp.kind_ne_openParen (op : BinOp) (h : token.kind = op.kind) :
    token.kind ≠ .openParen := by
  cases op <;> simp [h, kind]

theorem BinOp.kind_ne_closeParen (op : BinOp) (h : token.kind = op.kind) :
    token.kind ≠ .closeParen := by
  cases op <;> simp [h, kind]

namespace Phrase

variable {inner : Phrase → Parser Expr} {st st₁ st' : ParserState} {op : BinOp}
  {floor : Precedence} {lhs lhs₁ rhs rhs₁ : Expr}

/-- The parser reads the same phrases alike. -/
def Transfers (inner : Phrase → Parser Expr) : Prop :=
  ∀ ⦃phrase phrase₁ : Phrase⦄, phrase.Same phrase₁ →
    Follows Expr.Same (inner phrase) (inner phrase₁)

/-- What kind of operand it is shows in the token that comes next, which is the same word in both
texts. -/
theorem follows_operand (h : Transfers inner) :
    Follows Expr.Same (read inner .operand) (read inner .operand) := by
  intro st st₁ e st' hsame hread
  obtain ⟨token, hahead, hcases⟩ := operand_ok_iff.mp hread
  have hword := hsame.ahead
  rw [hahead, Option.map_some, Option.map_eq_some_iff] at hword
  obtain ⟨token₁, hahead₁, hword⟩ := hword
  have hkind := Token.kind_eq_of_bare hword
  rcases hcases with ⟨⟨sign, hsign⟩, hrun⟩ | ⟨hparen, hrun⟩ | ⟨hnext, value, hvalue, rfl⟩
  · obtain ⟨e₁, st₁', hrun₁, hbare, hsame'⟩ := h .signed hsame hrun
    refine ⟨e₁, st₁', operand_ok_iff.mpr ⟨token₁, hahead₁, .inl ⟨⟨sign, ?_⟩, hrun₁⟩⟩, hbare, hsame'⟩
    rw [hkind, hsign]
  · obtain ⟨e₁, st₁', hrun₁, hbare, hsame'⟩ := h .paren hsame hrun
    refine ⟨e₁, st₁', operand_ok_iff.mpr ⟨token₁, hahead₁, .inr (.inl ⟨?_, hrun₁⟩)⟩, hbare, hsame'⟩
    rw [hkind, hparen]
  · obtain ⟨token₂, st₁', hnext₁, hword₂, hsame'⟩ :=
      hsame.next_of_kind hnext hvalue.kind_ne_openParen hvalue.kind_ne_closeParen
    have hvalue₁ := hvalue.of_bare hword₂
    exact ⟨.literal value token₂.span, st₁', operand_ok_iff.mpr
      ⟨token₂, ahead_of_next hnext₁, .inr (.inr ⟨hnext₁, value, hvalue₁, rfl⟩)⟩, rfl, hsame'⟩

/-- A sign is no parenthesis, and the level it costs is there in both texts or in neither. -/
theorem follows_signed (h : Transfers inner) :
    Follows Expr.Same (read inner .signed) (read inner .signed) := by
  intro st st₁ e st' hsame hread
  obtain ⟨sign, token, st₂, first, st₃, operand, st₄, hnext, hkind, hlimit, hfirst, hoperand, rfl,
    rfl⟩ := signed_ok_iff.mp hread
  obtain ⟨token₁, st₂', hnext₁, hword, hsame₂⟩ :=
    hsame.next_of_kind hnext (by cases sign <;> simp [hkind, UnOp.kind])
      (by cases sign <;> simp [hkind, UnOp.kind])
  obtain ⟨first₁, st₃', hfirst₁, hbare, hsame₃⟩ := h .operand hsame₂.deepened hfirst
  obtain ⟨operand₁, st₄', hoperand₁, hbare₁, hsame₄⟩ := h (.chain hbare .neg) hsame₃ hoperand
  refine ⟨_, st₄'.raised, signed_ok_iff.mpr ⟨sign, token₁, st₂', first₁, st₃', operand₁, st₄',
    hnext₁, ?_, ?_, hfirst₁, hoperand₁, rfl, rfl⟩, ?_, hsame₄.raised⟩
  · rw [Token.kind_eq_of_bare hword, hkind]
  · rwa [hsame₂.nesting]
  · rw [Expr.Same, Expr.bare, Expr.bare, hbare₁]

/-- The one phrase in which what counts changes. Behind the opening parenthesis both texts are one
deeper, and `inside` turns the tokens counted into the state that the parser goes on with; behind
the closing one `outside` takes it back. -/
theorem follows_paren (h : Transfers inner) :
    Follows Expr.Same (read inner .paren) (read inner .paren) := by
  intro st st₁ e st' hsame hread
  obtain ⟨opening, st₂, kind, content, st₃, closing, st₄, hopening, hopen, hlimit, hahead, hne,
    hcontent, hclosing, hclose, rfl, rfl⟩ := paren_ok_iff.mp hread
  obtain ⟨opening₁, st₂', hopening₁, hword, hsame₂⟩ := hsame.next hopening
  have hopen₁ := (Token.kind_eq_of_bare hword).trans hopen
  have hinside := hsame₂.inside hopen hopen₁
  obtain ⟨content₁, st₃', hcontent₁, hbare, hsame₃⟩ := h .expr hinside hcontent
  obtain ⟨closing₁, st₄', hclosing₁, hword', hsame₄⟩ := hsame₃.next hclosing
  have hclose₁ := (Token.kind_eq_of_bare hword').trans hclose
  refine ⟨_, st₄'.outside, paren_ok_iff.mpr ⟨opening₁, st₂', kind, content₁, st₃', closing₁, st₄',
    hopening₁, hopen₁, ?_, ?_, hne, hcontent₁, hclosing₁, hclose₁, rfl, rfl⟩, ?_,
    hsame₄.outside hclose hclose₁⟩
  · have hnesting : st₂'.nesting = st₂.nesting := hsame₂.nesting
    rwa [hnesting]
  · rw [hinside.ahead_kind, hahead]
  · rw [Expr.Same, Expr.bare, Expr.bare, hbare]

/-- The same expression, but for places, with the same height. The height is carried along by the
loop and would be the same anyway; it is in the relation because the limit is checked against it. -/
def SameGrown (grown grown₁ : Expr × Nat) : Prop := grown.1.Same grown₁.1 ∧ grown.2 = grown₁.2

/-- A chain grows by the same operators. -/
theorem follows_chainTurn (h : Transfers inner) {grown grown₁ : Expr × Nat}
    (hgrown : SameGrown grown grown₁) :
    Follows (Option.Rel SameGrown) (chainTurn inner floor grown)
      (chainTurn inner floor grown₁) := by
  obtain ⟨lhs, height⟩ := grown
  obtain ⟨lhs₁, height₁⟩ := grown₁
  obtain ⟨hlhs, rfl⟩ : lhs.Same lhs₁ ∧ height = height₁ := hgrown
  intro st st₁ next st' hsame hturn
  cases next with
  | none =>
    obtain ⟨rfl, hstops⟩ := chainTurn_none_iff.mp hturn
    exact ⟨none, st₁, chainTurn_none_iff.mpr ⟨rfl, hsame.stopsBelow hstops⟩, .none, hsame⟩
  | some grown =>
    obtain ⟨op, token, st₂, first, st₃, rhs, hop, hfloor, hnext, hfirst, hrhs, hheight, rfl⟩ :=
      chainTurn_some_iff.mp hturn
    obtain ⟨token', hahead, hkind, -⟩ := aheadOp_eq_some_iff.mp hop
    obtain rfl : token' = token := Option.some.inj (hahead.symm.trans (ahead_of_next hnext))
    obtain ⟨token₁, st₂', hnext₁, hword, hsame₂⟩ :=
      hsame.next_of_kind hnext (op.kind_ne_openParen hkind) (op.kind_ne_closeParen hkind)
    obtain ⟨first₁, st₃', hfirst₁, hbare, hsame₃⟩ := h .operand hsame₂ hfirst
    obtain ⟨rhs₁, st₄', hrhs₁, hbare₁, hsame₄⟩ := h (.rightSide op hbare) hsame₃ hrhs
    -- the operator has the same kind of token in both texts, if not the same place
    have hop₁ : st₁.aheadOp = some (op, token₁.span) := by
      refine aheadOp_eq_some_iff.mpr ⟨token₁, ahead_of_next hnext₁, ?_, rfl⟩
      rw [Token.kind_eq_of_bare hword, hkind]
    refine ⟨_, st₄', chainTurn_some_iff.mpr ⟨op, token₁, st₂', first₁, st₃', rhs₁, hop₁, hfloor,
      hnext₁, hfirst₁, hrhs₁, ?_, rfl⟩, .some ⟨?_, ?_⟩, hsame₄⟩
    · rwa [hbare₁.height_eq]
    · show Expr.bare _ = Expr.bare _
      rw [Expr.bare, Expr.bare, hlhs, hbare₁]
    · rw [hbare₁.height_eq]

theorem follows_rightSideTurn (h : Transfers inner) (hrhs : rhs.Same rhs₁) :
    Follows (Option.Rel Expr.Same) (rightSideTurn inner op rhs) (rightSideTurn inner op rhs₁) := by
  intro st st₁ next st' hsame hturn
  cases next with
  | none =>
    obtain ⟨rfl, hstops⟩ := rightSideTurn_none_iff.mp hturn
    exact ⟨none, st₁, rightSideTurn_none_iff.mpr ⟨rfl, hsame.stopsAfter hstops⟩, .none, hsame⟩
  | some grown =>
    obtain ⟨following, span, hop, hcases⟩ := rightSideTurn_some_iff.mp hturn
    obtain ⟨span₁, hop₁⟩ := hsame.aheadOp hop
    rcases hcases with ⟨htighter, hrun⟩ | ⟨htighter, hright, hrun⟩
    · obtain ⟨grown₁, st₁', hrun₁, hbare, hsame'⟩ := h (.chain hrhs _) hsame hrun
      exact ⟨some grown₁, st₁', rightSideTurn_some_iff.mpr
        ⟨following, span₁, hop₁, .inl ⟨htighter, hrun₁⟩⟩, .some hbare, hsame'⟩
    · obtain ⟨grown₁, st₁', hrun₁, hbare, hsame'⟩ := follows_deeper (h (.chain hrhs _)) hsame hrun
      exact ⟨some grown₁, st₁', rightSideTurn_some_iff.mpr
        ⟨following, span₁, hop₁, .inr ⟨htighter, hright, hrun₁⟩⟩, .some hbare, hsame'⟩

/-- One layer of the grammar reads the same phrases alike if the layer below it does. That it moves
on is needed for the loops. -/
theorem transfers_read (hmoving : Moving inner) (h : Transfers inner) : Transfers (read inner) := by
  intro phrase phrase₁ hphrase
  cases hphrase with
  | expr =>
    intro st st₁ e st' hsame hread
    obtain ⟨hclose, lhs, st₂, hlhs, hchain⟩ := expr_ok_iff.mp hread
    obtain ⟨lhs₁, st₂', hlhs₁, hbare, hsame₂⟩ := h .operand hsame hlhs
    obtain ⟨e₁, st₁', hchain₁, hbare₁, hsame'⟩ := h (.chain hbare .any) hsame₂ hchain
    refine ⟨e₁, st₁', expr_ok_iff.mpr ⟨?_, lhs₁, st₂', hlhs₁, hchain₁⟩, hbare₁, hsame'⟩
    rwa [hsame.ahead_kind]
  | operand => exact follows_operand h
  | signed => exact follows_signed h
  | paren => exact follows_paren h
  | @chain lhs lhs₁ hlhs floor =>
    intro st st₁ e st' hsame hread
    obtain ⟨height, hgrow⟩ := chain_ok_iff.mp hread
    have hturn := consuming_chainTurn hmoving floor
    have hstart : SameGrown (lhs, lhs.height) (lhs₁, lhs₁.height) := ⟨hlhs, hlhs.height_eq.symm⟩
    obtain ⟨⟨e₁, height₁⟩, st₁', hgrow₁, ⟨hbare, -⟩, hsame'⟩ :=
      follows_grow hturn hturn (fun _ _ hab => follows_chainTurn h hab) hstart hsame hgrow
    exact ⟨e₁, st₁', chain_ok_iff.mpr ⟨height₁, hgrow₁⟩, hbare, hsame'⟩
  | rightSide op hrhs =>
    intro st st₁ e st' hsame hread
    have hturn := consuming_rightSideTurn hmoving op
    exact follows_grow hturn hturn (fun _ _ hab => follows_rightSideTurn h hab) hrhs hsame hread

theorem transfers_layers (depth : Nat) : Transfers (layers depth) := by
  induction depth with
  | zero =>
    intro phrase phrase₁ _ st st₁ e st' _ h
    exact (layers_zero_ne_ok h).elim
  | succ depth ih => exact transfers_read (moving_layers depth) ih

end Phrase

/-! ## Statements and programs

From here on the rules do most of the work, as the parsers are put together from parts. Two places
call for more: a statement looks at two tokens ahead, and the end of a statement may be the end of
the text. -/

/-- The same statement, but for places. -/
def Stmt.Same (stmt stmt₁ : Stmt) : Prop := stmt₁.bare = stmt.bare

/-- The limit on the height is met by both statements or by neither. -/
theorem Stmt.Same.height_le {stmt stmt₁ : Stmt} (h : stmt.Same stmt₁)
    (hheight : ∀ value, stmt.value? = some value → value.height ≤ heightLimit) :
    ∀ value, stmt₁.value? = some value → value.height ≤ heightLimit := by
  intro value hvalue
  cases stmt₁ with
  | unsupported kind span => cases hvalue
  | assign target₁ value₁ span₁ =>
    obtain rfl : value₁ = value := Option.some.inj hvalue
    cases stmt with
    | unsupported kind span => cases h
    | assign target value span =>
      have hbare : value.Same value₁ := (Stmt.assign.inj h).2.1
      rw [hbare.height_eq]
      exact hheight value rfl

namespace Parser

variable {st st₁ st' : ParserState}

theorem follows_expr : Follows Expr.Same Parser.expr Parser.expr :=
  Phrase.transfers_layers Phrase.callDepth .expr

/-- A name is the same name, at another place. -/
theorem follows_ident : Follows (fun name name₁ : Ident => name₁.name = name.name)
    (attempt (tokenAs Token.ident)) (attempt (tokenAs Token.ident)) := by
  refine follows_attempt (follows_tokenAs ?_)
  intro token token₁ name hword hname
  obtain ⟨hkind, rfl⟩ := Token.ident_ok_iff.mp hname
  have hkind₁ := (Token.kind_eq_of_bare hword).trans hkind
  exact ⟨by simp [hkind], _, Token.ident_ok_iff.mpr ⟨hkind₁, rfl⟩, Token.lexeme_eq_of_bare hword⟩

theorem follows_mark {kind : TokenKind} (hopen : kind ≠ .openParen) (hclose : kind ≠ .closeParen) :
    Follows Eq (discard (attempt (tokenAs (Token.ofKind kind))))
      (discard (attempt (tokenAs (Token.ofKind kind)))) := by
  refine follows_discard (R := fun _ _ => True) (follows_attempt (follows_tokenAs ?_))
  intro token token₁ token' hword hkind
  obtain ⟨rfl, -⟩ := Token.ofKind_ok_iff.mp hkind
  exact ⟨⟨hopen, hclose⟩, token₁,
    Token.ofKind_ok_iff.mpr ⟨Token.kind_eq_of_bare hword, rfl⟩, trivial⟩

/-- Among tokens that are no parentheses it makes no difference whether parentheses are counted. The
lookahead does not count them, as it does not expect any: as soon as one comes up, the answer is
settled. -/
theorem isPrefixOf_significant {kinds : List TokenKind} {depth : Nat}
    (hkinds : ∀ kind ∈ kinds, kind ≠ .openParen ∧ kind ≠ .closeParen) (tokens : List Token) :
    kinds.isPrefixOf ((tokens.filter fun t => !decide (t.IsQuietAt depth)).map (·.kind)) =
      kinds.isPrefixOf ((significant depth tokens).map (·.kind)) := by
  induction tokens generalizing kinds with
  | nil => rfl
  | cons token tokens ih =>
    by_cases hquiet : token.IsQuietAt depth
    · rw [List.filter_cons_of_neg (by simpa using hquiet), significant, if_pos hquiet]
      exact ih hkinds
    · rw [List.filter_cons_of_pos (by simpa using hquiet), significant, if_neg hquiet]
      cases kinds with
      | nil => rfl
      | cons kind kinds =>
        rw [List.map_cons, List.map_cons, List.isPrefixOf, List.isPrefixOf]
        by_cases hkind : kind = token.kind
        · subst hkind
          obtain ⟨hopen, hclose⟩ := hkinds _ List.mem_cons_self
          rw [Token.depthAfter_of_ne hopen hclose,
            ih fun kind hmem => hkinds kind (List.mem_cons_of_mem _ hmem)]
        · rw [beq_false_of_ne hkind, Bool.false_and, Bool.false_and]

/-- Whether the next tokens are of these kinds. None of the kinds may be a parenthesis; the
statement asks only for a name and a sign behind it. -/
theorem follows_upcomingAre {kinds : List TokenKind}
    (hkinds : ∀ kind ∈ kinds, kind ≠ .openParen ∧ kind ≠ .closeParen) :
    Follows Eq (upcomingAre kinds) (upcomingAre kinds) := by
  have hcounted : ∀ st : ParserState,
      kinds.isPrefixOf (st.upcoming.map (·.kind)) = kinds.isPrefixOf (st.counted.map (·.kind)) := by
    intro st
    have hquiet : st.isQuiet = fun t => decide (t.IsQuietAt st.openParens) := by
      funext t
      rw [Bool.eq_iff_iff, isQuiet_iff, decide_eq_true_iff]
    rw [counted, ← isPrefixOf_significant hkinds, upcoming, hquiet]
  intro st st₁ answer st' hsame hanswer
  cases hanswer
  refine ⟨_, st₁, rfl, ?_, hsame⟩
  have hwords := congrArg (List.map Token.kind) hsame.words
  rw [List.map_map, List.map_map] at hwords
  rw [hcounted, hcounted]
  exact congrArg kinds.isPrefixOf hwords.symm

theorem follows_assignment : Follows Stmt.Same assignment assignment := by
  refine follows_bind follows_ident fun _ _ hname => ?_
  refine follows_bind (follows_mark (by decide) (by decide)) fun _ _ _ => ?_
  refine follows_bind (follows_attempt follows_expr) fun _ _ hvalue => follows_pure ?_
  rw [Stmt.Same, Stmt.bare, Stmt.bare, hname, hvalue]

/-- Another assignment in a chain. What is kept of it is only where it ends, which is not the same
in both texts, so nothing is said of the results but that both are there. -/
theorem follows_assignTurn (span span₁ : Span) :
    Follows (Option.Rel fun _ _ => True) (assignTurn span) (assignTurn span₁) := by
  refine follows_bind follows_upcomingKind ?_
  rintro kind? _ rfl
  refine follows_ite ?_ (follows_pure .none)
  refine follows_bind (follows_mark (by decide) (by decide)) fun _ _ _ => ?_
  exact follows_bind (follows_attempt follows_expr) fun _ _ _ => follows_pure (.some trivial)

theorem assignTurn_some {span span' : Span} (h : assignTurn span st = .ok (some span') st') :
    st'.remaining < st.remaining := by
  rw [assignTurn, bind_of_ok (upcomingKind_eq st)] at h
  split at h
  · obtain ⟨_, st₁, hsign, h⟩ := bind_ok_iff.mp h
    obtain ⟨sign, hsign⟩ := discard_ok_iff.mp hsign
    have hsign := advances_attempt (advances_tokenAs _) hsign
    obtain ⟨value, st₂, hvalue, h⟩ := bind_ok_iff.mp h
    have hvalue := advances_attempt advances_expr hvalue
    obtain ⟨-, rfl⟩ := pure_ok_iff.mp h
    exact hvalue.trans hsign
  · cases h

/-- A turn that goes on passes the sign and an expression; at the end of the text there is none. -/
theorem consuming_assignTurn : Consuming assignTurn where
  less := assignTurn_some
  idle := by
    intro span st hleft
    have hnil : st.cursor.after = [] := List.eq_nil_of_length_eq_zero hleft
    rw [assignTurn, bind_of_ok (upcomingKind_eq st), ahead, hnil]
    rfl

/-- In the order in which the kinds of statements are tried. An unsupported statement keeps nothing
but its kind and its place, and so the results match as soon as the kinds do. -/
theorem follows_statement : Follows Stmt.Same statement statement := by
  refine follows_bind (follows_upcomingAre (by decide)) ?_
  rintro isAssign _ rfl
  refine follows_ite ?_ ?_
  · refine follows_bind (follows_attempt follows_assignment) fun _ _ hfirst => ?_
    refine follows_bind follows_upcomingKind ?_
    rintro kind? _ rfl
    refine follows_ite (follows_pure hfirst) ?_
    have hturns : ∀ span span₁ : Span,
        Follows (fun _ _ => True) (grow assignTurn span) (grow assignTurn span₁) := by
      intro span span₁
      exact follows_grow consuming_assignTurn consuming_assignTurn
        (fun span span₁ _ => follows_assignTurn span span₁) trivial
    exact follows_bind (hturns _ _) fun _ _ _ => follows_pure rfl
  refine follows_bind (follows_upcomingAre (by decide)) ?_
  rintro isCompound _ rfl
  refine follows_ite ?_ ?_
  · refine follows_bind follows_ident fun _ _ hname => ?_
    refine follows_bind (follows_mark (by decide) (by decide)) fun _ _ _ => ?_
    exact follows_bind (follows_attempt follows_expr) fun _ _ _ => follows_pure rfl
  · exact follows_bind (follows_attempt follows_expr) fun _ _ _ => follows_pure rfl

/-- A statement ends if there is no token left or if a separator follows. The first reads as a
failure of `next`, whose state is kept. -/
theorem endOfStatement_ok_iff : endOfStatement st = .ok () st' ↔
    (∃ d, next st = .error d st') ∨ ∃ token, next st = .ok token st' ∧ token.kind.isSeparator := by
  rw [endOfStatement]
  cases hnext : next st with
  | error d st₁ =>
    -- the failure is swallowed, and the state is that of the end of the text
    have hpossibly : possibly next st = .ok none st₁ := by rw [possibly, hnext]
    rw [bind_of_ok hpossibly, pure_ok_iff]
    simp
  | ok token st₁ =>
    have hpossibly : possibly next st = .ok (some token) st₁ := by rw [possibly, hnext]
    rw [bind_of_ok hpossibly]
    dsimp only
    by_cases hkind : token.kind.isSeparator
    · rw [if_pos hkind, pure_ok_iff]
      constructor
      · rintro ⟨-, rfl⟩
        exact .inr ⟨token, rfl, hkind⟩
      · rintro (⟨d, h⟩ | ⟨token', h, -⟩)
        · cases h
        · cases h
          exact ⟨rfl, rfl⟩
    · rw [if_neg hkind]
      constructor
      · intro h
        split at h
        · exact (throw_ne_ok h).elim
        · exact (throw_ne_ok h).elim
      · rintro (⟨d, h⟩ | ⟨token', h, hkind'⟩)
        · cases h
        · cases h
          exact (hkind hkind').elim

theorem not_paren_of_isSeparator {kind : TokenKind} (h : kind.isSeparator) :
    kind ≠ .openParen ∧ kind ≠ .closeParen := by
  cases kind <;> simp_all [TokenKind.isSeparator]

theorem follows_endOfStatement : Follows Eq endOfStatement endOfStatement := by
  intro st st₁ _ st' hsame hend
  rcases endOfStatement_ok_iff.mp hend with ⟨d, hnext⟩ | ⟨token, hnext, hkind⟩
  · -- nothing counts any more, in both texts
    obtain ⟨hnone, hafter, hpassed⟩ := end_of_next hnext
    obtain ⟨d₁, st₁', herror₁, hafter₁, -, hpassed₁⟩ := next_of_ahead_none (hsame.ahead_none hnone)
    refine ⟨(), st₁', endOfStatement_ok_iff.mpr (.inl ⟨d₁, herror₁⟩), rfl, ?_, ?_, ?_⟩
    · rw [counted, counted, hafter, hafter₁]
      rfl
    · rw [hpassed.nesting, hpassed₁.nesting, hsame.nesting]
    · rw [hpassed.openParens, hpassed₁.openParens, hsame.openParens]
  · obtain ⟨hopen, hclose⟩ := not_paren_of_isSeparator hkind
    obtain ⟨token₁, st₁', hnext₁, hword, hsame'⟩ := hsame.next_of_kind hnext hopen hclose
    rw [← Token.kind_eq_of_bare hword] at hkind
    exact ⟨(), st₁', endOfStatement_ok_iff.mpr (.inr ⟨token₁, hnext₁, hkind⟩), rfl, hsame'⟩

/-- A separator is skipped in both texts, or in neither. -/
theorem follows_separatorTurn (u u₁ : Unit) :
    Follows (Option.Rel Eq) (separatorTurn u) (separatorTurn u₁) := by
  intro st st₁ more st' hsame hturn
  cases more with
  | none =>
    obtain ⟨rfl, hkind⟩ := separatorTurn_none_iff.mp hturn
    rw [← hsame.ahead_kind] at hkind
    exact ⟨none, st₁, separatorTurn_none_iff.mpr ⟨rfl, hkind⟩, .none, hsame⟩
  | some v =>
    obtain ⟨token, hnext, hkind⟩ := separatorTurn_some_iff.mp hturn
    obtain ⟨hopen, hclose⟩ := not_paren_of_isSeparator hkind
    obtain ⟨token₁, st₁', hnext₁, hword, hsame'⟩ := hsame.next_of_kind hnext hopen hclose
    rw [← Token.kind_eq_of_bare hword] at hkind
    exact ⟨some v, st₁', separatorTurn_some_iff.mpr ⟨token₁, hnext₁, hkind⟩, .some rfl, hsame'⟩

theorem follows_separators : Follows Eq separators separators :=
  follows_grow consuming_separatorTurn consuming_separatorTurn
    (fun u u₁ _ => follows_separatorTurn u u₁) rfl

/-- The same statements, but for places. -/
def SameStmts (stmts stmts₁ : List Stmt) : Prop := stmts₁.map Stmt.bare = stmts.map Stmt.bare

/-- A turn of the program stops in both texts or reads the same statement in both. That the second
text is not at its end where the first is not comes from the symmetry of the relation. -/
theorem follows_programTurn {stmts stmts₁ : List Stmt} (h : SameStmts stmts stmts₁) :
    Follows (Option.Rel SameStmts) (programTurn stmts) (programTurn stmts₁) := by
  intro st st₁ more st' hsame hturn
  cases more with
  | none =>
    obtain ⟨hseparators, hnone⟩ := programTurn_none_iff.mp hturn
    obtain ⟨_, st₁', hseparators₁, -, hsame'⟩ := follows_separators hsame hseparators
    exact ⟨none, st₁', programTurn_none_iff.mpr ⟨hseparators₁, hsame'.ahead_none hnone⟩, .none,
      hsame'⟩
  | some more =>
    obtain ⟨st₂, stmt, st₃, hseparators, hsome, hstmt, hheight, hend, rfl⟩ :=
      programTurn_some_iff.mp hturn
    obtain ⟨_, st₂', hseparators₁, -, hsame₂⟩ := follows_separators hsame hseparators
    obtain ⟨stmt₁, st₃', hstmt₁, hbare, hsame₃⟩ := follows_statement hsame₂ hstmt
    obtain ⟨_, st₄', hend₁, -, hsame₄⟩ := follows_endOfStatement hsame₃ hend
    refine ⟨some (stmts₁ ++ [stmt₁]), st₄', programTurn_some_iff.mpr
      ⟨st₂', stmt₁, st₃', hseparators₁, ?_, hstmt₁, hbare.height_le hheight, hend₁, rfl⟩,
      .some ?_, hsame₄⟩
    · intro hnone
      exact hsome (hsame₂.symm.ahead_none hnone)
    · rw [SameStmts, List.map_append, List.map_append, h, List.map_singleton, List.map_singleton,
        hbare]

theorem follows_program : Follows SameStmts program program :=
  follows_grow consuming_programTurn consuming_programTurn
    (fun _ _ hstmts => follows_programTurn hstmts) rfl

end Parser

/-- Texts of the same words that count are the same programs, but for places. At the start of a text
no parenthesis is open, hence `significant 0`. -/
theorem parseProgram_of_same_words {source source₁ : String} {stmts : List Stmt}
    (h : parseProgram source = .ok stmts)
    (hwords : (significant 0 (Token.scan source₁)).map Token.bare =
      (significant 0 (Token.scan source)).map Token.bare) :
    ∃ stmts₁, parseProgram source₁ = .ok stmts₁ ∧ stmts₁.map Stmt.bare = stmts.map Stmt.bare := by
  obtain ⟨st', hprogram⟩ := runOn_ok_iff.mp h
  have hstart : SameAhead (.start source) (.start source₁) := ⟨hwords, rfl, rfl⟩
  obtain ⟨stmts₁, st₁', hprogram₁, hsame, -⟩ := follows_program hstart hprogram
  exact ⟨stmts₁, runOn_ok_iff.mpr ⟨st₁', hprogram₁⟩, hsame⟩

end ThreeAddress
