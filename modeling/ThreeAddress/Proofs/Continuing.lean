import ThreeAddress.Proofs.Transfer

/-!
# Reading on at a line end

Lines that come behind a program do not change how it is read. Two texts are read side by side here
that are the same up to a line end: one has nothing behind it, the other has more (`Continued`).
What succeeds on the first does the same on the second (`Continues`).

At the place where the texts part, no line is over as long as a parenthesis is open, and then the
texts do differ in what comes next. But there the parser is going to fail for want of a closing
parenthesis. So only those places are compared from which that is still to come (`Closable`).

This is a simulation again, as in `Transfer`, but not between texts of the same words. Up to the
place where they part the texts are the same token for token, so results are equal and not only
alike; behind it they have nothing to do with each other, and that the first text has an end there
is all that is made use of.

The condition `Closable` is on the state in which a run ends, and goes backwards through it: a
parser only goes forward, so if there is something to come behind it, there was something to come
before. A whole statement needs no such condition, since no parentheses are open around it.
-/

set_option autoImplicit false

namespace ThreeAddress

open ThreeAddress.Parser ThreeAddress.ParserState

/-! What an expression is made of is no line end, so whatever is read in one stands before the place
where the texts part. -/

theorem UnOp.kind_ne_newLine (op : UnOp) : op.kind ≠ .newLine := by
  cases op <;> exact TokenKind.noConfusion

theorem BinOp.kind_ne_newLine (op : BinOp) : op.kind ≠ .newLine := by
  cases op <;> exact TokenKind.noConfusion

theorem Literal.IsToken.kind_ne_newLine {value : Literal} {token : Token}
    (h : value.IsToken token) : token.kind ≠ .newLine := by
  cases value <;> simp [h.1]

namespace ParserState

/-! ## Places that are alike up to a line end

What the two texts have next is compared here, with a line end as the one exception. It is an
exception for `next`, which passes the line end and comes to different places, but not for a
lookahead that asks about anything else. -/

/-- From the first place on, the text goes on to its end, which may be a line end. From the second,
it goes on in the same way up to a line end, and then with `rest`.

The line end may be a longer one in the second text, so it need not be the same token as `ending`;
and the first text may have none at all. -/
structure Continued (rest : List Token) (st s : ParserState) : Prop where
  after : ∃ (left : List Token) (ending : Option Token) (newLine : Token),
    st.cursor.after = left ++ ending.toList ∧ s.cursor.after = left ++ newLine :: rest ∧
      (∀ t ∈ ending, t.kind = .newLine) ∧ newLine.kind = .newLine
  nesting : s.nesting = st.nesting
  openParens : s.openParens = st.openParens

/-- If parentheses are open, there is something to come that could close them. Whether it does is
not asked: what matters is that the parser has not come to the end of the first text within
parentheses, where the second goes on. -/
def Closable (st : ParserState) : Prop := st.openParens = 0 ∨ st.ahead ≠ none

variable {rest raw : List Token} {st st' s : ParserState} {token : Token}

/-- The condition goes backwards along what has been passed, as tokens that are to come later were
to come before. -/
theorem Closable.of_passed (h : Closable st') (hpassed : Passed raw st st') : Closable st := by
  rw [Closable, ← hpassed.openParens]
  refine h.imp_right fun hahead hnone => hahead ?_
  have hquiet := ahead_eq_none_iff.mp hnone
  rw [hpassed.after] at hquiet
  rw [ahead_eq_none_iff]
  intro t ht
  rw [isQuiet, hpassed.openParens]
  exact hquiet t (List.mem_append_right raw ht)

theorem Closable.of_forward {α : Type} {p : Parser α} {a : α} (h : Closable st') (hp : Forward p)
    (hrun : p st = .ok a st') : Closable st := by
  obtain ⟨raw, hpassed⟩ := hp hrun
  exact h.of_passed hpassed

/-- Within parentheses line ends do not count. -/
theorem kind_ne_newLine_of_inside (h : st.inside.ahead = some token) : token.kind ≠ .newLine := by
  intro hkind
  have hloud := List.find?_some h
  simp [isQuiet, inside, hkind] at hloud

namespace Continued

/-! The counters change in step, and the texts stay where they are. -/

theorem deepened (h : Continued rest st s) : Continued rest st.deepened s.deepened :=
  ⟨h.after, congrArg (· + 1) h.nesting, h.openParens⟩

theorem raised (h : Continued rest st s) : Continued rest st.raised s.raised :=
  ⟨h.after, congrArg (· - 1) h.nesting, h.openParens⟩

theorem inside (h : Continued rest st s) : Continued rest st.inside s.inside :=
  ⟨h.after, congrArg (· + 1) h.nesting, congrArg (· + 1) h.openParens⟩

theorem outside (h : Continued rest st s) : Continued rest st.outside s.outside :=
  ⟨h.after, congrArg (· - 1) h.nesting, congrArg (· - 1) h.openParens⟩

theorem isQuiet (h : Continued rest st s) (token : Token) : s.isQuiet token = st.isQuiet token := by
  rw [ParserState.isQuiet, ParserState.isQuiet, h.openParens]

/-- Where a list that may have one more element at its end is split, the split is before that, or
the element is that one. -/
theorem append_cons_eq_toList {α : Type} {before after left : List α} {a : α} {last : Option α}
    (h : before ++ a :: after = left ++ last.toList) :
    (∃ more, left = before ++ a :: more ∧ after = more ++ last.toList) ∨
      left = before ∧ last = some a ∧ after = [] := by
  cases last with
  | none =>
    rw [Option.toList_none, List.append_nil] at h
    exact .inl ⟨after, h.symm, (List.append_nil after).symm⟩
  | some b =>
    rw [Option.toList_some] at h
    rcases List.eq_nil_or_concat after with rfl | ⟨more, c, rfl⟩
    · obtain ⟨rfl, hb⟩ := List.append_inj' h rfl
      obtain rfl := List.singleton_inj.mp hb
      exact .inr ⟨rfl, rfl, rfl⟩
    · rw [List.concat_eq_append, ← List.cons_append, ← List.append_assoc] at h
      obtain ⟨rfl, hc⟩ := List.append_inj' h rfl
      exact .inl ⟨more, rfl, by rw [List.concat_eq_append, hc, Option.toList_some]⟩

/-- The next token that is read stands before the line end in both texts, or it is where they part:
then in the first text all is read, and in the second `rest` is left. -/
theorem next_cases (h : Continued rest st s) (hnext : next st = .ok token st') :
    (∃ s', next s = .ok token s' ∧ Continued rest st' s') ∨
      token.kind = .newLine ∧ st'.cursor.after = [] ∧
        ∃ newLine s', next s = .ok newLine s' ∧ newLine.kind = .newLine ∧
          s'.cursor.after = rest := by
  obtain ⟨left, ending, newLine, hst, hs, hending, hnewLine⟩ := h.after
  obtain ⟨quiet, hquiet, hloud, hpassed⟩ := passed_of_next hnext
  have hquiet' : ∀ t ∈ quiet, s.isQuiet t := fun t ht => (h.isQuiet t).trans (hquiet t ht)
  rw [hpassed.after, List.append_assoc, List.singleton_append] at hst
  rcases append_cons_eq_toList hst with ⟨more, rfl, hafter⟩ | ⟨rfl, rfl, hafter⟩
  · rw [List.append_assoc, List.cons_append] at hs
    obtain ⟨s', hnext', hafter', hpassed'⟩ :=
      next_of_append hs hquiet' ((h.isQuiet token).trans hloud)
    refine .inl ⟨s', hnext', ⟨more, ending, newLine, hafter, hafter', hending, hnewLine⟩, ?_, ?_⟩
    · rw [hpassed'.nesting, hpassed.nesting, h.nesting]
    · rw [hpassed'.openParens, hpassed.openParens, h.openParens]
  · -- the token is the line end at the end of the first text
    have hkind : token.kind = .newLine := hending token rfl
    have hsame : s.isQuiet newLine = st.isQuiet token := by
      rw [ParserState.isQuiet, ParserState.isQuiet, h.openParens, hnewLine, hkind]
    obtain ⟨s', hnext', hafter', -⟩ := next_of_append hs hquiet' (hsame.trans hloud)
    exact .inr ⟨hkind, hafter, newLine, s', hnext', hnewLine, hafter'⟩

/-- A token that is no line end is read in both texts. -/
theorem next (h : Continued rest st s) (hnext : Parser.next st = .ok token st')
    (hkind : token.kind ≠ .newLine) :
    ∃ s', Parser.next s = .ok token s' ∧ Continued rest st' s' :=
  (h.next_cases hnext).resolve_right fun hline => hkind hline.1

theorem ahead_of_kind (h : Continued rest st s) (hahead : st.ahead = some token)
    (hkind : token.kind ≠ .newLine) : s.ahead = some token := by
  obtain ⟨st', quiet, hnext, -⟩ := next_of_ahead hahead
  obtain ⟨s', hnext', -⟩ := h.next hnext hkind
  exact ahead_of_next hnext'

/-- Where nothing counts any more in the first text, and no parenthesis is open, the second comes to
its line end. With a parenthesis open it would skip over that as well. -/
theorem next_of_ahead_none (h : Continued rest st s) (hopen : st.openParens = 0)
    (hahead : st.ahead = none) :
    ∃ newLine s', Parser.next s = .ok newLine s' ∧ newLine.kind = .newLine ∧
      s'.cursor.after = rest := by
  obtain ⟨left, ending, newLine, hst, hs, hending, hnewLine⟩ := h.after
  have hquiet := ahead_eq_none_iff.mp hahead
  rw [hst, List.forall_mem_append] at hquiet
  have hloud : s.isQuiet newLine = false := by
    simp [ParserState.isQuiet, h.openParens, hopen, hnewLine]
  obtain ⟨s', hnext, hafter, -⟩ :=
    next_of_append hs (fun t ht => (h.isQuiet t).trans (hquiet.1 t ht)) hloud
  exact ⟨newLine, s', hnext, hnewLine, hafter⟩

/-- The same comes next in both texts, or else a line ends in both, if the text does not end. The
condition is used where nothing is left in the first text: then no parenthesis is open, and the line
end counts in the second. -/
theorem ahead_cases (h : Continued rest st s) (hst : Closable st) :
    s.ahead = st.ahead ∨
      (∀ t ∈ st.ahead, t.kind = .newLine) ∧ ∀ t ∈ s.ahead, t.kind = .newLine := by
  cases hahead : st.ahead with
  | none =>
    obtain ⟨newLine, s', hnext, hkind, -⟩ :=
      h.next_of_ahead_none (hst.resolve_right fun hne => hne hahead) hahead
    rw [ahead_of_next hnext]
    exact .inr ⟨by simp, by simpa using hkind⟩
  | some token =>
    obtain ⟨st', quiet, hnext, -⟩ := next_of_ahead hahead
    rcases h.next_cases hnext with ⟨s', hnext', -⟩ | ⟨hkind, -, newLine, s', hnext', hkind', -⟩
    · exact .inl (ahead_of_next hnext')
    · rw [ahead_of_next hnext']
      exact .inr ⟨by simpa using hkind, by simpa using hkind'⟩

/-- Whether a token of a kind comes next is the same question in both texts, for every kind but one.
-/
theorem ahead_kind_iff (h : Continued rest st s) (hst : Closable st) {kind : TokenKind}
    (hkind : kind ≠ .newLine) :
    s.ahead.map (·.kind) = some kind ↔ st.ahead.map (·.kind) = some kind := by
  rcases h.ahead_cases hst with heq | ⟨hline, hline'⟩
  · rw [heq]
  · constructor
    · intro hs
      obtain ⟨token, hahead, rfl⟩ := Option.map_eq_some_iff.mp hs
      exact (hkind (hline' token hahead)).elim
    · intro hst
      obtain ⟨token, hahead, rfl⟩ := Option.map_eq_some_iff.mp hst
      exact (hkind (hline token hahead)).elim

/-- A line end is no operator, so that the same operator comes next, or none does. -/
theorem aheadOp (h : Continued rest st s) (hst : Closable st) : s.aheadOp = st.aheadOp := by
  have hnone : ∀ st : ParserState, (∀ t ∈ st.ahead, t.kind = .newLine) → st.aheadOp = none := by
    intro st hline
    cases hop : st.aheadOp with
    | none => rfl
    | some op =>
      obtain ⟨token, hahead, hkind, -⟩ := aheadOp_eq_some_iff.mp hop
      exact (op.1.kind_ne_newLine (hkind.symm.trans (hline token hahead))).elim
  rcases h.ahead_cases hst with heq | ⟨hline, hline'⟩
  · rw [ParserState.aheadOp, ParserState.aheadOp, heq]
  · rw [hnone st hline, hnone s hline']

end Continued

end ParserState

/-! ## Parsers that go on

The rules for `Continues`. Each part of a sequence has to end where parentheses can be closed; this
comes from the end of the sequence, by `Closable.of_forward`. -/

namespace Parser

variable {α β σ : Type} {p q : Parser α} {f : α → Parser β} {st st' s : ParserState}
  {rest : List Token}

/-- What succeeds up to a place from where all parentheses can be closed does so with more lines
behind. The value is the same, as are its places. -/
structure Continues (p : Parser α) : Prop where
  forward : Forward p
  run : ∀ {rest : List Token} {st s : ParserState} {a : α} {st' : ParserState},
    Continued rest st s → p st = .ok a st' → Closable st' →
      ∃ s', p s = .ok a s' ∧ Continued rest st' s'

theorem continues_pure (a : α) : Continues (pure a : Parser α) where
  forward := forward_pure a
  run := by
    intro rest st s b st' hcont h _
    obtain ⟨rfl, rfl⟩ := pure_ok_iff.mp h
    exact ⟨s, rfl, hcont⟩

/-- The condition is known of the place where the second parser ends, and holds of the place between
because that parser goes forward. -/
theorem continues_bind (hp : Continues p) (hf : ∀ a, Continues (f a)) : Continues (p >>= f) where
  forward := forward_bind hp.forward fun a => (hf a).forward
  run := by
    intro rest st s b st' hcont h hclosable
    obtain ⟨a, st₁, ha, hb⟩ := bind_ok_iff.mp h
    obtain ⟨s₁, ha', hcont₁⟩ := hp.run hcont ha (hclosable.of_forward (hf a).forward hb)
    obtain ⟨s', hb', hcont'⟩ := (hf a).run hcont₁ hb hclosable
    exact ⟨s', bind_ok_iff.mpr ⟨a, s₁, ha', hb'⟩, hcont'⟩

theorem continues_attempt (hp : Continues p) : Continues (attempt p) where
  forward := forward_attempt hp.forward
  run := by
    intro rest st s a st' hcont h hclosable
    obtain ⟨s', hp', hcont'⟩ := hp.run hcont (attempt_ok_iff.mp h) hclosable
    exact ⟨s', attempt_ok_iff.mpr hp', hcont'⟩

theorem continues_discard (hp : Continues p) : Continues (discard p) :=
  continues_bind hp fun _ => continues_pure ()

theorem continues_deeper (hp : Continues p) : Continues (deeper p) where
  forward := forward_deeper hp.forward
  run := by
    intro rest st s a st' hcont h hclosable
    obtain ⟨hlimit, st₁, hrun, rfl⟩ := deeper_ok_iff.mp h
    obtain ⟨s₁, hrun', hcont'⟩ := hp.run hcont.deepened hrun hclosable
    rw [← hcont.nesting] at hlimit
    exact ⟨s₁.raised, deeper_ok_iff.mpr ⟨hlimit, s₁, hrun', rfl⟩, hcont'.raised⟩

/-- A token that is read as something, if that is never a line end. -/
theorem continues_tokenAs {convert : Token → Except SyntaxFault α}
    (h : ∀ token a, convert token = .ok a → token.kind ≠ .newLine) :
    Continues (tokenAs convert) where
  forward := forward_tokenAs convert
  run := by
    intro rest st s a st' hcont htoken _
    obtain ⟨token, hnext, hconvert⟩ := tokenAs_ok_iff.mp htoken
    obtain ⟨s', hnext', hcont'⟩ := hcont.next hnext (h token a hconvert)
    exact ⟨s', tokenAs_ok_iff.mpr ⟨token, hnext', hconvert⟩, hcont'⟩

/-- A choice by what comes next, if it is no choice for a line end. The condition is brought back
from the end through whichever branch was taken, since the question is asked before. -/
theorem continues_ifAhead {kind : TokenKind} (hkind : kind ≠ .newLine) (hp : Continues p)
    (hq : Continues q) : Continues (do if (← upcomingKind) = some kind then p else q) where
  forward := forward_bind forward_upcomingKind fun _ => forward_ite hp.forward hq.forward
  run := by
    intro rest st s a st' hcont h hclosable
    rw [bind_of_ok (upcomingKind_eq st)] at h
    rw [bind_of_ok (upcomingKind_eq s)]
    have hst : Closable st := by
      split at h
      · exact hclosable.of_forward hp.forward h
      · exact hclosable.of_forward hq.forward h
    simp only [hcont.ahead_kind_iff hst hkind]
    split at h
    next hahead =>
      rw [if_pos hahead]
      exact hp.run hcont h hclosable
    next hahead =>
      rw [if_neg hahead]
      exact hq.run hcont h hclosable

/-- A loop of turns. It is unfolded turn by turn on both sides, as the second text has more tokens
and so allows for more turns. -/
theorem continues_grow {turn : σ → Parser (Option σ)} (hturn : ∀ a, Continues (turn a))
    (hconsuming : Consuming turn) (a : σ) : Continues (grow turn a) where
  forward := forward_grow (fun a => (hturn a).forward) a
  run := by
    intro rest st s b st' hcont h hclosable
    induction hn : st.remaining using Nat.strongRecOn generalizing a st s with
    | ind n ih =>
      rw [grow_eq hconsuming, bind_ok_iff] at h
      obtain ⟨next, st₁, hnext, h⟩ := h
      cases next with
      | none =>
        obtain ⟨rfl, rfl⟩ := pure_ok_iff.mp h
        obtain ⟨s', hnext', hcont'⟩ := (hturn a).run hcont hnext hclosable
        exact ⟨s', grow_of_none hconsuming hnext', hcont'⟩
      | some c =>
        have hless := hconsuming.less hnext
        have hforward : Forward (grow turn c) := forward_grow (fun a => (hturn a).forward) c
        obtain ⟨s₁, hnext', hcont₁⟩ :=
          (hturn a).run hcont hnext (hclosable.of_forward hforward h)
        rw [grow_of_some hconsuming hnext']
        exact ih st₁.remaining (by omega) c hcont₁ h rfl

end Parser

/-! ## Expressions

Each phrase by what its success says. No phrase of an expression ends with a line end or decides for
one, so the cases have one shape: bring the condition back, read the parts in the second text, put
them together. -/

namespace Phrase

/-- Whatever phrase is read, it goes on. -/
def Continuing (inner : Phrase → Parser Expr) : Prop := ∀ phrase, Continues (inner phrase)

variable {inner : Phrase → Parser Expr} {floor : Precedence} {op : BinOp}

/-- The check for a closing parenthesis is made at the beginning, so the condition is needed there
and is brought back through both parts. -/
theorem continues_expr (h : Continuing inner) (hmoving : Moving inner) :
    Continues (read inner .expr) := by
  refine ⟨forward_read hmoving .expr, ?_⟩
  intro rest st s e st' hcont hread hclosable
  obtain ⟨hclose, lhs, st₁, hlhs, hchain⟩ := expr_ok_iff.mp hread
  have hst₁ : Closable st₁ := hclosable.of_forward (h _).forward hchain
  have hst : Closable st := hst₁.of_forward (h _).forward hlhs
  obtain ⟨s₁, hlhs', hcont₁⟩ := (h .operand).run hcont hlhs hst₁
  obtain ⟨s', hchain', hcont'⟩ := (h (.chain lhs .any)).run hcont₁ hchain hclosable
  refine ⟨s', expr_ok_iff.mpr ⟨?_, lhs, s₁, hlhs', hchain'⟩, hcont'⟩
  rwa [ne_eq, hcont.ahead_kind_iff hst TokenKind.noConfusion]

/-- A sign, an opening parenthesis or a literal comes next, none of which is a line end. -/
theorem continues_operand (h : Continuing inner) (hmoving : Moving inner) :
    Continues (read inner .operand) := by
  refine ⟨forward_read hmoving .operand, ?_⟩
  intro rest st s e st' hcont hread hclosable
  obtain ⟨token, hahead, ⟨⟨sign, hkind⟩, hrun⟩ | ⟨hkind, hrun⟩ | ⟨hnext, value, hvalue, he⟩⟩ :=
    operand_ok_iff.mp hread
  · obtain ⟨s', hrun', hcont'⟩ := (h .signed).run hcont hrun hclosable
    have hahead' := hcont.ahead_of_kind hahead (hkind ▸ sign.kind_ne_newLine)
    exact ⟨s', operand_ok_iff.mpr ⟨token, hahead', .inl ⟨⟨sign, hkind⟩, hrun'⟩⟩, hcont'⟩
  · obtain ⟨s', hrun', hcont'⟩ := (h .paren).run hcont hrun hclosable
    have hahead' := hcont.ahead_of_kind hahead (hkind ▸ TokenKind.noConfusion)
    exact ⟨s', operand_ok_iff.mpr ⟨token, hahead', .inr (.inl ⟨hkind, hrun'⟩)⟩, hcont'⟩
  · obtain ⟨s', hnext', hcont'⟩ := hcont.next hnext hvalue.kind_ne_newLine
    exact ⟨s', operand_ok_iff.mpr
      ⟨token, ahead_of_next hnext', .inr (.inr ⟨hnext', value, hvalue, he⟩)⟩, hcont'⟩

theorem continues_signed (h : Continuing inner) (hmoving : Moving inner) :
    Continues (read inner .signed) := by
  refine ⟨forward_read hmoving .signed, ?_⟩
  intro rest st s e st' hcont hread hclosable
  obtain ⟨sign, token, st₁, first, st₂, operand, st₃, hnext, hkind, hlimit, hfirst, hoperand, rfl,
    he⟩ := signed_ok_iff.mp hread
  obtain ⟨s₁, hnext', hcont₁⟩ := hcont.next hnext (hkind ▸ sign.kind_ne_newLine)
  have hst₂ : Closable st₂ := by
    have hst₃ : Closable st₃ := hclosable
    exact hst₃.of_forward (h _).forward hoperand
  obtain ⟨s₂, hfirst', hcont₂⟩ := (h .operand).run hcont₁.deepened hfirst hst₂
  obtain ⟨s₃, hoperand', hcont₃⟩ := (h (.chain first .neg)).run hcont₂ hoperand hclosable
  rw [← hcont₁.nesting] at hlimit
  exact ⟨s₃.raised, signed_ok_iff.mpr ⟨sign, token, s₁, first, s₂, operand, s₃, hnext', hkind,
    hlimit, hfirst', hoperand', rfl, he⟩, hcont₃.raised⟩

/-- Within parentheses there is something to come: the closing one. So the condition holds of the
content whatever comes behind, and this is where it is used for more than being handed on. -/
theorem continues_paren (h : Continuing inner) (hmoving : Moving inner) :
    Continues (read inner .paren) := by
  refine ⟨forward_read hmoving .paren, ?_⟩
  intro rest st s e st' hcont hread hclosable
  obtain ⟨opening, st₁, kind, content, st₂, closing, st₃, hopening, hopen, hlimit, hahead, hne,
    hcontent, hclosing, hclose, rfl, he⟩ := paren_ok_iff.mp hread
  obtain ⟨s₁, hopening', hcont₁⟩ := hcont.next hopening (hopen ▸ TokenKind.noConfusion)
  have hst₂ : Closable st₂ := .inr (by rw [ahead_of_next hclosing]; exact Option.some_ne_none _)
  obtain ⟨s₂, hcontent', hcont₂⟩ := (h .expr).run hcont₁.inside hcontent hst₂
  obtain ⟨s₃, hclosing', hcont₃⟩ := hcont₂.next hclosing (hclose ▸ TokenKind.noConfusion)
  rw [← hcont₁.nesting] at hlimit
  obtain ⟨token, hahead, hkind⟩ := Option.map_eq_some_iff.mp hahead
  -- no line end comes next here, as they do not count within
  have hahead' := hcont₁.inside.ahead_of_kind hahead (kind_ne_newLine_of_inside hahead)
  have hahead' : s₁.inside.ahead.map (·.kind) = some kind := by
    rw [hahead', Option.map_some, hkind]
  exact ⟨s₃.outside, paren_ok_iff.mpr ⟨opening, s₁, kind, content, s₂, closing, s₃, hopening',
    hopen, hlimit, hahead', hne, hcontent', hclosing', hclose, rfl, he⟩, hcont₃.outside⟩

/-- A turn of a chain looks for an operator. At the end of a line there is none in either text. -/
theorem continues_chainTurn (h : Continuing inner) (hmoving : Moving inner) (grown : Expr × Nat) :
    Continues (chainTurn inner floor grown) := by
  refine ⟨forward_chainTurn hmoving grown, ?_⟩
  obtain ⟨lhs, height⟩ := grown
  intro rest st s next st' hcont hturn hclosable
  have hst : Closable st := hclosable.of_forward (forward_chainTurn hmoving _) hturn
  cases next with
  | none =>
    obtain ⟨rfl, hstops⟩ := chainTurn_none_iff.mp hturn
    refine ⟨s, chainTurn_none_iff.mpr ⟨rfl, ?_⟩, hcont⟩
    rwa [StopsBelow, hcont.aheadOp hst]
  | some grown =>
    obtain ⟨op, token, st₁, first, st₂, rhs, hahead, hfloor, hnext, hfirst, hrhs, hheight,
      hgrown⟩ := chainTurn_some_iff.mp hturn
    obtain ⟨token', hahead', hkind, -⟩ := aheadOp_eq_some_iff.mp hahead
    obtain rfl : token = token' := Option.some.inj ((ahead_of_next hnext).symm.trans hahead')
    obtain ⟨s₁, hnext', hcont₁⟩ := hcont.next hnext (hkind ▸ op.kind_ne_newLine)
    have hst₂ : Closable st₂ := hclosable.of_forward (h _).forward hrhs
    obtain ⟨s₂, hfirst', hcont₂⟩ := (h .operand).run hcont₁ hfirst hst₂
    obtain ⟨s', hrhs', hcont'⟩ := (h (.rightSide op first)).run hcont₂ hrhs hclosable
    rw [← hcont.aheadOp hst] at hahead
    exact ⟨s', chainTurn_some_iff.mpr ⟨op, token, s₁, first, s₂, rhs, hahead, hfloor, hnext',
      hfirst', hrhs', hheight, hgrown⟩, hcont'⟩

theorem continues_rightSideTurn (h : Continuing inner) (hmoving : Moving inner) (rhs : Expr) :
    Continues (rightSideTurn inner op rhs) := by
  refine ⟨forward_rightSideTurn hmoving rhs, ?_⟩
  intro rest st s next st' hcont hturn hclosable
  have hst : Closable st := hclosable.of_forward (forward_rightSideTurn hmoving _) hturn
  cases next with
  | none =>
    obtain ⟨rfl, hstops⟩ := rightSideTurn_none_iff.mp hturn
    refine ⟨s, rightSideTurn_none_iff.mpr ⟨rfl, ?_⟩, hcont⟩
    rwa [StopsAfter, hcont.aheadOp hst]
  | some grown =>
    obtain ⟨following, span, hahead, ⟨hlt, hrun⟩ | ⟨hlt, hright, hrun⟩⟩ :=
      rightSideTurn_some_iff.mp hturn
    · rw [← hcont.aheadOp hst] at hahead
      obtain ⟨s', hrun', hcont'⟩ := (h _).run hcont hrun hclosable
      exact ⟨s', rightSideTurn_some_iff.mpr ⟨following, span, hahead, .inl ⟨hlt, hrun'⟩⟩, hcont'⟩
    · rw [← hcont.aheadOp hst] at hahead
      obtain ⟨s', hrun', hcont'⟩ := (continues_deeper (h _)).run hcont hrun hclosable
      exact ⟨s', rightSideTurn_some_iff.mpr ⟨following, span, hahead, .inr ⟨hlt, hright, hrun'⟩⟩,
        hcont'⟩

/-- One layer, given the layer below. -/
theorem continuing_read (h : Continuing inner) (hmoving : Moving inner) :
    Continuing (read inner) := by
  intro phrase
  cases phrase with
  | expr => exact continues_expr h hmoving
  | operand => exact continues_operand h hmoving
  | signed => exact continues_signed h hmoving
  | paren => exact continues_paren h hmoving
  | chain lhs floor =>
    apply continues_bind _ (fun _ => continues_pure _)
    exact continues_grow (continues_chainTurn h hmoving) (consuming_chainTurn hmoving floor) _
  | rightSide op rhs =>
    exact continues_grow (continues_rightSideTurn h hmoving) (consuming_rightSideTurn hmoving op)
      rhs

/-- The induction on the layers. The lowest never succeeds. -/
theorem continuing_layers (depth : Nat) : Continuing (layers depth) := by
  induction depth with
  | zero =>
    intro phrase
    refine ⟨(moving_layers 0).forward phrase, ?_⟩
    intro rest st s e st' _ h
    exact (layers_zero_ne_ok h).elim
  | succ depth ih =>
    rw [layers_succ]
    exact continuing_read ih (moving_layers depth)

end Phrase

/-! ## Statements

Here no parenthesis is open before, and so none is open behind. The condition holds of the state at
the end, and need not be supposed any more. -/

namespace Parser

variable {st st' s : ParserState} {rest : List Token}

theorem continues_expr : Continues Parser.expr :=
  Phrase.continuing_layers Phrase.callDepth .expr

theorem continues_ident : Continues (attempt (tokenAs Token.ident)) := by
  apply continues_attempt
  apply continues_tokenAs
  intro token target h
  rw [(Token.ident_ok_iff.mp h).1]
  exact TokenKind.noConfusion

theorem continues_mark {kind : TokenKind} (hkind : kind ≠ .newLine) :
    Continues (discard (attempt (tokenAs (Token.ofKind kind)))) := by
  apply continues_discard
  apply continues_attempt
  apply continues_tokenAs
  intro token _ h
  rw [(Token.ofKind_ok_iff.mp h).1]
  exact hkind

/-- A name, a mark and an expression are read, whatever is made of them. -/
theorem continues_binding {kind : TokenKind} (hkind : kind ≠ .newLine) (f : Ident → Expr → Stmt) :
    Continues (do
      let target ← attempt (tokenAs Token.ident)
      discard (attempt (tokenAs (Token.ofKind kind)))
      let value ← attempt Parser.expr
      return f target value) := by
  apply continues_bind continues_ident
  intro target
  apply continues_bind (continues_mark hkind)
  intro _
  exact continues_bind (continues_attempt continues_expr) fun _ => continues_pure _

theorem continues_assignment : Continues assignment :=
  continues_binding TokenKind.noConfusion
    fun target value => .assign target value (target.span.through value.span)

theorem continues_assignTurn (span : Span) : Continues (assignTurn span) := by
  apply continues_ifAhead TokenKind.noConfusion _ (continues_pure none)
  apply continues_bind (continues_mark TokenKind.noConfusion)
  intro _
  exact continues_bind (continues_attempt continues_expr) fun _ => continues_pure _

/-- An assignment is read with all that is assigned to it in turn. -/
theorem continues_assignments : Continues (do
    let first ← attempt assignment
    if (← upcomingKind) ≠ some .assign then return first
    let last ← grow assignTurn first.span
    return .unsupported .chainedAssign (first.span.through last)) := by
  apply continues_bind (continues_attempt continues_assignment)
  intro first
  simp only [ne_eq, ite_not]
  apply continues_ifAhead TokenKind.noConfusion _ (continues_pure first)
  apply continues_bind _ fun _ => continues_pure _
  exact continues_grow continues_assignTurn consuming_assignTurn first.span

/-- It does not matter what a list goes on with if that is not looked for in it. -/
theorem isPrefixOf_append {kinds xs ys : List TokenKind} (h : ∀ kind ∈ ys.head?, kind ∉ kinds) :
    kinds.isPrefixOf (xs ++ ys) = kinds.isPrefixOf xs := by
  induction xs generalizing kinds with
  | nil =>
    cases kinds with
    | nil => rfl
    | cons kind kinds =>
      cases ys with
      | nil => rfl
      | cons y ys =>
        have hne : kind ≠ y := by
          intro heq
          exact h y rfl (heq ▸ List.mem_cons_self)
        rw [List.nil_append, List.isPrefixOf_cons_cons, beq_false_of_ne hne, Bool.false_and]
        rfl
  | cons x xs ih =>
    cases kinds with
    | nil => rfl
    | cons kind kinds =>
      rw [List.cons_append, List.isPrefixOf_cons_cons, List.isPrefixOf_cons_cons,
        ih fun y hy hmem => h y hy (List.mem_cons_of_mem kind hmem)]

/-- What a statement is shows before the line ends. The kinds that are looked for are none of line
ends, so the answer is settled at the end of the line at the latest. -/
theorem upcomingAre_of_continued (h : Continued rest st s) (hopen : st.openParens = 0)
    (kinds : List TokenKind) (hkinds : .newLine ∉ kinds) :
    upcomingAre kinds s = .ok (kinds.isPrefixOf (st.upcoming.map (·.kind))) s := by
  obtain ⟨left, ending, newLine, hst, hs, hending, hnewLine⟩ := h.after
  have hloud : ∀ t : Token, t.kind = .newLine → st.isQuiet t = false := by
    intro t ht
    simp [isQuiet, hopen, ht]
  have hquiet : s.isQuiet = st.isQuiet := funext h.isQuiet
  rw [upcomingAre, upcoming, upcoming, hst, hs, hquiet, List.filter_append, List.filter_append,
    List.map_append, List.map_append, isPrefixOf_append, isPrefixOf_append]
  · cases ending with
    | none => simp
    | some token => simpa [hloud token (hending token rfl), hending token rfl] using hkinds
  · simpa [hloud newLine hnewLine, hnewLine] using hkinds

/-- A statement is read in both texts. It is not stated as `Continues`, since the lookahead for its
first tokens is right only with no parenthesis open. -/
theorem continues_statement {stmt : Stmt} (hcont : Continued rest st s) (hopen : st.openParens = 0)
    (h : statement st = .ok stmt st') :
    ∃ s', statement s = .ok stmt s' ∧ Continued rest st' s' := by
  obtain ⟨raw, hpassed⟩ := forward_statement h
  have hclosable : Closable st' := .inl (hpassed.openParens.trans hopen)
  -- the first two tokens are of the same kinds in both texts, with a line end behind or without
  have hassign := upcomingAre_of_continued hcont hopen [.name, .assign] (by decide)
  have hcompound := upcomingAre_of_continued hcont hopen [.name, .compoundAssign] (by decide)
  rw [statement, bind_of_ok hassign]
  obtain ⟨isAssign, st₁, hanswer, h⟩ := bind_ok_iff.mp h
  cases hanswer
  split at h
  next hkinds =>
    rw [if_pos hkinds]
    exact continues_assignments.run hcont h hclosable
  next hkinds =>
    rw [if_neg hkinds, bind_of_ok hcompound]
    obtain ⟨isCompound, st₁, hanswer, h⟩ := bind_ok_iff.mp h
    cases hanswer
    split at h
    next hkinds =>
      rw [if_pos hkinds]
      exact (continues_binding TokenKind.noConfusion _).run hcont h hclosable
    next hkinds =>
      rw [if_neg hkinds]
      exact (continues_bind (continues_attempt continues_expr) fun _ => continues_pure _).run
        hcont h hclosable

/-! ## Programs

The loop over the statements. It goes through the first text to its end, and the second text is then
behind the line end; what stands there is left to be read with the statements so far. -/

/-- Either the texts are still alike up to a line end, or the first has come to its end and the
second to the line behind. -/
def Parting (rest : List Token) (st s : ParserState) : Prop :=
  Continued rest st s ∨ st.ahead = none ∧ s.cursor.after = rest

theorem ahead_of_after_nil (h : st.cursor.after = []) : st.ahead = none := by
  rw [ahead, h]
  rfl

/-- A separator is passed in both texts, and it may be the line end at which they part. -/
theorem parting_of_separator {token : Token} (hcont : Continued rest st s)
    (hnext : next st = .ok token st') (hkind : token.kind.isSeparator) :
    ∃ token₁ s', next s = .ok token₁ s' ∧ token₁.kind.isSeparator ∧ Parting rest st' s' := by
  rcases hcont.next_cases hnext with
    ⟨s', hnext', hcont'⟩ | ⟨-, hnil, newLine, s', hnext', hline, hs⟩
  · exact ⟨token, s', hnext', hkind, .inl hcont'⟩
  · refine ⟨newLine, s', hnext', ?_, .inr ⟨ahead_of_after_nil hnil, hs⟩⟩
    rw [hline]
    rfl

/-- Where the first text ends, the second has its line end for a separator. -/
theorem parting_of_endOfStatement (hcont : Continued rest st s) (hopen : st.openParens = 0)
    (h : endOfStatement st = .ok () st') :
    ∃ s', endOfStatement s = .ok () s' ∧ Parting rest st' s' := by
  rcases endOfStatement_ok_iff.mp h with ⟨d, hnext⟩ | ⟨token, hnext, hkind⟩
  · obtain ⟨hnone, hnil, -⟩ := end_of_next hnext
    obtain ⟨newLine, s', hnext', hline, hs⟩ := hcont.next_of_ahead_none hopen hnone
    refine ⟨s', endOfStatement_of_separator hnext' ?_, .inr ⟨ahead_of_after_nil hnil, hs⟩⟩
    rw [hline]
    rfl
  · obtain ⟨token₁, s', hnext', hkind', hparting⟩ := parting_of_separator hcont hnext hkind
    exact ⟨s', endOfStatement_of_separator hnext' hkind', hparting⟩

/-- A separator in front of a program is passed. -/
theorem program_of_separator {token : Token} {stmts : List Stmt} (hnext : next st = .ok token st')
    (hkind : token.kind.isSeparator) : grow programTurn stmts st = grow programTurn stmts st' := by
  have hturn : separatorTurn () st = .ok (some ()) st' :=
    separatorTurn_some_iff.mpr ⟨token, hnext, hkind⟩
  have hseparators : separators st = separators st' := by
    rw [separators_eq, grow_of_some consuming_separatorTurn hturn]
  rw [grow_eq consuming_programTurn]
  exact bind_eq_bind (bind_eq_bind hseparators)

/-- At the end of the text the statements so far are the program. -/
theorem program_of_ahead_none {stmts : List Stmt} (h : st.ahead = none) :
    grow programTurn stmts st = .ok stmts st := by
  have hseparators : separators st = .ok () st := by
    rw [separators_eq]
    exact grow_of_idle (separatorTurn_none_iff.mpr ⟨rfl, by rw [h]; rfl⟩)
  exact grow_of_idle (programTurn_none_iff.mpr ⟨hseparators, h⟩)

/-- A statement at which both texts stand is read in both. That it is no separator that comes next
is supposed, as separators are passed one by one before. -/
theorem parting_of_programTurn {token : Token} {stmts more : List Stmt}
    (hcont : Continued rest st s) (hopen : st.openParens = 0) (hahead : st.ahead = some token)
    (hkind : token.kind.isSeparator = false) (h : programTurn stmts st = .ok (some more) st') :
    ∃ s', programTurn stmts s = .ok (some more) s' ∧ Parting rest st' s' := by
  obtain ⟨st₁, stmt, st₂, hseparators, -, hstmt, hheight, hend, rfl⟩ := programTurn_some_iff.mp h
  rw [separators_of_ahead hahead hkind] at hseparators
  cases hseparators
  have hahead' : s.ahead = some token := by
    apply hcont.ahead_of_kind hahead
    intro hline
    rw [hline] at hkind
    cases hkind
  obtain ⟨s₂, hstmt', hcont₂⟩ := continues_statement hcont hopen hstmt
  obtain ⟨raw, hpassed⟩ := forward_statement hstmt
  obtain ⟨s', hend', hparting⟩ :=
    parting_of_endOfStatement hcont₂ (hpassed.openParens.trans hopen) hend
  refine ⟨s', programTurn_some_iff.mpr ⟨s, stmt, s₂, separators_of_ahead hahead' hkind, ?_, hstmt',
    hheight, hend', rfl⟩, hparting⟩
  rw [hahead']
  exact Option.some_ne_none token

/-- What is read of the first text is read of the second up to its line end, and from there the
program goes on. The second run is not supposed to succeed: what it comes to is given as the run
from `s'`, with its success or its failure. -/
theorem program_of_parting {stmts all : List Stmt} (hparting : Parting rest st s)
    (hopen : st.openParens = 0) (h : grow programTurn stmts st = .ok all st') :
    ∃ s' raw, Passed raw s s' ∧ s'.cursor.after = rest ∧
      grow programTurn stmts s = grow programTurn all s' := by
  -- by the tokens that are left in the first text, statement by statement
  induction hn : st.remaining using Nat.strongRecOn generalizing stmts st s with
  | ind n ih =>
    cases hahead : st.ahead with
    | none =>
      rw [program_of_ahead_none hahead] at h
      cases h
      rcases hparting with hcont | ⟨-, hs⟩
      · obtain ⟨newLine, s', hnext, hline, hs⟩ := hcont.next_of_ahead_none hopen hahead
        obtain ⟨quiet, -, -, hpassed⟩ := passed_of_next hnext
        exact ⟨s', _, hpassed, hs, program_of_separator hnext (by rw [hline]; rfl)⟩
      · exact ⟨s, [], .refl s, hs, rfl⟩
    | some token =>
      have hcont : Continued rest st s := hparting.resolve_right (by simp [hahead])
      by_cases hkind : token.kind.isSeparator
      · obtain ⟨st₁, quiet, hnext, -⟩ := next_of_ahead hahead
        obtain ⟨token₁, s₁, hnext', hkind', hparting₁⟩ := parting_of_separator hcont hnext hkind
        obtain ⟨_, -, -, hpassed⟩ := passed_of_next hnext
        obtain ⟨_, -, -, hpassed'⟩ := passed_of_next hnext'
        rw [program_of_separator hnext hkind] at h
        have hless := advances_next hnext
        obtain ⟨s', raw, hpassed₁, hs, hgrow⟩ := ih st₁.remaining (by omega) hparting₁
          (hpassed.openParens.trans hopen) h rfl
        exact ⟨s', _, hpassed'.trans hpassed₁, hs, (program_of_separator hnext' hkind').trans hgrow⟩
      · rw [Bool.not_eq_true] at hkind
        rw [grow_eq consuming_programTurn, bind_ok_iff] at h
        obtain ⟨more, st₁, hturn, h⟩ := h
        cases more with
        | none =>
          obtain ⟨hseparators, hnone⟩ := programTurn_none_iff.mp hturn
          rw [separators_of_ahead hahead hkind] at hseparators
          cases hseparators
          rw [hahead] at hnone
          cases hnone
        | some more =>
          obtain ⟨s₁, hturn', hparting₁⟩ := parting_of_programTurn hcont hopen hahead hkind hturn
          obtain ⟨_, hpassed⟩ := forward_programTurn stmts hturn
          obtain ⟨_, hpassed'⟩ := forward_programTurn stmts hturn'
          have hless := consuming_programTurn.less hturn
          obtain ⟨s', raw, hpassed₁, hs, hgrow⟩ := ih st₁.remaining (by omega) hparting₁
            (hpassed.openParens.trans hopen) h rfl
          exact ⟨s', _, hpassed'.trans hpassed₁, hs,
            (grow_of_some consuming_programTurn hturn').trans hgrow⟩

end Parser

end ThreeAddress
