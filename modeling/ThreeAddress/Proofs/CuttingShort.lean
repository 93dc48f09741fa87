import ThreeAddress.Proofs.Joining

/-!
# Reading a text cut short

A parser that succeeds has come to some place in the text. Of what stands behind that place it has
seen no more than that nothing there goes on with what it has read. So it does the same if the text
is cut at that place, or at a later one.

Two texts are read side by side here that are the same up to a cut (`CutShort`): there the first
goes on with any tokens, and the second ends or has a separator. What succeeds on the first text and
stays in front of the cut does the same on the second (`Repeats`).

At the cut the texts differ in what comes next. Either that makes no difference, as a separator goes
on with nothing, or the parser takes in what comes next in the first text (`Takes`), and then the
cut is further on.

The tokens of a text that is cut short between two tokens are the first tokens of the whole
(`Token.scan_joined`), and a semicolon at the cut is a token of its own.

The direction matters. It is assumed that the first text succeeds and shown that the second does,
and not the other way round: with less to read, the second might succeed where the first goes on and
fails. So the lemmas start from a run of the first, take its steps apart by what they say of success
(`Steps`, `Climbing`), and repeat them.
-/

set_option autoImplicit false

namespace ThreeAddress

open ThreeAddress.Parser ThreeAddress.ParserState

theorem BinOp.isSeparator_kind (op : BinOp) : op.kind.isSeparator = false := by
  cases op <;> rfl

namespace ParserState

/-! ## Places that are alike up to a cut

The relation between two states that a run of both goes through, and what each step of reading does
with it. Where tokens are read in front of the cut, it is kept; where the next token is only looked
at, it may be across the cut, and the second text has something else there. -/

/-- The tokens `right` are still to come. It is a condition on the state in which a run ends; as
reading only goes forward, it then holds of all states on the way. -/
def InFront (right : List Token) (st : ParserState) : Prop := right <:+ st.cursor.after

/-- The texts go on in the same way from both places up to a cut. There the first goes on with
`right`, and the second ends, but for a separator that it may have.

Behind that separator the second text ends as well. Both counters are the same, so that what is
skipped over and what is too deep is the same in both. -/
structure CutShort (right : List Token) (ending : Option Token) (st s : ParserState) : Prop where
  after : ∃ left, st.cursor.after = left ++ right ∧ s.cursor.after = left ++ ending.toList
  separates : ∀ t ∈ ending, t.kind.isSeparator
  nesting : s.nesting = st.nesting
  openParens : s.openParens = st.openParens

/-- On the way from one place to the other, the token that comes next is read. Then it stands in
front of whatever comes after the second place, and in particular in front of a cut there. -/
def Takes (st st' : ParserState) : Prop :=
  ∃ token st₁, next st = .ok token st₁ ∧ st'.cursor.after <:+ st₁.cursor.after

variable {right : List Token} {ending : Option Token} {st st' st₁ s : ParserState} {token : Token}

/-- An expression has a token, and takes the next one. -/
theorem Takes.of_parsed {e : Expr} (h : Parsed st e st') : Takes st st' := by
  obtain ⟨ts, hconsumes, hyields⟩ := h.reads
  cases hconsumes with
  | nil => exact (hyields.ne_nil rfl).elim
  | cons hnext hrest =>
    obtain ⟨raw, hafter, -⟩ := hrest.exists_passed
    exact ⟨_, _, hnext, raw, hafter.symm⟩

theorem Takes.trans_suffix (h : Takes st st₁)
    (hsuffix : st'.cursor.after <:+ st₁.cursor.after) : Takes st st' := by
  obtain ⟨token, st₂, hnext, hmore⟩ := h
  exact ⟨token, st₂, hnext, hsuffix.trans hmore⟩

namespace CutShort

/-! The counters change in step in both texts, and the tokens not at all. -/

theorem deepened (h : CutShort right ending st s) : CutShort right ending st.deepened s.deepened :=
  ⟨h.after, h.separates, congrArg (· + 1) h.nesting, h.openParens⟩

theorem raised (h : CutShort right ending st s) : CutShort right ending st.raised s.raised :=
  ⟨h.after, h.separates, congrArg (· - 1) h.nesting, h.openParens⟩

theorem inside (h : CutShort right ending st s) : CutShort right ending st.inside s.inside :=
  ⟨h.after, h.separates, congrArg (· + 1) h.nesting, congrArg (· + 1) h.openParens⟩

theorem outside (h : CutShort right ending st s) : CutShort right ending st.outside s.outside :=
  ⟨h.after, h.separates, congrArg (· - 1) h.nesting, congrArg (· - 1) h.openParens⟩

theorem isQuiet_eq (h : CutShort right ending st s) : s.isQuiet = st.isQuiet := by
  funext t
  rw [isQuiet, isQuiet, h.openParens]

/-- A token in front of the cut is read in both texts. -/
theorem next (h : CutShort right ending st s) (hnext : Parser.next st = .ok token st')
    (hfront : InFront right st') :
    ∃ s', Parser.next s = .ok token s' ∧ CutShort right ending st' s' := by
  obtain ⟨left, hst, hs⟩ := h.after
  obtain ⟨more, hmore⟩ := hfront
  obtain ⟨quiet, hquiet, hloud, hpassed⟩ := passed_of_next hnext
  rw [hpassed.after, ← hmore, ← List.append_assoc] at hst
  -- what the texts have in common is what has been read, and then what is left up to the cut
  obtain rfl := List.append_cancel_right hst
  rw [List.append_assoc, List.append_assoc, List.singleton_append] at hs
  rw [← h.isQuiet_eq] at hquiet hloud
  obtain ⟨s', hnext', hafter, hpassed'⟩ := next_of_append hs hquiet hloud
  refine ⟨s', hnext', ⟨more, hmore.symm, hafter⟩, h.separates, ?_, ?_⟩
  · rw [hpassed'.nesting, hpassed.nesting, h.nesting]
  · rw [hpassed'.openParens, hpassed.openParens, h.openParens]

/-- If the token that comes next is read before the cut, it is the same in both texts. This is how a
decision by that token is carried over: whoever decides in favour of something reads it then. -/
theorem ahead_eq_of_takes (h : CutShort right ending st s) (htakes : Takes st st')
    (hfront : InFront right st') : s.ahead = st.ahead := by
  obtain ⟨token, st₁, hnext, hsuffix⟩ := htakes
  obtain ⟨s₁, hnext', -⟩ := h.next hnext (hfront.trans hsuffix)
  rw [ahead_of_next hnext, ahead_of_next hnext']

/-- The same comes next in both texts, unless it is the separator at the cut or the end of the
second text. This is for decisions against something, where nothing is read and the cut may be right
here. -/
theorem ahead_cases (h : CutShort right ending st s) :
    s.ahead = st.ahead ∨ ∀ t ∈ s.ahead, t.kind.isSeparator := by
  obtain ⟨left, hst, hs⟩ := h.after
  rw [ahead, ahead, hst, hs, h.isQuiet_eq, List.find?_append, List.find?_append]
  cases left.find? (!st.isQuiet ·) with
  | some token => exact .inl rfl
  | none =>
    right
    intro t ht
    exact h.separates t (Option.mem_toList.mp (List.mem_of_find?_eq_some ht))

/-- What does not come next in the first text does not in the second, except for separators. The
hypothesis on the kind cannot be dropped: a separator at the cut is news. -/
theorem ahead_kind_ne (h : CutShort right ending st s) {kind : TokenKind}
    (hkind : kind.isSeparator = false) (hne : st.ahead.map (·.kind) ≠ some kind) :
    s.ahead.map (·.kind) ≠ some kind := by
  rcases h.ahead_cases with heq | hseparates
  · rwa [heq]
  · intro hs
    obtain ⟨token, hahead, rfl⟩ := Option.map_eq_some_iff.mp hs
    rw [hseparates token hahead] at hkind
    cases hkind

/-- At the cut no operator comes next in the second text. -/
theorem aheadOp_cases (h : CutShort right ending st s) :
    s.aheadOp = st.aheadOp ∨ s.aheadOp = none := by
  rcases h.ahead_cases with heq | hseparates
  · left
    rw [aheadOp, aheadOp, heq]
  · right
    cases hop : s.aheadOp with
    | none => rfl
    | some op =>
      obtain ⟨token, hahead, hkind, -⟩ := aheadOp_eq_some_iff.mp hop
      have hseparator := hseparates token hahead
      rw [hkind, op.1.isSeparator_kind] at hseparator
      cases hseparator

theorem aheadOp_eq_of_takes (h : CutShort right ending st s) (htakes : Takes st st')
    (hfront : InFront right st') : s.aheadOp = st.aheadOp := by
  rw [aheadOp, aheadOp, h.ahead_eq_of_takes htakes hfront]

/-! Where the first text stops, the second does. It stops for the same reason, or because it is at
the cut, where no operator comes. -/

theorem stopsBelow (h : CutShort right ending st s) {floor : Precedence}
    (hstops : st.StopsBelow floor) : s.StopsBelow floor := by
  rcases h.aheadOp_cases with heq | hnone
  · rwa [StopsBelow, heq]
  · exact stopsBelow_of_none hnone floor

theorem stopsAfter (h : CutShort right ending st s) {op : BinOp} (hstops : st.StopsAfter op) :
    s.StopsAfter op := by
  rcases h.aheadOp_cases with heq | hnone
  · rwa [StopsAfter, heq]
  · intro following span hop
    rw [hnone] at hop
    cases hop

end CutShort

end ParserState

/-! ## Parsers that read alike in front of a cut

The rules by which `Repeats` goes up through the grammar. That a parser only goes forward is part of
it, since a sequence has to stay in front of the cut with its first part for the second to do so. -/

namespace Parser

variable {α β σ : Type} {p q : Parser α} {f : α → Parser β} {st st' s : ParserState}
  {right : List Token} {ending : Option Token}

/-- What is left behind a parser is a suffix of what was left before it. This is the form in which
`Forward` meets `InFront`. -/
theorem suffix_of_forward (hp : Forward p) {a : α} (h : p st = .ok a st') :
    st'.cursor.after <:+ st.cursor.after := by
  obtain ⟨raw, hpassed⟩ := hp h
  exact ⟨raw, hpassed.after.symm⟩

/-- What succeeds without going over a cut does so on the text that is cut short. The value is the
same, with its ranges, since the tokens in front of the cut are. -/
structure Repeats (p : Parser α) : Prop where
  forward : Forward p
  run : ∀ {right : List Token} {ending : Option Token} {st s : ParserState} {a : α}
    {st' : ParserState}, CutShort right ending st s → p st = .ok a st' → InFront right st' →
      ∃ s', p s = .ok a s' ∧ CutShort right ending st' s'

theorem repeats_pure (a : α) : Repeats (pure a : Parser α) where
  forward := forward_pure a
  run := by
    intro right ending st s b st' hcut h _
    obtain ⟨rfl, rfl⟩ := pure_ok_iff.mp h
    exact ⟨s, rfl, hcut⟩

/-- The first parser stops in front of the cut because the second, which goes on from there, does.
-/
theorem repeats_bind (hp : Repeats p) (hf : ∀ a, Repeats (f a)) : Repeats (p >>= f) where
  forward := forward_bind hp.forward fun a => (hf a).forward
  run := by
    intro right ending st s b st' hcut h hfront
    obtain ⟨a, st₁, ha, hb⟩ := bind_ok_iff.mp h
    obtain ⟨s₁, ha', hcut₁⟩ := hp.run hcut ha (hfront.trans (suffix_of_forward (hf a).forward hb))
    obtain ⟨s', hb', hcut'⟩ := (hf a).run hcut₁ hb hfront
    exact ⟨s', bind_ok_iff.mpr ⟨a, s₁, ha', hb'⟩, hcut'⟩

theorem repeats_attempt (hp : Repeats p) : Repeats (attempt p) where
  forward := forward_attempt hp.forward
  run := by
    intro right ending st s a st' hcut h hfront
    obtain ⟨s', hp', hcut'⟩ := hp.run hcut (attempt_ok_iff.mp h) hfront
    exact ⟨s', attempt_ok_iff.mpr hp', hcut'⟩

theorem repeats_discard (hp : Repeats p) : Repeats (discard p) :=
  repeats_bind hp fun _ => repeats_pure ()

theorem repeats_deeper (hp : Repeats p) : Repeats (deeper p) where
  forward := forward_deeper hp.forward
  run := by
    intro right ending st s a st' hcut h hfront
    obtain ⟨hlimit, st₁, hrun, rfl⟩ := deeper_ok_iff.mp h
    obtain ⟨s₁, hrun', hcut'⟩ := hp.run hcut.deepened hrun hfront
    rw [← hcut.nesting] at hlimit
    exact ⟨s₁.raised, deeper_ok_iff.mpr ⟨hlimit, s₁, hrun', rfl⟩, hcut'.raised⟩

/-- A token that is read in front of the cut is the same in both texts, and so is what is made of
it. There is no rule for a lookahead on its own: at the cut its outcome differs. -/
theorem repeats_tokenAs (convert : Token → Except SyntaxFault α) : Repeats (tokenAs convert) where
  forward := forward_tokenAs convert
  run := by
    intro right ending st s a st' hcut h hfront
    obtain ⟨token, hnext, hconvert⟩ := tokenAs_ok_iff.mp h
    obtain ⟨s', hnext', hcut'⟩ := hcut.next hnext hfront
    exact ⟨s', tokenAs_ok_iff.mpr ⟨token, hnext', hconvert⟩, hcut'⟩

/-- A choice by what comes next, if what is chosen for takes that in. If the choice is for `p`, the
token is in front of the cut; if it is against it, there is at most a separator in the other text,
which `kind` is not. -/
theorem repeats_ifAhead {kind : TokenKind} (hkind : kind.isSeparator = false)
    (htakes : ∀ {st a st'}, st.ahead.map (·.kind) = some kind → p st = .ok a st' → Takes st st')
    (hp : Repeats p) (hq : Repeats q) :
    Repeats (do if (← upcomingKind) = some kind then p else q) where
  forward := forward_bind forward_upcomingKind fun _ => forward_ite hp.forward hq.forward
  run := by
    intro right ending st s a st' hcut h hfront
    rw [bind_of_ok (upcomingKind_eq st)] at h
    rw [bind_of_ok (upcomingKind_eq s)]
    split at h
    next hahead =>
      rw [hcut.ahead_eq_of_takes (htakes hahead h) hfront, if_pos hahead]
      exact hp.run hcut h hfront
    next hahead =>
      rw [if_neg (hcut.ahead_kind_ne hkind hahead)]
      exact hq.run hcut h hfront

/-- A loop whose turns repeat. It needs `Consuming`, as the number of turns allowed depends on the
tokens that are left, and these are fewer in the second text; that there are enough in both is what
`grow_eq` turns the loop into equations for. -/
theorem repeats_grow {turn : σ → Parser (Option σ)} (hturn : ∀ a, Repeats (turn a))
    (hconsuming : Consuming turn) (a : σ) : Repeats (grow turn a) where
  forward := forward_grow (fun a => (hturn a).forward) a
  run := by
    intro right ending st s b st' hcut h hfront
    -- by the tokens that are left in the first text, turn by turn
    induction hn : st.remaining using Nat.strongRecOn generalizing a st s with
    | ind n ih =>
      rw [grow_eq hconsuming, bind_ok_iff] at h
      obtain ⟨next, st₁, hnext, h⟩ := h
      cases next with
      | none =>
        obtain ⟨rfl, rfl⟩ := pure_ok_iff.mp h
        obtain ⟨s', hnext', hcut'⟩ := (hturn a).run hcut hnext hfront
        exact ⟨s', grow_of_none hconsuming hnext', hcut'⟩
      | some c =>
        have hless := hconsuming.less hnext
        have hforward : Forward (grow turn c) := forward_grow (fun a => (hturn a).forward) c
        obtain ⟨s₁, hnext', hcut₁⟩ :=
          (hturn a).run hcut hnext (hfront.trans (suffix_of_forward hforward h))
        rw [grow_of_some hconsuming hnext']
        exact ih st₁.remaining (by omega) c hcut₁ h rfl

end Parser

/-! ## Expressions

Each phrase is opened by the lemma that says when it succeeds, run again on the second text, and put
together by the same lemma. What differs from phrase to phrase is why the token that decides belongs
to what is read. -/

namespace Phrase

variable {inner : Phrase → Parser Expr} {floor : Precedence} {op : BinOp} {st st' : ParserState}

/-- Whatever phrase is read, it is read alike in front of a cut. -/
def Repeating (inner : Phrase → Parser Expr) : Prop := ∀ phrase, Repeats (inner phrase)

/-- A chain takes in the operator that comes next if that binds tightly enough. It is not part of
`Repeating`, and cannot be had from it: a right side asks for a chain because an operator has been
seen, and only the chain reads it. -/
def TakingOperators (inner : Phrase → Parser Expr) : Prop :=
  ∀ {lhs floor st e st' op span}, st.aheadOp = some (op, span) → ¬op.precedence < floor →
    inner (.chain lhs floor) st = .ok e st' → Takes st st'

/-- By what the first turn of the chain does. The lowest layer never succeeds, and every other is a
loop whose first turn cannot stop here. -/
theorem takingOperators_layers (depth : Nat) : TakingOperators (layers depth) := by
  intro lhs floor st e st' op span hahead hfloor h
  cases depth with
  | zero => exact (layers_zero_ne_ok h).elim
  | succ depth =>
    have hmoving := moving_layers depth
    rw [layers_succ] at h
    obtain ⟨height, hgrow⟩ := chain_ok_iff.mp h
    rw [grow_eq (consuming_chainTurn hmoving floor), bind_ok_iff] at hgrow
    obtain ⟨next, st₁, hturn, hgrow⟩ := hgrow
    cases next with
    | none => exact (hfloor ((chainTurn_none_iff.mp hturn).2 op span hahead)).elim
    | some grown =>
      obtain ⟨op', token, st₂, first, st₃, rhs, -, -, hnext, hfirst, hrhs, -⟩ :=
        chainTurn_some_iff.mp hturn
      have hmore := suffix_of_forward (forward_grow (forward_chainTurn hmoving) grown) hgrow
      have hrhs := suffix_of_forward (hmoving.forward _) hrhs
      have hfirst := suffix_of_forward (hmoving.forward _) hfirst
      exact ⟨token, st₂, hnext, hmore.trans (hrhs.trans hfirst)⟩

/-- The check for a closing parenthesis is a decision against something, and is repeated by
`ahead_kind_ne`. -/
theorem repeats_expr (h : Repeating inner) (hmoving : Moving inner) :
    Repeats (read inner .expr) := by
  refine ⟨forward_read hmoving .expr, ?_⟩
  intro right ending st s e st' hcut hread hfront
  obtain ⟨hclose, lhs, st₁, hlhs, hchain⟩ := expr_ok_iff.mp hread
  obtain ⟨s₁, hlhs', hcut₁⟩ :=
    (h .operand).run hcut hlhs (hfront.trans (suffix_of_forward (h _).forward hchain))
  obtain ⟨s', hchain', hcut'⟩ := (h (.chain lhs .any)).run hcut₁ hchain hfront
  exact ⟨s', expr_ok_iff.mpr ⟨hcut.ahead_kind_ne rfl hclose, lhs, s₁, hlhs', hchain'⟩, hcut'⟩

/-- Three kinds of operands, each beginning with a token of its own. That it belongs to the operand
follows from what the operand means as a whole, so the three need not be looked at one by one for
it. -/
theorem repeats_operand (h : Repeating inner) (hsound : Sound inner) (hmoving : Moving inner) :
    Repeats (read inner .operand) := by
  refine ⟨forward_read hmoving .operand, ?_⟩
  intro right ending st s e st' hcut hread hfront
  -- the token that decides which operand it is belongs to the operand
  have htakes : Takes st st' := .of_parsed (means_operand hsound hread).1
  have hsame := hcut.ahead_eq_of_takes htakes hfront
  obtain ⟨token, hahead, ⟨hsign, hrun⟩ | ⟨hparen, hrun⟩ | ⟨hnext, hvalue⟩⟩ :=
    operand_ok_iff.mp hread
  · rw [← hsame] at hahead
    obtain ⟨s', hrun', hcut'⟩ := (h .signed).run hcut hrun hfront
    exact ⟨s', operand_ok_iff.mpr ⟨token, hahead, .inl ⟨hsign, hrun'⟩⟩, hcut'⟩
  · rw [← hsame] at hahead
    obtain ⟨s', hrun', hcut'⟩ := (h .paren).run hcut hrun hfront
    exact ⟨s', operand_ok_iff.mpr ⟨token, hahead, .inr (.inl ⟨hparen, hrun'⟩)⟩, hcut'⟩
  · rw [← hsame] at hahead
    obtain ⟨s', hnext', hcut'⟩ := hcut.next hnext hfront
    exact ⟨s', operand_ok_iff.mpr ⟨token, hahead, .inr (.inr ⟨hnext', hvalue⟩)⟩, hcut'⟩

/-- A sign is read as a token, so nothing has to be said about the lookahead; the level is free in
the second text because the two are equally deep. -/
theorem repeats_signed (h : Repeating inner) (hmoving : Moving inner) :
    Repeats (read inner .signed) := by
  refine ⟨forward_read hmoving .signed, ?_⟩
  intro right ending st s e st' hcut hread hfront
  obtain ⟨sign, token, st₁, first, st₂, operand, st₃, hnext, hkind, hlimit, hfirst, hoperand, rfl,
    he⟩ := signed_ok_iff.mp hread
  have hfront₃ : InFront right st₃ := hfront
  have hfront₂ : InFront right st₂ := hfront₃.trans (suffix_of_forward (h _).forward hoperand)
  have hfront₁ : InFront right st₁.deepened :=
    hfront₂.trans (suffix_of_forward (h _).forward hfirst)
  obtain ⟨s₁, hnext', hcut₁⟩ := hcut.next hnext hfront₁
  obtain ⟨s₂, hfirst', hcut₂⟩ := (h .operand).run hcut₁.deepened hfirst hfront₂
  obtain ⟨s₃, hoperand', hcut₃⟩ := (h (.chain first .neg)).run hcut₂ hoperand hfront
  rw [← hcut₁.nesting] at hlimit
  exact ⟨s₃.raised, signed_ok_iff.mpr ⟨sign, token, s₁, first, s₂, operand, s₃, hnext', hkind,
    hlimit, hfirst', hoperand', rfl, he⟩, hcut₃.raised⟩

/-- The parentheses themselves are tokens that are read. The kind of the token behind the opening
one is looked at first, and belongs to the expression within. -/
theorem repeats_paren (h : Repeating inner) (hsound : Sound inner) (hmoving : Moving inner) :
    Repeats (read inner .paren) := by
  refine ⟨forward_read hmoving .paren, ?_⟩
  intro right ending st s e st' hcut hread hfront
  obtain ⟨opening, st₁, kind, content, st₂, closing, st₃, hopening, hopen, hlimit, hahead, hne,
    hcontent, hclosing, hclose, rfl, he⟩ := paren_ok_iff.mp hread
  have hfront₃ : InFront right st₃ := hfront
  have hfront₂ : InFront right st₂ := hfront₃.trans (suffix_of_forward forward_next hclosing)
  have hfront₁ : InFront right st₁.inside :=
    hfront₂.trans (suffix_of_forward (h _).forward hcontent)
  obtain ⟨s₁, hopening', hcut₁⟩ := hcut.next hopening hfront₁
  obtain ⟨s₂, hcontent', hcut₂⟩ := (h .expr).run hcut₁.inside hcontent hfront₂
  obtain ⟨s₃, hclosing', hcut₃⟩ := hcut₂.next hclosing hfront
  -- that something stands in the parentheses shows in a token that belongs to it
  have htakes : Takes st₁.inside st₂ := .of_parsed (hsound .expr hcontent)
  rw [← hcut₁.nesting] at hlimit
  rw [← hcut₁.inside.ahead_eq_of_takes htakes hfront₂] at hahead
  exact ⟨s₃.outside, paren_ok_iff.mpr ⟨opening, s₁, kind, content, s₂, closing, s₃, hopening',
    hopen, hlimit, hahead, hne, hcontent', hclosing', hclose, rfl, he⟩, hcut₃.outside⟩

/-- A turn that stops does so in both texts, perhaps for another reason. A turn that goes on reads
the operator. -/
theorem repeats_chainTurn (h : Repeating inner) (hmoving : Moving inner) (grown : Expr × Nat) :
    Repeats (chainTurn inner floor grown) := by
  refine ⟨forward_chainTurn hmoving grown, ?_⟩
  obtain ⟨lhs, height⟩ := grown
  intro right ending st s next st' hcut hturn hfront
  cases next with
  | none =>
    obtain ⟨rfl, hstops⟩ := chainTurn_none_iff.mp hturn
    exact ⟨s, chainTurn_none_iff.mpr ⟨rfl, hcut.stopsBelow hstops⟩, hcut⟩
  | some grown =>
    obtain ⟨op, token, st₁, first, st₂, rhs, hahead, hfloor, hnext, hfirst, hrhs, hheight,
      hgrown⟩ := chainTurn_some_iff.mp hturn
    have hfront₂ : InFront right st₂ := hfront.trans (suffix_of_forward (h _).forward hrhs)
    have hfront₁ : InFront right st₁ := hfront₂.trans (suffix_of_forward (h _).forward hfirst)
    obtain ⟨s₁, hnext', hcut₁⟩ := hcut.next hnext hfront₁
    obtain ⟨s₂, hfirst', hcut₂⟩ := (h .operand).run hcut₁ hfirst hfront₂
    obtain ⟨s', hrhs', hcut'⟩ := (h (.rightSide op first)).run hcut₂ hrhs hfront
    rw [← hcut.aheadOp_eq_of_takes ⟨token, st₁, hnext, List.suffix_rfl⟩ hfront₁] at hahead
    exact ⟨s', chainTurn_some_iff.mpr ⟨op, token, s₁, first, s₂, rhs, hahead, hfloor, hnext',
      hfirst', hrhs', hheight, hgrown⟩, hcut'⟩

/-- A turn of a right side looks at the operator and leaves it to a chain. That the chain takes it
is `TakingOperators`, with the operator binding as tightly as the chain asks in both cases. -/
theorem repeats_rightSideTurn (h : Repeating inner) (htaking : TakingOperators inner)
    (hmoving : Moving inner) (rhs : Expr) : Repeats (rightSideTurn inner op rhs) := by
  refine ⟨forward_rightSideTurn hmoving rhs, ?_⟩
  intro right ending st s next st' hcut hturn hfront
  cases next with
  | none =>
    obtain ⟨rfl, hstops⟩ := rightSideTurn_none_iff.mp hturn
    exact ⟨s, rightSideTurn_none_iff.mpr ⟨rfl, hcut.stopsAfter hstops⟩, hcut⟩
  | some grown =>
    obtain ⟨following, span, hahead, ⟨hlt, hrun⟩ | ⟨hlt, hright, hrun⟩⟩ :=
      rightSideTurn_some_iff.mp hturn
    · have htakes : Takes st st' := htaking hahead (Nat.lt_irrefl _) hrun
      obtain ⟨s', hrun', hcut'⟩ := (h _).run hcut hrun hfront
      rw [← hcut.aheadOp_eq_of_takes htakes hfront] at hahead
      exact ⟨s', rightSideTurn_some_iff.mpr ⟨following, span, hahead, .inl ⟨hlt, hrun'⟩⟩, hcut'⟩
    · obtain ⟨-, st₁, hchain, rfl⟩ := deeper_ok_iff.mp hrun
      have hahead' : st.deepened.aheadOp = some (following, span) := hahead
      have htakes : Takes st.deepened st₁ :=
        htaking hahead' (hright.1 ▸ Nat.lt_irrefl _) hchain
      have hsame : s.aheadOp = st.aheadOp := hcut.deepened.aheadOp_eq_of_takes htakes hfront
      obtain ⟨s', hrun', hcut'⟩ := (repeats_deeper (h _)).run hcut hrun hfront
      rw [← hsame] at hahead
      exact ⟨s', rightSideTurn_some_iff.mpr ⟨following, span, hahead, .inr ⟨hlt, hright, hrun'⟩⟩,
        hcut'⟩

/-- One layer, given the layer below it. Besides `Repeating` the layer below has to be sound and
moving; both are known of all layers, so they are not part of the induction. -/
theorem repeating_read (h : Repeating inner) (hsound : Sound inner)
    (htaking : TakingOperators inner) (hmoving : Moving inner) : Repeating (read inner) := by
  intro phrase
  cases phrase with
  | expr => exact repeats_expr h hmoving
  | operand => exact repeats_operand h hsound hmoving
  | signed => exact repeats_signed h hmoving
  | paren => exact repeats_paren h hsound hmoving
  | chain lhs floor =>
    apply repeats_bind _ (fun _ => repeats_pure _)
    exact repeats_grow (repeats_chainTurn h hmoving) (consuming_chainTurn hmoving floor) _
  | rightSide op rhs =>
    exact repeats_grow (repeats_rightSideTurn h htaking hmoving)
      (consuming_rightSideTurn hmoving op) rhs

theorem repeating_layers (depth : Nat) : Repeating (layers depth) := by
  induction depth with
  | zero =>
    intro phrase
    refine ⟨(moving_layers 0).forward phrase, ?_⟩
    intro right ending st s e st' _ h
    exact (layers_zero_ne_ok h).elim
  | succ depth ih =>
    rw [layers_succ]
    exact repeating_read ih (sound_layers depth) (takingOperators_layers depth)
      (moving_layers depth)

end Phrase

/-! ## Statements

What a statement is shows in its first two tokens. In front of the cut they are the same; where the
statement has only one token, the second is looked for across the cut, and then the second text
shows less. -/

namespace ParserState

variable {right : List Token} {ending : Option Token} {st st' s : ParserState} {token : Token}

/-- How the text that is cut short begins, the other does. This goes from the second text to the
first, and so it is used the other way round, for a way in which the first does not begin. A
separator is excluded, since it may stand only in the second. -/
theorem CutShort.begins_of_begins (h : CutShort right ending st s) {kinds : List TokenKind}
    (hkinds : ∀ kind ∈ kinds, kind.isSeparator = false) (hs : s.begins kinds) :
    st.begins kinds := by
  obtain ⟨left, hst, hs'⟩ := h.after
  rw [begins, upcoming, hs', h.isQuiet_eq, List.filter_append, List.map_append,
    isPrefixOf_append, List.isPrefixOf_iff_prefix] at hs
  · rw [begins, upcoming, hst, List.filter_append, List.map_append, List.isPrefixOf_iff_prefix]
    exact hs.trans (List.prefix_append _ _)
  · intro kind hhead hmem
    obtain ⟨token, htoken, rfl⟩ := List.mem_map.mp (List.mem_of_mem_head? hhead)
    have hseparator := h.separates token (Option.mem_toList.mp (List.mem_filter.mp htoken).1)
    rw [hkinds _ hmem] at hseparator
    cases hseparator

end ParserState

namespace Parser

variable {st st' st₁ s : ParserState} {right quiet : List Token} {ending : Option Token}
  {stmt : Stmt}

theorem repeats_expr : Repeats Parser.expr :=
  Phrase.repeating_layers Phrase.callDepth .expr

theorem repeats_mark (kind : TokenKind) :
    Repeats (discard (attempt (tokenAs (Token.ofKind kind)))) :=
  repeats_discard (repeats_attempt (repeats_tokenAs _))

theorem repeats_binding (kind : TokenKind) (f : Ident → Expr → Stmt) :
    Repeats (binding kind f) := by
  apply repeats_bind (repeats_attempt (repeats_tokenAs _))
  intro target
  apply repeats_bind (repeats_mark kind)
  intro _
  exact repeats_bind (repeats_attempt repeats_expr) fun _ => repeats_pure _

/-- Another `=` is taken in with what is assigned. -/
theorem takes_of_assignTurn {span : Span} {more : Option Span}
    (hahead : st.ahead.map (·.kind) = some .assign) (h : assignTurn span st = .ok more st') :
    Takes st st' := by
  rw [assignTurn, bind_of_ok (upcomingKind_eq st), if_pos hahead] at h
  obtain ⟨_, st₁, hmark, h⟩ := bind_ok_iff.mp h
  obtain ⟨mark, hmark⟩ := discard_ok_iff.mp hmark
  obtain ⟨token, hnext, -⟩ := tokenAs_ok_iff.mp (attempt_ok_iff.mp hmark)
  obtain ⟨value, st₂, hvalue, h⟩ := bind_ok_iff.mp h
  obtain ⟨-, rfl⟩ := pure_ok_iff.mp h
  exact ⟨token, st₁, hnext, suffix_of_forward forward_expr (attempt_ok_iff.mp hvalue)⟩

/-- One more assignment in a chain, or none. If there is no `=` in the first text, there is none at
the cut either. -/
theorem repeats_assignTurn (span : Span) : Repeats (assignTurn span) := by
  refine repeats_ifAhead rfl ?_ ?_ (repeats_pure none)
  · intro st more st' hahead h
    have hturn : assignTurn span st = .ok more st' := by
      rwa [assignTurn, bind_of_ok (upcomingKind_eq st), if_pos hahead]
    exact takes_of_assignTurn hahead hturn
  · apply repeats_bind (repeats_mark .assign)
    intro _
    exact repeats_bind (repeats_attempt repeats_expr) fun _ => repeats_pure _

theorem takes_of_grow_assignTurn {span last : Span}
    (hahead : st.ahead.map (·.kind) = some .assign) (h : grow assignTurn span st = .ok last st') :
    Takes st st' := by
  rw [grow_eq consuming_assignTurn, bind_ok_iff] at h
  obtain ⟨more, st₁, hturn, h⟩ := h
  apply (takes_of_assignTurn hahead hturn).trans_suffix
  cases more with
  | none => exact suffix_of_forward (forward_pure span) h
  | some more => exact suffix_of_forward (forward_grow forward_assignTurn more) h

theorem repeats_assignments : Repeats assignments := by
  apply repeats_bind (repeats_attempt (repeats_binding .assign _))
  intro first
  refine repeats_ifAhead rfl ?_ ?_ (repeats_pure first)
  · intro st stmt st' hahead h
    obtain ⟨last, st₁, hgrow, h⟩ := bind_ok_iff.mp h
    obtain ⟨-, rfl⟩ := pure_ok_iff.mp h
    exact takes_of_grow_assignTurn hahead hgrow
  · apply repeats_bind _ fun _ => repeats_pure _
    exact repeats_grow repeats_assignTurn consuming_assignTurn first.span

theorem repeats_expressionStatement : Repeats expressionStatement :=
  repeats_bind (repeats_attempt repeats_expr) fun _ => repeats_pure _

/-- What a statement is shows in tokens that belong to it, and the text that is cut short shows
nothing else. -/
theorem repeats_statement : Repeats statement := by
  refine ⟨forward_statement, ?_⟩
  intro right ending st s stmt st' hcut h hfront
  rw [statement_eq] at h
  split at h
  next =>
    obtain ⟨s', h', hcut'⟩ := repeats_assignments.run hcut h hfront
    refine ⟨s', ?_, hcut'⟩
    rw [statement_eq, if_pos (begins_of_assignments h'), h']
  next hassign =>
    -- a way in which the first text does not begin is none in which the second does
    have hassign' : ¬s.begins [.name, .assign] := mt (hcut.begins_of_begins (by decide)) hassign
    split at h
    next =>
      obtain ⟨s', h', hcut'⟩ := (repeats_binding .compoundAssign _).run hcut h hfront
      refine ⟨s', ?_, hcut'⟩
      rw [statement_eq, if_neg hassign', if_pos (begins_of_binding h'), augmentedAssignment, h']
    next hcompound =>
      have hcompound' : ¬s.begins [.name, .compoundAssign] :=
        mt (hcut.begins_of_begins (by decide)) hcompound
      obtain ⟨s', h', hcut'⟩ := repeats_expressionStatement.run hcut h hfront
      refine ⟨s', ?_, hcut'⟩
      rw [statement_eq, if_neg hassign', if_neg hcompound', h']

theorem takes_of_binding {kind : TokenKind} {f : Ident → Expr → Stmt}
    (h : binding kind f st = .ok stmt st') : Takes st st' := by
  obtain ⟨target, st₁, mark, st₂, value, hnext, -, hnext', -, hvalue, -⟩ := binding_ok_iff.mp h
  have hmark := suffix_of_forward forward_next hnext'
  exact ⟨target, st₁, hnext, (suffix_of_forward forward_expr hvalue).trans hmark⟩

/-- Every statement has a token and takes the next one. So a place in front of a statement is in
front of the cut by more than that place. -/
theorem takes_of_statement (h : statement st = .ok stmt st') : Takes st st' := by
  rw [statement_eq] at h
  split at h
  · obtain ⟨first, st₁, hfirst, h⟩ := bind_ok_iff.mp h
    rw [attempt_ok_iff, assignment_eq] at hfirst
    apply (takes_of_binding hfirst).trans_suffix
    rw [bind_of_ok (upcomingKind_eq st₁)] at h
    split at h
    · obtain ⟨last, st₂, hgrow, h⟩ := bind_ok_iff.mp h
      obtain ⟨-, rfl⟩ := pure_ok_iff.mp h
      exact suffix_of_forward (forward_grow forward_assignTurn _) hgrow
    · exact suffix_of_forward (forward_pure first) h
  split at h
  · exact takes_of_binding h
  · obtain ⟨value, st₁, hvalue, h⟩ := bind_ok_iff.mp h
    obtain ⟨-, rfl⟩ := pure_ok_iff.mp h
    exact .of_parsed (parsed_of_expr (attempt_ok_iff.mp hvalue))

/-! ## Programs

The program as a whole does not repeat, since it reads to the end and the ends differ. So the turns
in front of the cut are repeated one by one, and the last of them, which meets the cut, is treated
by itself. -/

/-- What stands in front of a statement is passed in both texts, as the statement is there in both.
Separators alone would not repeat: if they stand right at the cut, the second text has one more. -/
theorem separators_of_cutShort (hcut : CutShort right ending st s)
    (h : separators st = .ok () st₁) (htakes : Takes st₁ st') (hfront : InFront right st') :
    ∃ s₁, separators s = .ok () s₁ ∧ CutShort right ending st₁ s₁ := by
  rw [separators_eq] at h ⊢
  have hfront₁ : InFront right st₁ := by
    obtain ⟨token, st₂, hnext, hsuffix⟩ := htakes
    exact hfront.trans (hsuffix.trans (suffix_of_forward forward_next hnext))
  -- by the tokens that are left in the first text, one separator after the other
  induction hn : st.remaining using Nat.strongRecOn generalizing st s with
  | ind n ih =>
    rw [grow_eq consuming_separatorTurn, bind_ok_iff] at h
    obtain ⟨more, st₂, hturn, h⟩ := h
    cases more with
    | none =>
      obtain ⟨-, rfl⟩ := pure_ok_iff.mp h
      obtain ⟨rfl, hkind⟩ := separatorTurn_none_iff.mp hturn
      -- the separator at the cut is not here, since the statement is in front of it
      rw [← hcut.ahead_eq_of_takes htakes hfront] at hkind
      exact ⟨s, grow_of_idle (separatorTurn_none_iff.mpr ⟨rfl, hkind⟩), hcut⟩
    | some u =>
      have hless := consuming_separatorTurn.less hturn
      obtain ⟨token, hnext, hkind⟩ := separatorTurn_some_iff.mp hturn
      have hfront₂ : InFront right st₂ :=
        hfront₁.trans (suffix_of_forward (forward_grow forward_separatorTurn ()) h)
      obtain ⟨s₂, hnext', hcut₂⟩ := hcut.next hnext hfront₂
      rw [grow_of_some consuming_separatorTurn (b := ())
        (separatorTurn_some_iff.mpr ⟨token, hnext', hkind⟩)]
      exact ih st₂.remaining (by omega) hcut₂ h rfl

/-- A statement with what stands in front of it is read in both texts. That something comes next in
the second (`s₁.ahead ≠ none`) is what keeps the program from ending there. -/
theorem statement_of_cutShort {st₂ : ParserState} (hcut : CutShort right ending st s)
    (hseparators : separators st = .ok () st₁) (hstmt : statement st₁ = .ok stmt st₂)
    (hfront : InFront right st₂) :
    ∃ s₁ s₂, separators s = .ok () s₁ ∧ s₁.ahead ≠ none ∧ statement s₁ = .ok stmt s₂ ∧
      CutShort right ending st₂ s₂ := by
  have htakes := takes_of_statement hstmt
  obtain ⟨s₁, hseparators', hcut₁⟩ := separators_of_cutShort hcut hseparators htakes hfront
  obtain ⟨s₂, hstmt', hcut₂⟩ := repeats_statement.run hcut₁ hstmt hfront
  obtain ⟨token, s₃, hnext, -⟩ := takes_of_statement hstmt'
  refine ⟨s₁, s₂, hseparators', ?_, hstmt', hcut₂⟩
  rw [ahead_of_next hnext]
  exact Option.some_ne_none token

/-- A whole turn in front of the cut. It ends with a separator in the first text, which is in front
of the cut too; the end of the text cannot be, as long as anything stands behind the cut. -/
theorem programTurn_of_cutShort {stmts more : List Stmt} (hright : right ≠ [])
    (hcut : CutShort right ending st s) (h : programTurn stmts st = .ok (some more) st')
    (hfront : InFront right st') :
    ∃ s', programTurn stmts s = .ok (some more) s' ∧ CutShort right ending st' s' := by
  obtain ⟨st₁, stmt, st₂, hseparators, -, hstmt, hheight, hend, rfl⟩ := programTurn_some_iff.mp h
  have hfront₂ : InFront right st₂ := hfront.trans (suffix_of_forward forward_endOfStatement hend)
  obtain ⟨s₁, s₂, hseparators', hahead, hstmt', hcut₂⟩ :=
    statement_of_cutShort hcut hseparators hstmt hfront₂
  rcases endOfStatement_ok_iff.mp hend with ⟨d, hnext⟩ | ⟨token, hnext, hkind⟩
  · -- the first text does not end in front of the cut
    obtain ⟨-, hnil, -⟩ := end_of_next hnext
    rw [InFront, hnil, List.suffix_nil] at hfront
    exact (hright hfront).elim
  · obtain ⟨s', hnext', hcut'⟩ := hcut₂.next hnext hfront
    exact ⟨s', programTurn_some_iff.mpr ⟨s₁, stmt, s₂, hseparators', hahead, hstmt', hheight,
      endOfStatement_of_separator hnext' hkind, rfl⟩, hcut'⟩

/-- At the cut, a statement ends in the text that is cut short. Either it ends with the text, or
with the separator; this is the one place where it matters what stands there. No parenthesis may be
open, or a line end would be skipped. -/
theorem endOfStatement_of_cutShort (hcut : CutShort right ending st s) (hopen : st.openParens = 0)
    (hafter : st.cursor.after = quiet ++ right) (hquiet : ∀ t ∈ quiet, st.isQuiet t) :
    ∃ s', endOfStatement s = .ok () s' ∧ s'.ahead = none := by
  obtain ⟨left, hst, hs⟩ := hcut.after
  obtain rfl := List.append_cancel_right (hafter.symm.trans hst)
  rw [← hcut.isQuiet_eq] at hquiet
  cases ending with
  | none =>
    rw [Option.toList_none, List.append_nil] at hs
    obtain ⟨s', hend, hnone⟩ :=
      endOfStatement_of_none (ahead_eq_none_iff.mpr fun t ht => hquiet t (hs ▸ ht))
    exact ⟨s', hend, ahead_of_after_nil (List.eq_nil_of_length_eq_zero hnone)⟩
  | some separator =>
    have hkind := hcut.separates separator rfl
    have hloud : s.isQuiet separator = false := by
      have hne : separator.kind ≠ .whitespace := by
        intro heq
        rw [heq] at hkind
        cases hkind
      simp [isQuiet, hcut.openParens, hopen, hne]
    obtain ⟨s', hnext, hnil, -⟩ := next_of_append hs hquiet hloud
    exact ⟨s', endOfStatement_of_separator hnext hkind, ahead_of_after_nil hnil⟩

/-- Cut short behind it, the last statement is the end of the program. Here the first text is not
supposed to go on in any way: the statement has been read, and what comes behind it may be anything.
-/
theorem grow_of_cutShort {stmts : List Stmt} {st₂ : ParserState}
    (hcut : CutShort right ending st s) (hopen : st.openParens = 0)
    (hseparators : separators st = .ok () st₁) (hstmt : statement st₁ = .ok stmt st₂)
    (hheight : ∀ value, stmt.value? = some value → value.height ≤ heightLimit)
    (hafter : st₂.cursor.after = quiet ++ right) (hquiet : ∀ t ∈ quiet, st₂.isQuiet t) :
    ∃ s', grow programTurn stmts s = .ok (stmts ++ [stmt]) s' := by
  obtain ⟨s₁, s₂, hseparators', hahead, hstmt', hcut₂⟩ :=
    statement_of_cutShort hcut hseparators hstmt ⟨quiet, hafter.symm⟩
  obtain ⟨raw₁, hraw₁⟩ := forward_separators hseparators
  obtain ⟨raw₂, hraw₂⟩ := forward_statement hstmt
  obtain ⟨s', hend, hnone⟩ :=
    endOfStatement_of_cutShort hcut₂ ((hraw₁.trans hraw₂).openParens.trans hopen) hafter hquiet
  have hturn : programTurn stmts s = .ok (some (stmts ++ [stmt])) s' :=
    programTurn_some_iff.mpr ⟨s₁, stmt, s₂, hseparators', hahead, hstmt', hheight, hend, rfl⟩
  refine ⟨s', ?_⟩
  rw [grow_of_some consuming_programTurn hturn]
  exact program_of_ahead_none hnone

end Parser

/-! ## Texts cut short

So far the second text has been given by its tokens. Here these are shown to be the tokens of a
text: of what is in front of the cut, by itself or with a semicolon. -/

namespace TokenKind

variable {kind : TokenKind} {c : Char} {u word short text zs : List Char}

/-- The longest word of a text is that of any beginning of the text that has it. There are fewer
words to compare it with. -/
theorem IsLongest.of_prefix (h : IsLongest kind word text) (hword : word <+: short)
    (hshort : short <+: text) : IsLongest kind word short where
  isPrefix := hword
  ne_nil := h.ne_nil
  mem := h.mem
  length_le other u hu hbegins := h.length_le other u hu (hbegins.trans hshort)
  kind_eq := h.kind_eq
  symbol_last hkind other u hu hbegins := h.symbol_last hkind other u hu (hbegins.trans hshort)

/-- A semicolon is a word of its own. So it is not drawn into the word before it, whatever that is.
-/
theorem eq_nil_of_semicolon_mem (h : Word kind c u) (hmem : ';' ∈ c :: u) : u = [] := by
  -- other words are made of characters of a kind, and a semicolon is of none of these kinds
  have hnone {p : Char → Bool} {cs : List Char} (hp : p ';' = false) (hcs : ∀ d ∈ cs, p d) :
      ';' ∉ cs := by
    intro hin
    rw [hcs _ hin] at hp
    cases hp
  have hdigits {cs : List Char} (hcs : ∀ d ∈ cs, d.isDigit) : ';' ∉ cs :=
    hnone (by decide) hcs
  cases h with
  | newLine hc hu =>
    exact (hnone (by decide) (List.forall_mem_cons.mpr ⟨hc, hu⟩) hmem).elim
  | whitespace hc hu =>
    exact (hnone (by decide) (List.forall_mem_cons.mpr ⟨hc, hu⟩) hmem).elim
  | name hc hu =>
    have hname : ∀ d ∈ c :: u, isNameRest d :=
      List.forall_mem_cons.mpr ⟨isNameRest_of_isNameStart hc, hu⟩
    exact (hnone (by decide) hname hmem).elim
  | int hc hu => exact (hdigits (List.forall_mem_cons.mpr ⟨hc, hu⟩) hmem).elim
  | point hc hwhole hfraction =>
    rcases List.mem_append.mp (List.cons_append ▸ hmem) with hmem | hmem
    · exact (hdigits (List.forall_mem_cons.mpr ⟨hc, hwhole⟩) hmem).elim
    · rcases List.mem_cons.mp hmem with hmem | hmem
      · cases hmem
      · exact (hdigits hfraction hmem).elim
  | barePoint hne hu =>
    rcases List.mem_cons.mp hmem with hmem | hmem
    · cases hmem
    · exact (hdigits hu hmem).elim
  | fixed h =>
    have hall : ∀ s ∈ spellings, ';' ∈ s.1 → s.1.length = 1 := by decide
    simpa using hall _ h hmem
  | symbol => rfl

/-- Behind any text a semicolon begins a new word. The empty text is excepted in `Apart`, as there
is no word before it to keep apart. -/
theorem apart_semicolon : Apart text (';' :: zs) := by
  intro hne other u hu hbegins
  rcases isPrefix_or_mem hne hbegins with h | ⟨c, -, d, hd, -, hmem⟩
  · exact h
  obtain rfl : ';' = d := by simpa using hd
  cases u with
  | nil => exact List.nil_prefix
  | cons b u =>
    obtain rfl := eq_nil_of_semicolon_mem (mem_pattern_iff.mp hu) hmem
    exact List.prefix_of_prefix_length_le hbegins (List.prefix_append text _)
      (List.length_pos_iff.mpr hne)

end TokenKind

namespace Token

variable {offset : Nat} {cs : List Char} {before after : List Token}

/-- The first tokens of a text are the tokens of the text up to there. The induction is on those
tokens: each is the longest word where it stands, and stays so with less text behind it. -/
theorem Cut.front (h : Cut offset cs (before ++ after)) :
    Cut offset (joined before).toList before := by
  induction before generalizing offset cs with
  | nil => exact .nil
  | cons token before ih =>
    cases h with
    | @cons _ stop kind word rest _ hlongest hstop hrest =>
      have hrest : Cut stop rest (before ++ after) := hrest
      have hjoined := congrArg String.toList hrest.joined_eq
      rw [joined_append, String.toList_append, String.toList_ofList] at hjoined
      rw [joined_cons, String.toList_append, String.toList_ofList]
      refine .cons (hlongest.of_prefix (List.prefix_append _ _) ?_) hstop (ih hrest)
      rw [← hjoined, ← List.append_assoc]
      exact List.prefix_append _ _

theorem scan_joined {source : String} (h : scan source = before ++ after) :
    scan (joined before) = before := by
  have hcut := cut_scan source
  rw [h] at hcut
  exact hcut.front.scanFrom_eq

/-- A semicolon behind a text is one token more. Its place does not matter to what is read, and so
is not mentioned. -/
theorem scan_append_semicolon (text : String) :
    ∃ semicolon : Token, scan (text ++ ";") = scan text ++ [semicolon] ∧
      semicolon.kind = .semicolon := by
  let offset := 0 + bytes text.toList
  let semicolon : Token := ⟨.semicolon, ";", ⟨offset, offset + 1⟩⟩
  have hend : Cut offset [';'] [semicolon] := cut_scanFrom offset 0 [';']
  have hcut := (cut_scan text).append (fun _ _ => TokenKind.apart_semicolon) hend
  refine ⟨semicolon, ?_, rfl⟩
  rw [scan, String.toList_append]
  exact hcut.scanFrom_eq

end Token

end ThreeAddress
