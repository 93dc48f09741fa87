import ThreeAddress.Proofs.CallDepth

/-!
# Heights that are counted

A tree is measured on a walk, with the nodes that are still to be seen in a list. Here the walk is
taken without a bound on its turns (`Walks`): it comes to an end on every tree, and what it has then
is the height.

A chain of operators counts the height of its tree along while it grows, so as not to measure it
anew each turn. The count is exact at every turn, so the chain is refused just when the next
operator would make it too high (`chain_error_iff`).
-/

set_option autoImplicit false

namespace ThreeAddress

open ThreeAddress.Parser ThreeAddress.ParserState

/-! ## The walk

The program bounds its walk by the size of the tree. `Walks` is the same walk without that bound, as
a relation, so that it could in principle have no end or several. -/

namespace Expr

/-- What a walk comes to that goes on until no node is waiting: `most` is the greatest level so far,
and `greatest` that in the end. The nodes right below a node are put in front of those that wait. -/
inductive Walks : (most : Nat) → (waiting : List (Expr × Nat)) → (greatest : Nat) → Prop
  | done {most : Nat} : Walks most [] most
  | turn {most level greatest : Nat} {e : Expr} {waiting : List (Expr × Nat)}
      (h : Walks (max most level) (e.children.map (·, level + 1) ++ waiting) greatest) :
      Walks most ((e, level) :: waiting) greatest

variable {most level greatest : Nat} {waiting : List (Expr × Nat)}

/-- Each state of the walk has one next state or none, so there is one outcome at most. -/
theorem Walks.unique {other : Nat} (h : Walks most waiting greatest)
    (h' : Walks most waiting other) : greatest = other := by
  induction h with
  | done =>
    cases h'
    rfl
  | turn _ ih =>
    cases h' with
    | turn h' => exact ih h'

/-- How many nodes there are to see on a walk: those that are waiting, with all that are below them.
It is what the bound on the turns is compared with. -/
def nodes : List (Expr × Nat) → Nat
  | [] => 0
  | (e, _) :: waiting => e.size + nodes waiting

/-- The nodes right below one are waiting in its place. -/
theorem nodes_children (e : Expr) :
    nodes (e.children.map (·, level + 1) ++ waiting) + 1 = nodes ((e, level) :: waiting) := by
  cases e with
  | literal => exact Nat.add_comm (nodes waiting) 1
  | paren inner span | unary op opSpan inner span =>
    show inner.size + nodes waiting + 1 = inner.size + 1 + nodes waiting
    omega
  | binary op opSpan lhs rhs span =>
    show rhs.size + (lhs.size + nodes waiting) + 1 = lhs.size + rhs.size + 1 + nodes waiting
    omega

/-- As many turns as there are nodes to see are enough: each turn sees one of them. -/
theorem walks_walk {turns : Nat} (h : nodes waiting ≤ turns) :
    Walks most waiting (walk turns most waiting) := by
  induction turns generalizing most waiting with
  | zero =>
    cases waiting with
    | nil => exact .done
    | cons node waiting =>
      -- one node is seen, and all below it are still to be seen
      rw [← nodes_children] at h
      exact absurd h (Nat.not_succ_le_zero _)
  | succ turns ih =>
    cases waiting with
    | nil => exact .done
    | cons node waiting =>
      rw [← nodes_children] at h
      exact .turn (ih (Nat.le_of_succ_le_succ h))

theorem walks_of_size_le {e : Expr} {turns : Nat} (h : e.size ≤ turns) :
    Walks 0 [(e, 1)] (walk turns 0 [(e, 1)]) := walks_walk h

/-- The size of the tree is enough, and it is what `height` gives the walk. -/
theorem walks_height (e : Expr) : Walks 0 [(e, 1)] e.height :=
  walks_of_size_le (Nat.le_refl e.size)

end Expr

/-! ## A chain of operators

A turn reads an operator, its first operand and its right side, and joins them to what has been
read. `Extends` and `Breaks` say what the text holds at that place, without any heights; whether the
outcome is refused is then a question of heights alone. -/

namespace Phrase

/-- Behind `lhs` an operator comes next that binds at least as tight as `floor`. It and its right
side are read, up to `st'`, and `e` is what they make of `lhs`. The height of `e` is not bounded
here. -/
def Extends (inner : Phrase → Parser Expr) (floor : Precedence) (lhs : Expr) (st : ParserState)
    (e : Expr) (st' : ParserState) : Prop :=
  ∃ op token st₁ first st₂ rhs, st.aheadOp = some (op, token.span) ∧ ¬op.precedence < floor ∧
    next st = .ok token st₁ ∧ inner .operand st₁ = .ok first st₂ ∧
    inner (.rightSide op first) st₂ = .ok rhs st' ∧
    e = .binary op token.span lhs rhs (lhs.span.through rhs.span)

/-- An operator comes next that binds at least as tight as `floor`, and what it needs on its right
cannot be read. It does not depend on what stands to the left. -/
def Breaks (inner : Phrase → Parser Expr) (floor : Precedence) (st : ParserState) (d : Diagnostic)
    (st' : ParserState) : Prop :=
  ∃ op token st₁, st.aheadOp = some (op, token.span) ∧ ¬op.precedence < floor ∧
    next st = .ok token st₁ ∧ (inner .operand st₁ = .error d st' ∨
      ∃ first st₂, inner .operand st₁ = .ok first st₂ ∧
        inner (.rightSide op first) st₂ = .error d st')

variable {inner : Phrase → Parser Expr} {floor : Precedence} {lhs e : Expr}
  {st st' : ParserState} {d : Diagnostic} {height : Nat}

/-- What a turn makes of a chain that has been counted rightly is counted rightly, or refused. -/
theorem chainTurn_of_extends (h : Extends inner floor lhs st e st') :
    chainTurn inner floor (lhs, lhs.height) st =
      if heightLimit < e.height then .error (.form e.span (.tooDeeplyNested heightLimit)) st'
      else .ok (some (e, e.height)) st' := by
  obtain ⟨op, token, st₁, first, st₂, rhs, hahead, hfloor, hnext, hfirst, hrhs, rfl⟩ := h
  rw [chainTurn_eq, hahead]
  dsimp only
  rw [if_neg hfloor, extend, bind_of_ok (discard_ok_iff.mpr ⟨token, hnext⟩), bind_of_ok hfirst,
    bind_of_ok hrhs, Expr.height_binary]
  dsimp only
  split
  · rfl
  · rfl

theorem chainTurn_of_breaks (h : Breaks inner floor st d st') :
    chainTurn inner floor (lhs, height) st = .error d st' := by
  obtain ⟨op, token, st₁, hahead, hfloor, hnext, hbreaks⟩ := h
  rw [chainTurn_eq, hahead]
  dsimp only
  rw [if_neg hfloor, extend, bind_of_ok (discard_ok_iff.mpr ⟨token, hnext⟩)]
  rcases hbreaks with hfirst | ⟨first, st₂, hfirst, hrhs⟩
  · rw [bind_of_error hfirst]
  · rw [bind_of_ok hfirst, bind_of_error hrhs]

/-- A turn stops the chain, or it breaks off for want of an operand, or it reads all that it needs
for an operator. -/
theorem chainTurn_cases (inner : Phrase → Parser Expr) (floor : Precedence) (lhs : Expr)
    (st : ParserState) : st.StopsBelow floor ∨ (∃ d st', Breaks inner floor st d st') ∨
      ∃ e st', Extends inner floor lhs st e st' := by
  -- by what comes next: no operator, one that binds too loosely, or one that is to be read
  cases hahead : st.aheadOp with
  | none => exact .inl (stopsBelow_of_none hahead floor)
  | some ahead =>
    obtain ⟨op, opSpan⟩ := ahead
    by_cases hfloor : op.precedence < floor
    · refine .inl ?_
      intro op' span' hahead'
      rw [hahead] at hahead'
      cases hahead'
      exact hfloor
    · obtain ⟨token, htoken, -, rfl⟩ := aheadOp_eq_some_iff.mp hahead
      obtain ⟨st₁, quiet, hnext, -⟩ := next_of_ahead htoken
      refine .inr ?_
      cases hfirst : inner .operand st₁ with
      | error d st₂ => exact .inl ⟨d, st₂, op, token, st₁, hahead, hfloor, hnext, .inl hfirst⟩
      | ok first st₂ =>
        cases hrhs : inner (.rightSide op first) st₂ with
        | error d st₃ =>
          exact .inl ⟨d, st₃, op, token, st₁, hahead, hfloor, hnext,
            .inr ⟨first, st₂, hfirst, hrhs⟩⟩
        | ok rhs st₃ =>
          exact .inr ⟨_, st₃, op, token, st₁, first, st₂, rhs, hahead, hfloor, hnext, hfirst, hrhs,
            rfl⟩

/-- A turn fails just if it breaks off, or if the operator that it has read all of is too high. -/
theorem chainTurn_error_iff :
    chainTurn inner floor (lhs, lhs.height) st = .error d st' ↔ Breaks inner floor st d st' ∨
      ∃ e, Extends inner floor lhs st e st' ∧ heightLimit < e.height ∧
        d = .form e.span (.tooDeeplyNested heightLimit) := by
  constructor
  · intro h
    rcases chainTurn_cases inner floor lhs st with hstops | ⟨d₁, st₁, hbreaks⟩ | ⟨e, st₁, he⟩
    · rw [chainTurn_none_iff.mpr ⟨rfl, hstops⟩] at h
      cases h
    · rw [chainTurn_of_breaks hbreaks] at h
      cases h
      exact .inl hbreaks
    · rw [chainTurn_of_extends he] at h
      split at h
      next hlimit =>
        cases h
        exact .inr ⟨e, he, hlimit, rfl⟩
      next => cases h
  · rintro (hbreaks | ⟨e, he, hlimit, rfl⟩)
    · exact chainTurn_of_breaks hbreaks
    · rw [chainTurn_of_extends he, if_pos hlimit]

theorem height_of_chainTurn {more : Expr × Nat}
    (h : chainTurn inner floor (lhs, lhs.height) st = .ok (some more) st') :
    more.2 = more.1.height := by
  obtain ⟨op, token, st₁, first, st₂, rhs, -, -, -, -, -, -, rfl⟩ := chainTurn_some_iff.mp h
  exact Expr.height_binary.symm

/-- The height that goes along with a chain is that of the tree at every turn. By induction on the
turns. Each adds one level on top of the higher of two sides, both in the count and in the tree. -/
theorem height_of_turns {x y : (Expr × Nat) × ParserState}
    (h : Turns (chainTurn inner floor) x y) (hx : x.1.2 = x.1.1.height) :
    y.1.2 = y.1.1.height := by
  induction h with
  | refl => exact hx
  | @tail y z _ hstep ih =>
    obtain ⟨⟨grown, height⟩, st₁⟩ := y
    obtain rfl : height = grown.height := ih
    exact height_of_chainTurn hstep

theorem read_chain_error_iff :
    read inner (.chain lhs floor) st = .error d st' ↔
      grow (chainTurn inner floor) (lhs, lhs.height) st = .error d st' := by
  rw [Phrase.read, bind_error_iff]
  constructor
  · rintro (hgrow | ⟨_, _, -, hpure⟩)
    · exact hgrow
    · cases hpure
  · exact .inl

/-- A chain fails in a turn that breaks off, or in one that has read all of an operator that would
be too high. The turns before the failing one are given, so the place where it failed is known and
not only that it did. -/
theorem chain_error_iff :
    parse (.chain lhs floor) st = .error d st' ↔ ∃ grown st₁,
      Turns (chainTurn parse floor) ((lhs, lhs.height), st) ((grown, grown.height), st₁) ∧
        (Breaks parse floor st₁ d st' ∨
          ∃ e, Extends parse floor grown st₁ e st' ∧ heightLimit < e.height ∧
            d = .form e.span (.tooDeeplyNested heightLimit)) := by
  have hread : read parse (.chain lhs floor) st = parse (.chain lhs floor) st :=
    congrFun (congrFun read_parse (.chain lhs floor)) st
  rw [← hread, read_chain_error_iff, grow_error_iff (consuming_chainTurn moving_parse floor)]
  constructor
  · rintro ⟨⟨grown, height⟩, st₁, hturns, herror⟩
    obtain rfl : height = grown.height := height_of_turns hturns rfl
    exact ⟨grown, st₁, hturns, chainTurn_error_iff.mp herror⟩
  · rintro ⟨grown, st₁, hturns, herror⟩
    exact ⟨(grown, grown.height), st₁, hturns, chainTurn_error_iff.mpr herror⟩

/-- Heights are exact, measured or counted. The walk that measures a tree comes to an end by itself,
always with the same, and that is the height; a literal has the height one, and any other tree is
one higher than the highest of the trees in it. Wherever a chain of operators has got to by its
turns, the height that goes along is the height of its tree. So a turn that has read all of an
operator goes on with it and its height, or refuses it because it would be higher than the limit,
and in no other case does a chain fail that has nothing fail in it. -/
theorem heights_exact :
    (∀ e : Expr, Expr.Walks 0 [(e, 1)] e.height ∧
      (∀ greatest, Expr.Walks 0 [(e, 1)] greatest → greatest = e.height) ∧
      ∀ turns, e.size ≤ turns → Expr.walk turns 0 [(e, 1)] = e.height) ∧
    (∀ value span, (Expr.literal value span).height = 1) ∧
    (∀ inner span, (Expr.paren inner span).height = 1 + inner.height) ∧
    (∀ op opSpan operand span, (Expr.unary op opSpan operand span).height = 1 + operand.height) ∧
    (∀ op opSpan lhs rhs span,
      (Expr.binary op opSpan lhs rhs span).height = 1 + max lhs.height rhs.height) ∧
    (∀ lhs floor st grown height st₁,
      Turns (chainTurn parse floor) ((lhs, lhs.height), st) ((grown, height), st₁) →
        height = grown.height ∧ ∀ e st', Extends parse floor grown st₁ e st' →
          chainTurn parse floor (grown, height) st₁ =
            if heightLimit < e.height then .error (.form e.span (.tooDeeplyNested heightLimit)) st'
            else .ok (some (e, e.height)) st') ∧
    ∀ lhs floor st d st', parse (.chain lhs floor) st = .error d st' ↔ ∃ grown st₁,
      Turns (chainTurn parse floor) ((lhs, lhs.height), st) ((grown, grown.height), st₁) ∧
        (Breaks parse floor st₁ d st' ∨
          ∃ e, Extends parse floor grown st₁ e st' ∧ heightLimit < e.height ∧
            d = .form e.span (.tooDeeplyNested heightLimit)) := by
  refine ⟨?_, fun _ _ => Expr.height_literal, fun _ _ => Expr.height_paren,
    fun _ _ _ _ => Expr.height_unary, fun _ _ _ _ _ => Expr.height_binary, ?_, ?_⟩
  · intro e
    refine ⟨e.walks_height, fun greatest h => h.unique e.walks_height, fun turns hturns => ?_⟩
    exact (Expr.walks_of_size_le hturns).unique e.walks_height
  · intro lhs floor st grown height st₁ hturns
    -- the invariant of the turns: the number carried along is the height
    obtain rfl : height = grown.height := height_of_turns hturns rfl
    exact ⟨rfl, fun e st' he => chainTurn_of_extends he⟩
  · intro lhs floor st d st'
    exact chain_error_iff

end Phrase

end ThreeAddress
