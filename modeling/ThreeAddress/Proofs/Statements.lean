import ThreeAddress.Proofs.Soundness

/-!
# Statements and programs

What it takes for a statement to be read, and for a program to go on by one. A program is a loop
over statements, and each statement is read from a place that a parser has walked to from the
beginning of the text, outside of all parentheses.
-/

set_option autoImplicit false

namespace ThreeAddress

namespace ParserState

variable {st st' : ParserState} {token : Token}

/-- Whether the tokens that count begin with these kinds. The parser tries this to see which kind of
statement comes, without reading anything. -/
def begins (kinds : List TokenKind) (st : ParserState) : Bool :=
  kinds.isPrefixOf (st.upcoming.map (·.kind))

/-- Reading a token takes it off the upcoming ones. -/
theorem upcoming_of_next (h : Parser.next st = .ok token st') :
    st.upcoming = token :: st'.upcoming := by
  obtain ⟨quiet, hquiet, hloud, hpassed⟩ := Parser.passed_of_next h
  have hsame : st'.isQuiet = st.isQuiet := by
    funext t
    rw [isQuiet, isQuiet, hpassed.openParens]
  have hnone : quiet.filter (!st.isQuiet ·) = [] := by
    rw [List.filter_eq_nil_iff]
    intro t ht
    simp [hquiet t ht]
  rw [upcoming, upcoming, hpassed.after, hsame, List.filter_append, List.filter_append, hnone]
  simp [hloud]

end ParserState

namespace Parser

open ParserState

variable {st st' : ParserState} {stmt : Stmt} {stmts more : List Stmt} {kind : TokenKind}
  {f : Ident → Expr → Stmt}

/-! ## Single statements

Each lemma on a parser says when it succeeds and with what, as an equivalence, so that a proof about
programs can go from the outcome to the parts and back. That a parser goes forward, and that it
passes a token at least, is said of all of them on the way. -/

theorem forward_expr : Forward Parser.expr := (Phrase.moving_layers Phrase.callDepth).forward .expr

/-- An expression has a token, as every tree stands for some. -/
theorem advances_expr : Advances Parser.expr := by
  intro st e st' h
  obtain ⟨ts, hconsumes, hyields⟩ := (parsed_of_expr h).reads
  have hlength := List.length_pos_iff.mpr hyields.ne_nil
  have hle := hconsumes.remaining_add_length_le
  omega

/-- Reads a name, a mark and an expression, and makes something of them. Simple and compound
assignments are both of this form. -/
def binding (kind : TokenKind) (f : Ident → Expr → Stmt) : Parser Stmt := do
  let target ← attempt (tokenAs Token.ident)
  discard (attempt (tokenAs (Token.ofKind kind)))
  let value ← attempt Parser.expr
  return f target value

/-- The two tokens are read as they come. No more is asked of the expression than that it can be
read behind them. -/
theorem binding_ok_iff : binding kind f st = .ok stmt st' ↔ ∃ target st₁ mark st₂ value,
    next st = .ok target st₁ ∧ target.kind = .name ∧ next st₁ = .ok mark st₂ ∧ mark.kind = kind ∧
      Parser.expr st₂ = .ok value st' ∧ stmt = f ⟨target.lexeme, target.span⟩ value := by
  rw [binding, bind_ok_iff]
  constructor
  · rintro ⟨target, st₁, htarget, h⟩
    obtain ⟨token, hnext, hident⟩ := tokenAs_ok_iff.mp (attempt_ok_iff.mp htarget)
    obtain ⟨hkind, rfl⟩ := Token.ident_ok_iff.mp hident
    obtain ⟨_, st₂, hmark, h⟩ := bind_ok_iff.mp h
    obtain ⟨mark, hmark⟩ := discard_ok_iff.mp hmark
    obtain ⟨mark', hnext', hofKind⟩ := tokenAs_ok_iff.mp (attempt_ok_iff.mp hmark)
    obtain ⟨hkind', rfl⟩ := Token.ofKind_ok_iff.mp hofKind
    obtain ⟨value, st₃, hvalue, h⟩ := bind_ok_iff.mp h
    obtain ⟨rfl, rfl⟩ := pure_ok_iff.mp h
    exact ⟨token, st₁, mark', st₂, value, hnext, hkind, hnext', hkind',
      attempt_ok_iff.mp hvalue, rfl⟩
  -- the other way round each part is read as it was given
  · rintro ⟨target, st₁, mark, st₂, value, hnext, hkind, hnext', hkind', hvalue, rfl⟩
    refine ⟨⟨target.lexeme, target.span⟩, st₁, ?_, ?_⟩
    · exact attempt_ok_iff.mpr
        (tokenAs_ok_iff.mpr ⟨target, hnext, Token.ident_ok_iff.mpr ⟨hkind, rfl⟩⟩)
    refine bind_ok_iff.mpr ⟨(), st₂, discard_ok_iff.mpr ⟨mark, attempt_ok_iff.mpr ?_⟩, ?_⟩
    · exact tokenAs_ok_iff.mpr ⟨mark, hnext', Token.ofKind_ok_iff.mpr ⟨hkind', rfl⟩⟩
    · exact bind_ok_iff.mpr ⟨value, st', attempt_ok_iff.mpr hvalue, rfl⟩

theorem assignment_eq : assignment = binding .assign fun target value =>
    .assign target value (target.span.through value.span) := rfl

theorem assignment_ok_iff :
    assignment st = .ok stmt st' ↔ ∃ target st₁ sign st₂ value,
      next st = .ok target st₁ ∧ target.kind = .name ∧
        next st₁ = .ok sign st₂ ∧ sign.kind = .assign ∧ Parser.expr st₂ = .ok value st' ∧
        stmt = .assign ⟨target.lexeme, target.span⟩ value (target.span.through value.span) := by
  rw [assignment_eq, binding_ok_iff]

/-- What a text that begins with a name and `=` is read as, if the value is not assigned further. -/
theorem statement_of_assignment
    (hkinds : [.name, .assign].isPrefixOf (st.upcoming.map (·.kind)))
    (h : assignment st = .ok stmt st') (hend : st'.ahead.map (·.kind) ≠ some .assign) :
    statement st = .ok stmt st' := by
  have hupcoming : upcomingAre [.name, .assign] st = .ok true st := by
    rw [upcomingAre, hkinds]
  rw [statement, bind_of_ok hupcoming, if_pos rfl, bind_of_ok (attempt_ok_iff.mpr h),
    bind_of_ok (upcomingKind_eq st'), if_pos hend]
  rfl

theorem forward_assignTurn (span : Span) : Forward (assignTurn span) := by
  refine forward_bind forward_upcomingKind fun kind? => forward_ite ?_ (forward_pure none)
  refine forward_bind (forward_discard (forward_attempt (forward_tokenAs _))) fun _ => ?_
  exact forward_bind (forward_attempt forward_expr) fun _ => forward_pure _

theorem forward_assignment : Forward assignment := by
  refine forward_bind (forward_attempt (forward_tokenAs _)) fun target => ?_
  refine forward_bind (forward_discard (forward_attempt (forward_tokenAs _))) fun _ => ?_
  exact forward_bind (forward_attempt forward_expr) fun value => forward_pure _

theorem advances_assignment : Advances assignment := by
  refine advances_bind_left (advances_attempt (advances_tokenAs _)) fun target => ?_
  refine forward_bind (forward_discard (forward_attempt (forward_tokenAs _))) fun _ => ?_
  exact forward_bind (forward_attempt forward_expr) fun value => forward_pure _

theorem forward_statement : Forward statement := by
  refine forward_bind (forward_upcomingAre _) fun isAssign => forward_ite ?_ ?_
  · refine forward_bind (forward_attempt forward_assignment) fun first => ?_
    refine forward_bind forward_upcomingKind fun kind? => forward_ite (forward_pure first) ?_
    exact forward_bind (forward_grow forward_assignTurn _) fun last => forward_pure _
  refine forward_bind (forward_upcomingAre _) fun isCompound => forward_ite ?_ ?_
  · refine forward_bind (forward_attempt (forward_tokenAs _)) fun target => ?_
    refine forward_bind (forward_discard (forward_attempt (forward_tokenAs _))) fun _ => ?_
    exact forward_bind (forward_attempt forward_expr) fun value => forward_pure _
  · exact forward_bind (forward_attempt forward_expr) fun value => forward_pure _

/-- A statement passes a token at least, so that the loop over statements comes to an end. -/
theorem advances_statement : Advances statement := by
  refine advances_bind_right (forward_upcomingAre _) fun isAssign => advances_ite ?_ ?_
  · refine advances_bind_left (advances_attempt advances_assignment) fun first => ?_
    refine forward_bind forward_upcomingKind fun kind? => forward_ite (forward_pure first) ?_
    exact forward_bind (forward_grow forward_assignTurn _) fun last => forward_pure _
  refine advances_bind_right (forward_upcomingAre _) fun isCompound => advances_ite ?_ ?_
  · refine advances_bind_left (advances_attempt (advances_tokenAs _)) fun target => ?_
    refine forward_bind (forward_discard (forward_attempt (forward_tokenAs _))) fun _ => ?_
    exact forward_bind (forward_attempt forward_expr) fun value => forward_pure _
  · exact advances_bind_left (advances_attempt advances_expr) fun value => forward_pure _

/-! ## What a statement is

`statement` decides by the upcoming tokens and then runs one of three parsers. `statement_eq` says
that in one equation, and most proofs about statements begin with it. -/

/-- Reads an assignment, with all that is assigned to it in turn. -/
def assignments : Parser Stmt := do
  let first ← attempt assignment
  if (← upcomingKind) = some .assign then
    let last ← grow assignTurn first.span
    return .unsupported .chainedAssign (first.span.through last)
  else return first

def augmentedAssignment : Parser Stmt :=
  binding .compoundAssign fun target value =>
    .unsupported .augmentedAssign (target.span.through value.span)

def expressionStatement : Parser Stmt := do
  return .unsupported .expr (← attempt Parser.expr).span

theorem statement_eq (st : ParserState) : statement st =
    if st.begins [.name, .assign] then assignments st
    else if st.begins [.name, .compoundAssign] then augmentedAssignment st
    else expressionStatement st := by
  have h : ∀ kinds, upcomingAre kinds st = .ok (st.begins kinds) st := fun _ => rfl
  rw [statement, bind_of_ok (h _)]
  split
  · rw [assignments]
    refine congrArg (fun (p : Parser Stmt) => p st) ?_
    simp only [ne_eq, ite_not]
  · rw [bind_of_ok (h _)]
    split
    · rfl
    · rfl

theorem begins_of_binding (h : binding kind f st = .ok stmt st') : st.begins [.name, kind] := by
  obtain ⟨target, st₁, mark, st₂, value, hnext, hname, hnext', hmark, -⟩ := binding_ok_iff.mp h
  rw [begins, upcoming_of_next hnext, upcoming_of_next hnext']
  simp [hname, hmark]

theorem begins_of_assignments (h : assignments st = .ok stmt st') :
    st.begins [.name, .assign] := by
  obtain ⟨first, st₁, hfirst, -⟩ := bind_ok_iff.mp h
  rw [attempt_ok_iff, assignment_eq] at hfirst
  exact begins_of_binding hfirst

/-- A statement that is an assignment has been read as one. The other two branches, and an
assignment that is assigned further, give statements that are not compiled. -/
theorem assignment_of_statement {target : Ident} {value : Expr} {span : Span}
    (h : statement st = .ok (.assign target value span) st') :
    assignment st = .ok (.assign target value span) st' := by
  obtain ⟨isAssign, st₁, hupcoming, h⟩ := bind_ok_iff.mp h
  cases hupcoming
  split at h
  · obtain ⟨first, st₂, hfirst, h⟩ := bind_ok_iff.mp h
    rw [bind_of_ok (upcomingKind_eq st₂)] at h
    split at h
    · obtain ⟨rfl, rfl⟩ := pure_ok_iff.mp h
      exact attempt_ok_iff.mp hfirst
    · obtain ⟨last, st₃, -, h⟩ := bind_ok_iff.mp h
      cases h
  obtain ⟨isCompound, st₁, hupcoming, h⟩ := bind_ok_iff.mp h
  cases hupcoming
  split at h
  · obtain ⟨target, st₂, -, h⟩ := bind_ok_iff.mp h
    obtain ⟨_, st₃, -, h⟩ := bind_ok_iff.mp h
    obtain ⟨value, st₄, -, h⟩ := bind_ok_iff.mp h
    cases h
  · obtain ⟨value, st₂, -, h⟩ := bind_ok_iff.mp h
    cases h

/-- At the end of the text a statement may end, and the parser stays there. -/
theorem endOfStatement_of_none (h : st.ahead = none) :
    ∃ st', endOfStatement st = .ok () st' ∧ st'.remaining = 0 := by
  obtain ⟨d, st', hnext, hafter, -, -⟩ := next_of_ahead_none h
  have hpossibly : possibly next st = .ok none st' := by
    rw [possibly, hnext]
  refine ⟨st', ?_, ?_⟩
  · rw [endOfStatement, bind_of_ok hpossibly]
    rfl
  · rw [remaining, hafter, List.length_nil]

/-- A separator behind a statement is passed over. -/
theorem endOfStatement_of_separator {token : Token} (hnext : next st = .ok token st')
    (hkind : token.kind.isSeparator) : endOfStatement st = .ok () st' := by
  have hpossibly : possibly next st = .ok (some token) st' := by
    rw [possibly, hnext]
  rw [endOfStatement, bind_of_ok hpossibly]
  dsimp only
  rw [if_pos hkind]
  rfl

/-! ## Programs

A program is a loop, and what a turn comes to is said for both of its outcomes: it adds a statement,
or it finds the end of the text behind separators. Loops are dealt with by what their turns consume,
so this is shown beside each turn. -/

/-- What `separators` does over and over. -/
def separatorTurn (_ : Unit) : Parser (Option Unit) := do
  if (← upcomingKind).any TokenKind.isSeparator then
    discard next
    return some ()
  else return none

theorem separators_eq : separators = grow separatorTurn () := rfl

theorem forward_separatorTurn (u : Unit) : Forward (separatorTurn u) := by
  refine forward_bind forward_upcomingKind fun kind? => forward_ite ?_ (forward_pure none)
  exact forward_bind (forward_discard forward_next) fun _ => forward_pure _

theorem forward_separators : Forward separators := forward_grow forward_separatorTurn ()

theorem separatorTurn_some_iff {u v : Unit} : separatorTurn u st = .ok (some v) st' ↔
    ∃ token, next st = .ok token st' ∧ token.kind.isSeparator := by
  rw [separatorTurn, bind_of_ok (upcomingKind_eq st)]
  constructor
  · intro h
    split at h
    next hkind =>
      obtain ⟨_, st₁, hdiscard, h⟩ := bind_ok_iff.mp h
      obtain ⟨token, hnext⟩ := discard_ok_iff.mp hdiscard
      obtain ⟨-, rfl⟩ := pure_ok_iff.mp h
      rw [ahead_of_next hnext, Option.map_some, Option.any_some] at hkind
      exact ⟨token, hnext, hkind⟩
    next => cases h
  · rintro ⟨token, hnext, hkind⟩
    rw [ahead_of_next hnext, Option.map_some, Option.any_some, if_pos hkind]
    exact bind_ok_iff.mpr ⟨(), st', discard_ok_iff.mpr ⟨token, hnext⟩, rfl⟩

theorem separatorTurn_none_iff {u : Unit} : separatorTurn u st = .ok none st' ↔
    st' = st ∧ (st.ahead.map (·.kind)).any TokenKind.isSeparator = false := by
  rw [separatorTurn, bind_of_ok (upcomingKind_eq st)]
  split
  next hkind =>
    rw [hkind]
    simp only [Bool.true_eq_false, and_false, iff_false]
    intro h
    obtain ⟨_, st₁, -, h⟩ := bind_ok_iff.mp h
    cases h
  next hkind => simp [pure_ok_iff, hkind, eq_comm]

/-- A turn that goes on has passed a separator, and where nothing is left no turn goes on. -/
theorem consuming_separatorTurn : Consuming separatorTurn where
  less := by
    intro u st v st' h
    obtain ⟨token, hnext, -⟩ := separatorTurn_some_iff.mp h
    exact advances_next hnext
  idle := by
    intro u st hleft
    refine separatorTurn_none_iff.mpr ⟨rfl, ?_⟩
    rw [ahead, List.eq_nil_of_length_eq_zero hleft]
    rfl

/-- Where a statement begins there are no separators to pass. -/
theorem separators_of_ahead {token : Token} (h : st.ahead = some token)
    (hkind : token.kind.isSeparator = false) : separators st = .ok () st := by
  rw [separators_eq]
  apply grow_of_idle
  refine separatorTurn_none_iff.mpr ⟨rfl, ?_⟩
  rw [h, Option.map_some, Option.any_some, hkind]

theorem forward_endOfStatement : Forward endOfStatement := by
  refine forward_bind forward_possibly_next fun token? => ?_
  cases token? with
  | none => exact forward_pure ()
  | some token =>
    refine forward_ite (forward_pure ()) (forward_ite ?_ ?_)
    · exact forward_throw _
    · exact forward_throw _

theorem not_tooHigh_iff :
    ¬stmt.value?.any (heightLimit < ·.height) ↔
      ∀ value, stmt.value? = some value → value.height ≤ heightLimit := by
  cases stmt.value? <;> simp

/-- A turn that goes on has read one statement, of a height that is allowed, and its end. -/
theorem programTurn_some_iff :
    programTurn stmts st = .ok (some more) st' ↔ ∃ st₁ stmt st₂,
      separators st = .ok () st₁ ∧ st₁.ahead ≠ none ∧ statement st₁ = .ok stmt st₂ ∧
        (∀ value, stmt.value? = some value → value.height ≤ heightLimit) ∧
        endOfStatement st₂ = .ok () st' ∧ more = stmts ++ [stmt] := by
  rw [programTurn, bind_ok_iff]
  constructor
  · rintro ⟨_, st₁, hseparators, h⟩
    rw [bind_of_ok (atEnd_eq st₁)] at h
    split at h
    next => cases h
    next hend =>
      obtain ⟨stmt, st₂, hstmt, h⟩ := bind_ok_iff.mp h
      split at h
      next =>
        obtain ⟨_, _, hthrow, -⟩ := bind_ok_iff.mp h
        exact (throw_ne_ok hthrow).elim
      -- here the turn goes on; in the other branches it stops or fails
      next hheight =>
        obtain ⟨_, st₃, hend', h⟩ := bind_ok_iff.mp h
        obtain ⟨hmore, rfl⟩ := pure_ok_iff.mp h
        exact ⟨st₁, stmt, st₂, hseparators, by simpa using hend, attempt_ok_iff.mp hstmt,
          not_tooHigh_iff.mp hheight, hend', (Option.some.inj hmore).symm⟩
  · rintro ⟨st₁, stmt, st₂, hseparators, hahead, hstmt, hheight, hend, rfl⟩
    refine ⟨(), st₁, hseparators, ?_⟩
    rw [bind_of_ok (atEnd_eq st₁), if_neg (by simpa using hahead),
      bind_of_ok (attempt_ok_iff.mpr hstmt), if_neg (not_tooHigh_iff.mpr hheight)]
    exact bind_ok_iff.mpr ⟨(), st', hend, rfl⟩

/-- The loop ends where nothing is left but separators. -/
theorem programTurn_none_iff :
    programTurn stmts st = .ok none st' ↔ separators st = .ok () st' ∧ st'.ahead = none := by
  rw [programTurn, bind_ok_iff]
  constructor
  · rintro ⟨_, st₁, hseparators, h⟩
    rw [bind_of_ok (atEnd_eq st₁)] at h
    split at h
    next hend =>
      obtain ⟨-, rfl⟩ := pure_ok_iff.mp h
      exact ⟨hseparators, by simpa using hend⟩
    next =>
      obtain ⟨stmt, st₂, -, h⟩ := bind_ok_iff.mp h
      split at h
      next =>
        obtain ⟨_, _, hthrow, -⟩ := bind_ok_iff.mp h
        exact (throw_ne_ok hthrow).elim
      next =>
        obtain ⟨_, st₃, -, h⟩ := bind_ok_iff.mp h
        cases h
  · rintro ⟨hseparators, hahead⟩
    refine ⟨(), st', hseparators, ?_⟩
    rw [bind_of_ok (atEnd_eq st'), hahead]
    rfl

theorem forward_programTurn (stmts : List Stmt) : Forward (programTurn stmts) := by
  intro st more st' h
  cases more with
  | none => exact forward_separators (programTurn_none_iff.mp h).1
  | some more =>
    obtain ⟨st₁, stmt, st₂, hseparators, -, hstmt, -, hend, -⟩ := programTurn_some_iff.mp h
    obtain ⟨_, hfront⟩ := forward_separators hseparators
    obtain ⟨_, hpassed⟩ := forward_statement hstmt
    obtain ⟨_, hback⟩ := forward_endOfStatement hend
    exact ⟨_, (hfront.trans hpassed).trans hback⟩

theorem consuming_programTurn : Consuming programTurn where
  less := by
    intro stmts st more st' h
    obtain ⟨st₁, stmt, st₂, hseparators, -, hstmt, -, hend, -⟩ := programTurn_some_iff.mp h
    -- separators and ends may pass nothing, and the statement between them passes something
    have hseparators := forward_separators.remaining_le hseparators
    have hstmt := advances_statement hstmt
    have hend := forward_endOfStatement.remaining_le hend
    omega
  idle := by
    intro stmts st hleft
    have hnil : st.cursor.after = [] := List.eq_nil_of_length_eq_zero hleft
    refine programTurn_none_iff.mpr ⟨?_, by rw [ahead, hnil]; rfl⟩
    rw [separators_eq, grow, hnil]
    rfl

/-! ## Whole texts

Two ways to run a parser on a text: as far as it goes, or with the demand that nothing is left. -/

theorem runOn_ok_iff {α : Type} {p : Parser α} {a : α} {source : String} :
    p.runOn source = .ok a ↔ ∃ st', p (.start source) = .ok a st' := by
  rw [runOn]
  cases p (.start source) with
  | ok b st' => simp
  | error d st' => simp

/-- A full read is a read after which nothing is left that counts. -/
theorem full_ok_iff {α : Type} {p : Parser α} {a : α} :
    full p st = .ok a st' ↔ p st = .ok a st' ∧ st'.ahead = none := by
  rw [full, bind_ok_iff]
  constructor
  · rintro ⟨b, st₁, hp, h⟩
    rw [bind_of_ok (atEnd_eq st₁)] at h
    split at h
    next hend =>
      obtain ⟨rfl, rfl⟩ := pure_ok_iff.mp h
      exact ⟨hp, by simpa using hend⟩
    next =>
      obtain ⟨_, _, -, h⟩ := bind_ok_iff.mp h
      obtain ⟨_, _, -, h⟩ := bind_ok_iff.mp h
      cases h
  · rintro ⟨hp, hend⟩
    refine ⟨a, st', hp, ?_⟩
    rw [bind_of_ok (atEnd_eq st'), hend]
    rfl

end Parser

end ThreeAddress
