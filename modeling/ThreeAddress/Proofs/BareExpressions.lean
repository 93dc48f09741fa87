import ThreeAddress.Compiled
import ThreeAddress.Proofs.Knowledge
import ThreeAddress.Proofs.LongestMatch
import ThreeAddress.Proofs.NormalForm
import ThreeAddress.Proofs.Printing
import ThreeAddress.Proofs.SingleAssignment

/-!
# Expressions alone

A text without any `=` is an expression, and what is compiled is its assignment to the target
(`ofText_bare`). There can be more lines in the text, but no `=` can come about in them, so they are
expressions too, of which nothing is compiled.

The value of the target is then known just if there are no names in the expression. Folding knows of
a variable what the partial evaluator knows of it, and that knows the value of an expression without
names and no value of any other: a name is unknown, and an operator with an unknown side is.
-/

set_option autoImplicit false

namespace ThreeAddress

open ThreeAddress.Parser ThreeAddress.ParserState

/-! ## Texts without assignments

The characters that normalizing puts into a text are `*` and `2`, so no `=` comes about but the one
that is put in front. Scanning then gives the three tokens of the target, a blank and the sign, and
after them no token that has an `=` in it. -/

namespace Surface

variable {cs : List Char} {c : Char}

/-- Of a square come two stars and a two, and nothing else is new. -/
theorem mem_of_mem_expandSquares (h : c ∈ expandSquares cs) : c ∈ cs ∨ c = '*' ∨ c = '2' := by
  obtain ⟨d, hd, hc⟩ := List.mem_flatMap.mp h
  split at hc
  · simp only [List.mem_cons, List.not_mem_nil, or_false] at hc
    rcases hc with rfl | rfl | rfl
    · exact .inr (.inl rfl)
    · exact .inr (.inl rfl)
    · exact .inr (.inr rfl)
  · obtain rfl := List.mem_singleton.mp hc
    exact .inl hd

/-- None of the changes at the place of the expression makes an `=`. -/
theorem assign_notMem_multiplied (h : '=' ∉ cs) : '=' ∉ multiplied cs := by
  rw [multiplied, (starred_multiplyParens _).mem (by decide),
    (starred_multiplyNames _).mem (by decide)]
  intro hmem
  rcases mem_of_mem_expandCarets hmem with hmem | hmem
  · rcases mem_of_mem_expandSquares hmem with hmem | hmem | hmem
    · exact h hmem
    · exact absurd hmem (by decide)
    · exact absurd hmem (by decide)
  · exact absurd hmem (by decide)

/-- A text without `=` becomes an assignment to the target, with no other `=` behind the sign. -/
theorem normalize_of_bare (target : String) {text : String} (h : '=' ∉ text.toList) :
    ∃ rest, '=' ∉ rest ∧
      (normalize target text).toList = target.toList ++ ' ' :: '=' :: ' ' :: rest := by
  have hno := assign_notMem_multiplied h
  refine ⟨trimWhiteSpace (multiplied text.toList), ?_, ?_⟩
  · intro hmem
    exact hno ((trimWhiteSpace_isInfix _).mem hmem)
  · show (String.ofList (assignBare target.toList (multiplied text.toList))).toList = _
    rw [String.toList_ofList, assignBare, if_neg (by simpa using hno)]
    simp

end Surface

/-- The token makes no assignment. -/
def Token.Plain (token : Token) : Prop := token.kind ≠ .assign ∧ token.kind ≠ .compoundAssign

/-- Every token of a text without `=` is plain. Both tokens that are not have an `=` in their words.
-/
theorem Token.Cut.plain {offset : Nat} {cs : List Char} {tokens : List Token}
    (h : Token.Cut offset cs tokens) (hno : '=' ∉ cs) : ∀ t ∈ tokens, t.Plain := by
  induction h with
  | nil => simp
  | @cons offset stop kind word rest tokens hlongest hstop hrest ih =>
    rw [List.mem_append, not_or] at hno
    intro t ht
    rcases List.mem_cons.mp ht with rfl | ht
    · constructor
      · rintro (rfl : kind = .assign)
        have hword : word = ['='] := hlongest.mem
        exact hno.1 (by simp [hword])
      · rintro (rfl : kind = .compoundAssign)
        -- any other compound sign ends in an `=`, whichever operator it begins with
        obtain ⟨op, -, hword⟩ := TokenKind.mem_compoundAssign.mp hlongest.mem
        exact hno.1 (by simp [hword])
    · exact ih hno.2 t ht

/-- The tokens of an assignment of a text without `=` to a name. -/
theorem scan_bare {target text : String} (htarget : IsName target.toList)
    (htext : '=' ∉ text.toList) :
    ∃ (name blank sign : Token) (tail : List Token),
      Token.scan (Surface.normalize target text) = name :: blank :: sign :: tail ∧
        name.kind = .name ∧ name.lexeme = target ∧ blank.kind = .whitespace ∧
        sign.kind = .assign ∧ ∀ t ∈ tail, t.Plain := by
  obtain ⟨rest, hrest, hsource⟩ := Surface.normalize_of_bare target htext
  obtain ⟨name, stop₁, hscan₁, hkind, hlexeme⟩ :=
    Token.scanFrom_name htarget (endsWord_cons (c := ' ') (by decide) ('=' :: ' ' :: rest)) 0
  obtain ⟨blank, stop₂, hscan₂, hwhite⟩ :=
    Token.scanFrom_mark (TokenKind.munch_blank (c := '=') rfl (' ' :: rest)) stop₁
  obtain ⟨sign, stop₃, hscan₃, hassign⟩ :=
    Token.scanFrom_mark (TokenKind.munch_assign rest) stop₂
  refine ⟨name, blank, sign, Token.scanFrom stop₃ 0 (' ' :: rest), ?_, hkind, ?_, hwhite, hassign,
    ?_⟩
  · rw [Token.scan, hsource, hscan₁, hscan₂, hscan₃]
  · rw [hlexeme, String.ofList_toList]
  · refine (Token.cut_scanFrom stop₃ 0 (' ' :: rest)).plain ?_
    rw [List.drop_zero, List.mem_cons, not_or]
    exact ⟨by decide, hrest⟩

/-! ## Statements without assignments

A statement is an assignment just if a name and `=` are upcoming, and a compound one just if a name
and such a sign are. With plain tokens ahead neither test succeeds, and what is left to read is an
expression. -/

namespace ParserState

theorem after_start (source : String) : (start source).cursor.after = Token.scan source := rfl

/-- No assignment is made by any token that is left. -/
def Plain (st : ParserState) : Prop := ∀ t ∈ st.cursor.after, t.Plain

variable {st st' : ParserState} {raw : List Token}

theorem Passed.plain (h : Passed raw st st') (hplain : st.Plain) : st'.Plain := by
  intro t ht
  exact hplain t (by rw [h.after]; exact List.mem_append_right raw ht)

theorem Plain.ahead_kind_ne (h : st.Plain) : st.ahead.map (·.kind) ≠ some .assign := by
  intro hahead
  obtain ⟨token, hahead, hkind⟩ := Option.map_eq_some_iff.mp hahead
  exact (h token (List.mem_of_find?_eq_some hahead)).1 hkind

/-- The tests that look for an assignment fail, and change nothing. -/
theorem Plain.upcomingAre_eq (h : st.Plain) {kind : TokenKind}
    (hkind : kind = .assign ∨ kind = .compoundAssign) :
    upcomingAre [.name, kind] st = .ok false st := by
  have hno : [.name, kind].isPrefixOf (st.upcoming.map (·.kind)) = false := by
    rw [Bool.eq_false_iff]
    intro hupcoming
    have hmem : kind ∈ st.upcoming.map (·.kind) :=
      (List.isPrefixOf_iff_prefix.mp hupcoming).subset (by simp)
    obtain ⟨token, htoken, rfl⟩ := List.mem_map.mp hmem
    have hplain := h token (List.mem_of_mem_filter htoken)
    exact hkind.elim hplain.1 hplain.2
  rw [upcomingAre, hno]

end ParserState

namespace Parser

variable {st st' : ParserState} {stmt : Stmt} {name blank sign : Token} {tail : List Token}

/-- Where nothing is assigned any more, all statements are expressions. Both tests for an assignment
fail, so the third branch is taken, and an expression that stands as a statement is not supported.
-/
theorem statement_of_plain (hplain : st.Plain) (h : statement st = .ok stmt st') :
    ∃ span, stmt = .unsupported .expr span := by
  rw [statement, bind_of_ok (hplain.upcomingAre_eq (.inl rfl)), if_neg Bool.false_ne_true,
    bind_of_ok (hplain.upcomingAre_eq (.inr rfl)), if_neg Bool.false_ne_true] at h
  obtain ⟨value, st₁, -, h⟩ := bind_ok_iff.mp h
  obtain ⟨rfl, rfl⟩ := pure_ok_iff.mp h
  exact ⟨value.span, rfl⟩

/-- An assignment with nothing assigned behind its `=`. That it is an assignment is seen from the
upcoming tokens, before anything is read; after that the name and the sign are read one by one, with
the blank passed over. -/
theorem statement_of_bare (hafter : st.cursor.after = name :: blank :: sign :: tail)
    (hopen : st.openParens = 0) (hname : name.kind = .name) (hblank : blank.kind = .whitespace)
    (hsign : sign.kind = .assign) (htail : ∀ t ∈ tail, t.Plain)
    (h : statement st = .ok stmt st') :
    (∃ value span, stmt = .assign ⟨name.lexeme, name.span⟩ value span) ∧ st'.Plain := by
  have hupcoming : upcomingAre [.name, .assign] st = .ok true st := by
    have hkinds : [.name, .assign].isPrefixOf (st.upcoming.map (·.kind)) = true := by
      simp [upcoming, hafter, isQuiet, hopen, hname, hblank, hsign]
    rw [upcomingAre, hkinds]
  rw [statement, bind_of_ok hupcoming, if_pos rfl] at h
  obtain ⟨first, st₃, hfirst, h⟩ := bind_ok_iff.mp h
  obtain ⟨target, st₁, sign', st₂, value, htarget, -, hsign', -, hvalue, rfl⟩ :=
    assignment_ok_iff.mp (attempt_ok_iff.mp hfirst)
  -- the name and the sign are the first tokens that count
  obtain ⟨_, hnext, hafter₁, hopen₁⟩ := next_of_loud hafter (by simp [isQuiet, hname, hopen])
  obtain ⟨rfl, rfl⟩ : name = target ∧ _ = st₁ := by simpa using hnext.symm.trans htarget
  obtain ⟨stb, hskip, hafterb, hopenb⟩ := next_of_quiet hafter₁ (by simp [isQuiet, hblank])
  obtain ⟨_, hnext₂, hafter₂, -⟩ :=
    next_of_loud hafterb (by simp [isQuiet, hsign, hopenb, hopen₁, hopen])
  obtain ⟨rfl, rfl⟩ : sign = sign' ∧ _ = st₂ := by
    simpa using (hskip.trans hnext₂).symm.trans hsign'
  obtain ⟨raw, hpassed⟩ := forward_expr hvalue
  have hplain : st₃.Plain := hpassed.plain (by rw [ParserState.Plain, hafter₂]; exact htail)
  rw [bind_of_ok (upcomingKind_eq st₃), if_pos hplain.ahead_kind_ne] at h
  obtain ⟨rfl, rfl⟩ := pure_ok_iff.mp h
  exact ⟨⟨value, _, rfl⟩, hplain⟩

/-- A turn where nothing is assigned any more reads one more expression. -/
theorem programTurn_of_plain {stmts more : List Stmt} (hplain : st.Plain)
    (h : programTurn stmts st = .ok (some more) st') :
    st'.Plain ∧ ∃ span, more = stmts ++ [.unsupported .expr span] := by
  obtain ⟨st₁, stmt, st₂, hseparators, -, hstmt, -, hend, rfl⟩ := programTurn_some_iff.mp h
  obtain ⟨raw₁, h₁⟩ := forward_separators hseparators
  obtain ⟨raw₂, h₂⟩ := forward_statement hstmt
  obtain ⟨raw₃, h₃⟩ := forward_endOfStatement hend
  have hplain₁ := h₁.plain hplain
  obtain ⟨span, rfl⟩ := statement_of_plain hplain₁ hstmt
  exact ⟨h₃.plain (h₂.plain hplain₁), span, rfl⟩

/-- The program `all` is `stmts`, and then expressions. The invariant of the loop that reads a
program, once the assignment has been read. -/
def GrownByExpressions (stmts all : List Stmt) : Prop :=
  ∃ later, all = stmts ++ later ∧ ∀ stmt ∈ later, ∃ span, stmt = .unsupported .expr span

theorem GrownByExpressions.refl (stmts : List Stmt) : GrownByExpressions stmts stmts :=
  ⟨[], (List.append_nil stmts).symm, by simp⟩

theorem GrownByExpressions.concat {stmts all : List Stmt} (h : GrownByExpressions stmts all)
    (span : Span) : GrownByExpressions stmts (all ++ [.unsupported .expr span]) := by
  obtain ⟨later, rfl, hlater⟩ := h
  refine ⟨later ++ [.unsupported .expr span], List.append_assoc _ _ _, ?_⟩
  intro stmt hmem
  rcases List.mem_append.mp hmem with hmem | hmem
  · exact hlater stmt hmem
  · exact ⟨span, List.mem_singleton.mp hmem⟩

/-- A program goes on with expressions where nothing is assigned any more. -/
theorem grow_programTurn_of_plain {stmts all : List Stmt} (hplain : st.Plain)
    (h : grow programTurn stmts st = .ok all st') : GrownByExpressions stmts all := by
  have hstep : ∀ {more st next st'}, st.Plain ∧ GrownByExpressions stmts more →
      programTurn more st = .ok (some next) st' → st'.Plain ∧ GrownByExpressions stmts next := by
    rintro more st next st' ⟨hplain, hmore⟩ hturn
    obtain ⟨hplain', span, rfl⟩ := programTurn_of_plain hplain hturn
    exact ⟨hplain', hmore.concat span⟩
  -- the invariant of the loop: plain tokens ahead, and only expressions added so far
  obtain ⟨_, ⟨-, hall⟩, -⟩ := grow_induct consuming_programTurn
    (fun more st => st.Plain ∧ GrownByExpressions stmts more) hstep h ⟨hplain, .refl stmts⟩
  exact hall

/-- A program that makes an assignment and then none. It is the first turn of the loop that reads
the assignment, since nothing but a separator could be passed over before it and the name is none.
-/
theorem program_of_bare {stmts : List Stmt}
    (hafter : st.cursor.after = name :: blank :: sign :: tail) (hopen : st.openParens = 0)
    (hname : name.kind = .name) (hblank : blank.kind = .whitespace) (hsign : sign.kind = .assign)
    (htail : ∀ t ∈ tail, t.Plain) (h : program st = .ok stmts st') :
    ∃ value span later, stmts = .assign ⟨name.lexeme, name.span⟩ value span :: later ∧
      ∀ stmt ∈ later, ∃ span, stmt = .unsupported .expr span := by
  have hahead : st.ahead = some name := by
    rw [ahead, hafter]
    exact List.find?_cons_of_pos (by simp [isQuiet, hname])
  have hseparators := separators_of_ahead hahead (by rw [hname]; rfl)
  rw [program, grow_eq consuming_programTurn] at h
  obtain ⟨next, st₁, hturn, hgrow⟩ := bind_ok_iff.mp h
  -- the first turn reads the assignment, and all later ones are in the loop above
  cases next with
  | none =>
    obtain ⟨hsep, hnone⟩ := programTurn_none_iff.mp hturn
    rw [hseparators] at hsep
    cases hsep
    rw [hahead] at hnone
    cases hnone
  | some more =>
    obtain ⟨st₂, first, st₃, hsep, -, hfirst, -, hend, rfl⟩ := programTurn_some_iff.mp hturn
    rw [hseparators] at hsep
    cases hsep
    obtain ⟨⟨value, span, rfl⟩, hplain⟩ :=
      statement_of_bare hafter hopen hname hblank hsign htail hfirst
    obtain ⟨raw, hpassed⟩ := forward_endOfStatement hend
    obtain ⟨later, rfl, hlater⟩ := grow_programTurn_of_plain (hpassed.plain hplain) hgrow
    exact ⟨value, span, later, rfl, hlater⟩

end Parser

/-- A text without `=` is read as one assignment, and expressions after it. -/
theorem parseProgram_normalize_bare {target text : String} {stmts : List Stmt}
    (htarget : IsName target.toList) (htext : '=' ∉ text.toList)
    (h : parseProgram (Surface.normalize target text) = .ok stmts) :
    ∃ place value span later, stmts = .assign ⟨target, place⟩ value span :: later ∧
      ∀ stmt ∈ later, ∃ span, stmt = .unsupported .expr span := by
  obtain ⟨name, blank, sign, tail, hscan, hname, rfl, hblank, hsign, htail⟩ :=
    scan_bare htarget htext
  obtain ⟨st', hprogram⟩ := runOn_ok_iff.mp h
  obtain ⟨value, span, later, hstmts, hlater⟩ :=
    program_of_bare ((ParserState.after_start _).trans hscan) rfl hname hblank hsign htail hprogram
  exact ⟨name.span, value, span, later, hstmts, hlater⟩

/-! ## Expressions without names

Nothing is known of any variable, so a name is the one way in which a value can be unknown, and an
operator passes that on. By induction the value of an expression is known just if it has no names.
-/

open Interpretation (exactly partly)

namespace Expr

/-- The names in an expression, from left to right. -/
def names : Expr → List String
  | literal (.name x) _ => [x]
  | literal _ _ => []
  | paren inner _ => inner.names
  | unary _ _ operand _ => operand.names
  | binary _ _ lhs rhs _ => lhs.names ++ rhs.names

theorem map_some_eq_ok {outcome : Except EvalFault Number} {known : Option Number} :
    outcome.map some = .ok known ↔ ∃ n, outcome = .ok n ∧ known = some n := by
  cases outcome <;> simp [Except.map, eq_comm]

/-- From variables of which nothing is known, the partial evaluator has the value of an expression
just if there are no names in it, and then the value is right whatever the variables are. By
induction on the expression. Both sides of an operator are needed, so one name anywhere in it is
enough to leave the value open. -/
theorem eval_partly_unknown {e : Expr} {known : Option Number}
    (h : e.eval partly unknown = .ok known) :
    (known.isSome ↔ e.names = []) ∧
      ∀ v, known = some v → ∀ vars, e.eval exactly vars = .ok v := by
  induction e generalizing known with
  | literal value span =>
    cases h
    cases value with
    | int n => exact ⟨by simp [Literal.eval, partly, names], by rintro v ⟨⟩ vars; rfl⟩
    | float x => exact ⟨by simp [Literal.eval, partly, names], by rintro v ⟨⟩ vars; rfl⟩
    | name x => exact ⟨by simp [Literal.eval, unknown, names], by rintro v ⟨⟩⟩
  | paren inner span ih => exact ih h
  | unary op opSpan operand span ih =>
    cases op with
    | pos => exact ih h
    | neg =>
      obtain ⟨k, hk, hknown⟩ := eval_neg_eq_ok.mp h
      obtain ⟨hnames, hvalue⟩ := ih hk
      cases k with
      | none =>
        cases hknown
        exact ⟨hnames, by rintro v ⟨⟩⟩
      | some m =>
        obtain ⟨n, hn, rfl⟩ := map_some_eq_ok.mp hknown
        refine ⟨hnames, ?_⟩
        rintro _ ⟨⟩ vars
        exact eval_neg_eq_ok.mpr ⟨m, hvalue m rfl vars, hn⟩
  | binary op opSpan lhs rhs span ihl ihr =>
    obtain ⟨k, l, hk, hl, hknown⟩ := eval_binary_eq_ok.mp h
    obtain ⟨hnamesl, hvaluel⟩ := ihl hk
    obtain ⟨hnamesr, hvaluer⟩ := ihr hl
    rw [names, List.append_eq_nil_iff, ← hnamesl, ← hnamesr]
    -- one side that is not known is enough, whatever the other comes to
    cases k with
    | none =>
      cases hknown
      exact ⟨by simp, by rintro v ⟨⟩⟩
    | some a =>
      cases l with
      | none =>
        cases hknown
        exact ⟨by simp, by rintro v ⟨⟩⟩
      | some b =>
        obtain ⟨n, hn, rfl⟩ := map_some_eq_ok.mp hknown
        refine ⟨by simp, ?_⟩
        rintro _ ⟨⟩ vars
        exact eval_binary_eq_ok.mpr ⟨a, b, hvaluel a rfl vars, hvaluer b rfl vars, hn⟩

end Expr

/-! ## Code that writes one variable

The code of the one assignment ends with its copy. The instructions before it write temporaries, and
folding leaves out instructions but makes none and changes no place that is written. -/

/-- The code writes one variable, by its last instruction. -/
def WritesLast (target : String) (code : List Instr) : Prop :=
  ∃ front last, code = front ++ [last] ∧ last.dest = .var target ∧
    ∀ instr ∈ front, instr.dest.isTemp

variable {target : String} {value : Expr} {later stmts : List Stmt} {code left : List Instr}
  {facts facts' : Facts}

theorem Numbered.isTemp_dest {first next : Nat} (h : Numbered first next code) :
    ∀ instr ∈ code, instr.dest.isTemp := by
  induction code generalizing next with
  | nil => simp
  | cons instr code ih =>
    intro i hi
    rcases List.mem_cons.mp hi with rfl | hi
    · rw [h.1]
      rfl
    · exact ih h.2.2 i hi

theorem linearizeFrom_eq_nil (h : ∀ stmt ∈ later, ∃ span, stmt = .unsupported .expr span)
    (before : Nat) : linearizeFrom before later = [] := by
  induction later generalizing before with
  | nil => rfl
  | cons stmt later ih =>
    obtain ⟨span, rfl⟩ := h stmt List.mem_cons_self
    rw [linearizeFrom, Stmt.linearize, ih fun stmt hmem => h stmt (List.mem_cons_of_mem _ hmem)]
    rfl

/-- Statements after an assignment that assign nothing have no code. -/
theorem linearize_bare (h : ∀ stmt ∈ later, ∃ span, stmt = .unsupported .expr span)
    (place span : Span) :
    linearize (.assign ⟨target, place⟩ value span :: later) =
      (value.linearize 0).1 ++ [⟨.var target, .copy (value.linearize 0).2, span⟩] := by
  rw [linearize, linearizeFrom, linearizeFrom_eq_nil h, List.append_nil]
  rfl

theorem writesLast_linearize_bare (h : ∀ stmt ∈ later, ∃ span, stmt = .unsupported .expr span)
    (place span : Span) :
    WritesLast target (linearize (.assign ⟨target, place⟩ value span :: later)) :=
  ⟨_, _, linearize_bare h place span, rfl, (value.linearizes 0).numbered.1.isTemp_dest⟩

/-- Of instructions that write temporaries, what is left writes temporaries. An instruction that is
kept has the place that it had. -/
theorem Facts.isTemp_dest_of_sweep (hcode : ∀ instr ∈ code, instr.dest.isTemp)
    (h : facts.sweep code = .ok (left, facts')) : ∀ instr ∈ left, instr.dest.isTemp := by
  induction code generalizing facts left with
  | nil =>
    cases h
    simp
  | cons instr code ih =>
    obtain ⟨first, next, rest, hvisit, hsweep, rfl⟩ := sweep_cons_ok h
    intro i hi
    rcases List.mem_append.mp hi with hi | hi
    · rcases (visit_of_ok hvisit).dest_span with ⟨rfl, -⟩ | ⟨value, rfl⟩
      · cases hi
      · obtain rfl : i = { instr with value } := by simpa using hi
        exact hcode instr List.mem_cons_self
    · exact ih (fun i hi => hcode i (List.mem_cons_of_mem _ hi)) hsweep i hi

/-- The last instruction is kept, since it writes a variable, and so it is still the last. -/
theorem WritesLast.sweep (h : WritesLast target code)
    (hsweep : facts.sweep code = .ok (left, facts')) : WritesLast target left := by
  obtain ⟨front, last, rfl, hlast, hfront⟩ := h
  obtain ⟨swept, next, swept', hfirst, hrest, rfl⟩ := Facts.sweep_append_ok hsweep
  obtain ⟨kept, facts'', rest, hvisit, hnil, rfl⟩ := Facts.sweep_cons_ok hrest
  cases hnil
  have htemps := Facts.isTemp_dest_of_sweep hfront hfirst
  rcases (Facts.visit_of_ok hvisit).dest_span with ⟨-, htemp⟩ | ⟨value, rfl⟩
  · rw [hlast] at htemp
    cases htemp
  · exact ⟨swept, { last with value }, rfl, hlast, htemps⟩

/-! ## The answer

The three theorems of folding are put together for this one program. What is known of the target in
the end is what the partial evaluator knows of it, and that is the value of the expression, as it is
assigned only once. -/

theorem lastAssignment?_eq_none (h : ∀ stmt ∈ later, ∃ span, stmt = .unsupported .expr span)
    (x : String) : lastAssignment? later x = none := by
  rw [lastAssignment?, Option.map_eq_none_iff, List.find?_eq_none]
  intro stmt hmem
  obtain ⟨span, rfl⟩ := h stmt (List.mem_reverse.mp hmem)
  exact Bool.false_ne_true

/-- The value of the target is that of the expression, as far as it is known. The statements behind
the assignment assign nothing, so what is known of the target does not change any more. -/
theorem evaluate_bare {place span : Span} {known : String → Option Number}
    (hlater : ∀ stmt ∈ later, ∃ span, stmt = .unsupported .expr span)
    (h : (evaluate partly unknown (.assign ⟨target, place⟩ value span :: later)).ending
      = .ok known) :
    value.eval partly unknown = .ok (known target) := by
  simp only [evaluate, Stmt.exec] at h
  cases hvalue : value.eval partly unknown with
  | error diagnostic =>
    rw [hvalue] at h
    cases h
  | ok v =>
    rw [hvalue] at h
    have hsame := evaluate_of_not_assigned (lastAssignment?_eq_none hlater target) h
    rw [hsame, Function.update_self]

/-- Folding finds the value of the expression if there are no names in it, and else nothing. Whether
the value is found is decided by what the sweep knows of the target; that this is the value of the
expression was shown for the partial evaluator. -/
theorem ofCode_bare {place span : Span} {folded : Folded}
    (hlater : ∀ stmt ∈ later, ∃ span, stmt = .unsupported .expr span)
    (h : Folded.ofCode target (linearize (.assign ⟨target, place⟩ value span :: later))
      = .ok folded) :
    (folded.result.isSome ↔ value.names = []) ∧
      (∀ v, folded.result = some v → (∀ vars, value.eval exactly vars = .ok v) ∧
        folded.code = [⟨.var target, .copy (.const v), span⟩]) ∧
      (folded.result = none → WritesLast target folded.code) := by
  have hcode : WritesLast target (linearize (.assign ⟨target, place⟩ value span :: later)) :=
    writesLast_linearize_bare hlater place span
  have hspan := lastWrite?_linearizeFrom (.assign ⟨target, place⟩ value span :: later) 0 target
  have hassigns : (Stmt.assign ⟨target, place⟩ value span).assigns target :=
    decide_eq_true rfl
  rw [lastAssignment?_cons, lastAssignment?_eq_none hlater, Option.none_or, if_pos hassigns,
    Stmt.span, ← linearize] at hspan
  cases hsweep : Facts.empty.sweep (linearize (.assign ⟨target, place⟩ value span :: later)) with
  | error diagnostic =>
    rw [ofCode_of_sweep_error hsweep] at h
    cases h
  | ok swept =>
    obtain ⟨left, facts⟩ := swept
    obtain ⟨known, hknown, hvars⟩ := partly_of_sweep_ok hsweep
    obtain ⟨hnames, hvalues⟩ := value.eval_partly_unknown (evaluate_bare hlater hknown)
    rw [hvars] at hnames hvalues
    -- folding asks what is known of the target after the sweep, and nothing else
    cases hvalue : facts.value? (.var target) with
    | none =>
      rw [ofCode_of_unknown hsweep hvalue] at h
      cases h
      rw [hvalue] at hnames
      exact ⟨hnames, by rintro v ⟨⟩, fun _ => hcode.sweep hsweep⟩
    | some v =>
      rw [← Facts.lastWrite?_sweep target hsweep] at hspan
      rw [ofCode_of_known hsweep hvalue hspan] at h
      cases h
      rw [hvalue] at hnames
      refine ⟨hnames, ?_, by rintro ⟨⟩⟩
      rintro _ ⟨⟩
      exact ⟨hvalues v hvalue, rfl⟩

/-- A text is compiled by reading it, making code of it, and folding that. -/
theorem Compiled.ofText_ok_iff {text : String} {compiled : Compiled} :
    ofText target text = .ok compiled ↔ ∃ stmts folded,
      parseProgram (Surface.normalize target text) = .ok stmts ∧
        Folded.ofCode target (linearize stmts) = .ok folded ∧
        compiled =
          ⟨Surface.normalize target text, stmts, linearize stmts, folded, .ofProgram stmts⟩ := by
  simp only [ofText, bind, Except.bind]
  cases parseProgram (Surface.normalize target text) with
  | error diagnostic => simp [Except.mapError]
  | ok stmts =>
    simp only [Except.mapError]
    cases hfold : Folded.ofCode target (linearize stmts) with
    | error diagnostic => simp [hfold]
    | ok folded => simp [hfold, pure, Except.pure, eq_comm]

/-- An expression alone is compiled as one assignment to the target: all other statements are
expressions without code, and of the variables only the target is written, and last. What it has in
the end is known just if there are no names in the expression. Then it is the value of the
expression, and nothing but that is left of the code; else what is left still writes only the
target, and last. -/
theorem ofText_bare {text : String} {compiled : Compiled} (htarget : IsName target.toList)
    (htext : '=' ∉ text.toList) (h : Compiled.ofText target text = .ok compiled) :
    ∃ place value span later,
      compiled.stmts = .assign ⟨target, place⟩ value span :: later ∧
        (∀ stmt ∈ later, ∃ span, stmt = .unsupported .expr span) ∧
        WritesLast target compiled.code ∧
        (compiled.folded.result.isSome ↔ value.names = []) ∧
        (∀ v, compiled.folded.result = some v → (∀ vars, value.eval exactly vars = .ok v) ∧
          compiled.folded.code = [⟨.var target, .copy (.const v), span⟩]) ∧
        (compiled.folded.result = none → WritesLast target compiled.folded.code) := by
  obtain ⟨stmts, folded, hparse, hfold, rfl⟩ := Compiled.ofText_ok_iff.mp h
  obtain ⟨place, value, span, later, rfl, hlater⟩ :=
    parseProgram_normalize_bare htarget htext hparse
  exact ⟨place, value, span, later, rfl, hlater, writesLast_linearize_bare hlater place span,
    ofCode_bare hlater hfold⟩

/-- Without names, though there is one in the next statement, and with a name. -/
theorem ofText_bare_cases :
    (∃ compiled v span, Compiled.ofText "x" " 2² + 1; y" = .ok compiled ∧
      compiled.folded.result = some v ∧
      compiled.folded.code = [⟨.var "x", .copy (.const v), span⟩] ∧ v.text = "5") ∧
    ∃ compiled, Compiled.ofText "area" "3r² + 1" = .ok compiled ∧
      compiled.folded.result = none ∧ WritesLast "area" compiled.folded.code := by
  constructor
  · have hread : ((Compiled.ofText "x" " 2² + 1; y").toOption.bind (·.folded.result)).map
        Number.text = some "5" := by
      decide +kernel
    obtain ⟨v, hresult, htext⟩ := Option.map_eq_some_iff.mp hread
    obtain ⟨compiled, hcompiled, hresult⟩ := Option.bind_eq_some_iff.mp hresult
    rw [toOption_eq_some_iff] at hcompiled
    obtain ⟨place, value, span, later, -, -, -, -, hvalue, -⟩ :=
      ofText_bare (by decide) (by decide) hcompiled
    exact ⟨compiled, v, span, hcompiled, hresult, (hvalue v hresult).2, htext⟩
  · have hread : (Compiled.ofText "area" "3r² + 1").toOption.map (·.folded.result.isNone)
        = some true := by
      decide +kernel
    obtain ⟨compiled, hcompiled, hunknown⟩ := Option.map_eq_some_iff.mp hread
    rw [toOption_eq_some_iff] at hcompiled
    rw [Option.isNone_iff_eq_none] at hunknown
    obtain ⟨place, value, span, later, -, -, -, -, -, hlast⟩ :=
      ofText_bare (by decide) (by decide) hcompiled
    exact ⟨compiled, hcompiled, hunknown, hlast hunknown⟩

end ThreeAddress
