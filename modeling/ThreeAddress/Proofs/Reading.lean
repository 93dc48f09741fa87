import ThreeAddress.Proofs.Scanning
import ThreeAddress.Proofs.Statements

/-!
# What is read from a text

The expressions that parsing a text gives, be it an expression alone or the value of an assignment
in a program, stand for the tokens of the text where they are, and miss no parentheses.
-/

set_option autoImplicit false

namespace ThreeAddress

open ThreeAddress.ParserState ThreeAddress.Parser

variable {source : String} {e : Expr}

/-! ## The places of expressions

Where an expression was read is given by a state that the parser gets to from the beginning of the
text. What holds there is carried from the state to the text afterwards. -/

/-- What holds of every statement that can be read somewhere in a text holds of the statements of a
program. The property is of the statement alone, so that it can be carried along while the program
grows. -/
theorem forall_of_parseProgram {P : Stmt → Prop} {stmts : List Stmt}
    (hP : ∀ {pre st stmt st'}, (ParserState.start source).Passed pre st →
      statement st = .ok stmt st' → P stmt)
    (h : parseProgram source = .ok stmts) : ∀ stmt ∈ stmts, P stmt := by
  obtain ⟨st', hgrow⟩ := runOn_ok_iff.mp h
  -- the invariant of the loop: the place was walked to, and the statements so far have the
  -- property
  have hstep : ∀ {stmts st more st'},
      ((∃ pre, (ParserState.start source).Passed pre st) ∧ ∀ stmt ∈ stmts, P stmt) →
      programTurn stmts st = .ok (some more) st' →
      (∃ pre, (ParserState.start source).Passed pre st') ∧ ∀ stmt ∈ more, P stmt := by
    rintro stmts st more st' ⟨⟨pre, hpre⟩, hstmts⟩ hturn
    obtain ⟨st₁, stmt, st₂, hseparators, -, hstmt, -, hend, rfl⟩ := programTurn_some_iff.mp hturn
    obtain ⟨raw₁, h₁⟩ := forward_separators hseparators
    obtain ⟨raw₂, h₂⟩ := forward_statement hstmt
    obtain ⟨raw₃, h₃⟩ := forward_endOfStatement hend
    refine ⟨⟨pre ++ raw₁ ++ raw₂ ++ raw₃, ((hpre.trans h₁).trans h₂).trans h₃⟩, ?_⟩
    exact List.forall_mem_append.mpr
      ⟨hstmts, List.forall_mem_singleton.mpr (hP (hpre.trans h₁) hstmt)⟩
  obtain ⟨st₁, ⟨-, hstmts⟩, -⟩ := grow_induct consuming_programTurn
    (fun stmts st => (∃ pre, (ParserState.start source).Passed pre st) ∧ ∀ stmt ∈ stmts, P stmt)
    hstep hgrow ⟨⟨[], .refl _⟩, by simp⟩
  exact hstmts

/-- The token does not count within so many open parentheses. -/
def Token.IsQuietAt (depth : Nat) (token : Token) : Prop :=
  token.kind = .whitespace ∨ 0 < depth ∧ token.kind = .newLine

instance (depth : Nat) (token : Token) : Decidable (token.IsQuietAt depth) :=
  inferInstanceAs (Decidable (_ ∨ _))

/-- The tokens that count: all but blanks, and line ends within parentheses. A line end counts where
no parenthesis is open, for it ends a statement there. -/
def significant : (depth : Nat) → List Token → List Token
  | _, [] => []
  | depth, token :: rest =>
    if token.IsQuietAt depth then significant depth rest
    else token :: significant (token.depthAfter depth) rest

theorem ParserState.isQuiet_iff {st : ParserState} {token : Token} :
    st.isQuiet token ↔ token.IsQuietAt st.openParens := by
  simp [isQuiet, Token.IsQuietAt]

theorem significant_append_of_quiet {depth : Nat} {quiet : List Token}
    (h : ∀ t ∈ quiet, t.IsQuietAt depth) (rest : List Token) :
    significant depth (quiet ++ rest) = significant depth rest := by
  induction quiet with
  | nil => rfl
  | cons token quiet ih =>
    rw [List.cons_append, significant, if_pos (h token List.mem_cons_self)]
    exact ih fun t ht => h t (List.mem_cons_of_mem token ht)

/-- What a parser has read are the tokens that count of those it has passed, and the last of those
counts. By induction on the tokens that were read. In front of each there may be others that do not
count. -/
theorem Consumes.exists_passed {st st' : ParserState} {ts : List Token} (h : Consumes st ts st') :
    ∃ raw, st.cursor.after = raw ++ st'.cursor.after ∧ raw.getLast? = ts.getLast? ∧
      ∀ rest, significant st.openParens (raw ++ rest) = ts ++ significant st'.openParens rest := by
  induction h with
  | nil st => exact ⟨[], rfl, rfl, fun rest => rfl⟩
  | @cons st st₁ st' token ts hnext hrest ih =>
    obtain ⟨raw, hafter, hlast, hsignificant⟩ := ih
    obtain ⟨quiet, hquiet, hloud, hpassed⟩ := passed_of_next hnext
    refine ⟨quiet ++ token :: raw, ?_, ?_, ?_⟩
    · rw [hpassed.after, show st₁.cursor.after = raw ++ st'.cursor.after from hafter]
      simp
    · rw [List.getLast?_append, List.getLast?_cons, List.getLast?_cons, hlast]
      rfl
    · intro rest
      have hloud : ¬token.IsQuietAt st.openParens := by
        rw [← isQuiet_iff, hloud]
        exact Bool.false_ne_true
      have hdepth : (st₁.counting token).openParens = token.depthAfter st.openParens :=
        congrArg token.depthAfter hpassed.openParens
      rw [List.append_assoc,
        significant_append_of_quiet fun t ht => isQuiet_iff.mp (hquiet t ht), List.cons_append,
        significant, if_neg hloud, ← hdepth, hsignificant]
      rfl

end ThreeAddress
