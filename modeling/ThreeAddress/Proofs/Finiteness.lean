import ThreeAddress.Proofs.BareExpressions
import ThreeAddress.Proofs.Boundaries
import ThreeAddress.Proofs.Reading

/-!
# What code is made of

Only finite numbers come out of a program (`finite_numbers`). A float that is written out is finite
or no literal, and an operator has a finite result or none. In between the numbers are only handed
on: by the signs that are carried out beforehand, by what is known of places, by the copy that is
left of a program whose answer is known.

The variables are handed on in the same way. So both are followed at once: `Over names` says of some
code that its numbers are finite and its variables among `names`. It also says where a sign can be
left in code, as this is kept by the same steps.
-/

set_option autoImplicit false

namespace ThreeAddress

open ThreeAddress.Parser ThreeAddress.ParserState

/-! ## Programs

`Over` is carried from the statements to the code and on to what is left of it. With all names
allowed it says that all numbers are finite; with the names of a text it says what variables can
occur. -/

/-- The variables that a statement assigns to or reads. One that is not compiled has none. -/
def Stmt.names : Stmt → List String
  | assign target value _ => target.name :: value.names
  | unsupported _ _ => []

variable {names : Set String}

/-- The literal is a finite number or one of the names. -/
def Literal.Over (names : Set String) : Literal → Prop
  | int _ => True
  | float x => x.isFinite
  | name x => x ∈ names

/-- All literals in the expression are finite numbers or among the names. -/
def Expr.Over (names : Set String) : Expr → Prop
  | literal value _ => value.Over names
  | paren inner _ => inner.Over names
  | unary _ _ operand _ => operand.Over names
  | binary _ _ lhs rhs _ => lhs.Over names ∧ rhs.Over names

@[inherit_doc Expr.Over]
def Stmt.Over (names : Set String) : Stmt → Prop
  | assign target value _ => target.name ∈ names ∧ value.Over names
  | unsupported _ _ => True

theorem Expr.Over.finiteLiterals {e : Expr} (h : e.Over names) : e.finiteLiterals := by
  induction e with
  | literal value span =>
    cases value with
    | float x => exact h
    | int n => rfl
    | name x => rfl
  | paren inner span ih => exact ih h
  | unary op opSpan operand span ih => exact ih h
  | binary op opSpan lhs rhs span ihl ihr => exact Bool.and_eq_true_iff.mpr ⟨ihl h.1, ihr h.2⟩

theorem Stmt.Over.finiteLiterals {stmt : Stmt} (h : stmt.Over names) : stmt.finiteLiterals := by
  cases stmt with
  | unsupported kind span => rfl
  | assign target value span => exact Expr.Over.finiteLiterals h.2

/-! ## Programs that are read from a text

Literals are tokens of the text. The parser refuses a float that is too large, so that those which
are there are finite, and a name is a token that was scanned as one. -/

/-- A token of the kind of names is spelled as one, as scanning matches the pattern. -/
theorem isName_of_mem_scan {source : String} {token : Token} (h : token ∈ Token.scan source)
    (hkind : token.kind = .name) : IsName token.lexeme.toList := by
  obtain ⟨before, after, hscan⟩ := List.append_of_mem h
  have hlongest := (Token.head_of_scan hscan).2
  rw [hkind] at hlongest
  cases hcs : token.lexeme.toList with
  | nil => exact hlongest.ne_nil hcs
  | cons c word => exact TokenKind.mem_name.mp (hcs ▸ hlongest.mem)

/-- The tokens that a parser gets to read were in front of it. -/
theorem Consumes.mem_after {st st' : ParserState} {ts : List Token} (h : Consumes st ts st') :
    ∀ t ∈ ts, t ∈ st.cursor.after := by
  induction h with
  | nil st => simp
  | @cons st st₁ st' token ts hnext hrest ih =>
    obtain ⟨quiet, -, -, hpassed⟩ := passed_of_next hnext
    rw [hpassed.after]
    intro t ht
    rcases List.mem_cons.mp ht with rfl | ht
    · simp
    · exact List.mem_append_right _ (ih t ht)

/-- The literals of an expression are tokens of the text that it is read from. A float among them is
finite, and a name is spelled as one. By induction on how the tokens are laid out, since `Yields`
says which token each literal is. -/
theorem Expr.Yields.over {source : String} {e : Expr} {ts : List Token} (h : e.Yields ts)
    (hts : ∀ t ∈ ts, t ∈ Token.scan source) (hnames : ∀ x ∈ e.names, IsName x.toList → x ∈ names) :
    e.Over names := by
  induction h with
  | @literal value token htoken =>
    cases value with
    | int n => trivial
    | float x => exact htoken.2.2
    | name x =>
      obtain ⟨hkind, rfl⟩ := htoken
      exact hnames _ (List.mem_singleton_self _)
        (isName_of_mem_scan (hts token (List.mem_singleton_self _)) hkind)
  | paren hopening h hclosing ih =>
    exact ih (fun t ht => hts t (by simp [ht])) hnames
  | unary hsign h ih => exact ih (fun t ht => hts t (List.mem_cons_of_mem _ ht)) hnames
  | binary hl hop hr ihl ihr =>
    rw [Expr.names, List.forall_mem_append] at hnames
    exact ⟨ihl (fun t ht => hts t (List.mem_append_left _ ht)) hnames.1,
      ihr (fun t ht => hts t (by simp [ht])) hnames.2⟩

theorem Stmt.over_of_statement {source : String} {pre : List Token} {st st' : ParserState}
    {stmt : Stmt} (hpre : (ParserState.start source).Passed pre st)
    (h : statement st = .ok stmt st') (hnames : ∀ x ∈ stmt.names, IsName x.toList → x ∈ names) :
    stmt.Over names := by
  cases stmt with
  | unsupported kind span => trivial
  | assign target value span =>
    -- whatever is left to be read is a token of the whole text
    have hleft : ∀ t ∈ st.cursor.after, t ∈ Token.scan source := by
      intro t ht
      rw [← after_start, hpre.after]
      exact List.mem_append_right _ ht
    obtain ⟨name, st₁, sign, st₂, value', hname, hkind, hsign, -, hvalue, heq⟩ :=
      assignment_ok_iff.mp (assignment_of_statement h)
    obtain ⟨rfl, rfl, -⟩ := Stmt.assign.inj heq
    obtain ⟨quiet, -, -, hpassed⟩ := passed_of_next hname
    obtain ⟨raw, hpassed'⟩ := forward_next hsign
    obtain ⟨ts, hconsumes, hyields⟩ := (parsed_of_expr hvalue).reads
    rw [Stmt.names, List.forall_mem_cons] at hnames
    constructor
    · refine hnames.1 (isName_of_mem_scan (hleft name ?_) hkind)
      rw [hpassed.after]
      simp
    · refine hyields.over (fun t ht => hleft t ?_) hnames.2
      rw [hpassed.after, hpassed'.after]
      exact List.mem_append_right _ (List.mem_append_right _ (hconsumes.mem_after t ht))

/-- What a program is made of, by the spelling of its names. Names enter through `hnames` only, so
one may ask for as little of them as one likes. -/
theorem over_of_parseProgram {source : String} {stmts : List Stmt}
    (h : parseProgram source = .ok stmts)
    (hnames : ∀ stmt ∈ stmts, ∀ x ∈ stmt.names, IsName x.toList → x ∈ names) :
    ∀ stmt ∈ stmts, stmt.Over names := by
  have hread := forall_of_parseProgram
    (P := fun stmt => (∀ x ∈ stmt.names, IsName x.toList → x ∈ names) → stmt.Over names)
    (fun hpre hstmt => Stmt.over_of_statement hpre hstmt) h
  exact fun stmt hmem => hread stmt hmem (hnames stmt hmem)

/-! ## Code

The same once more for places, operands, computations and instructions. A sign is the only thing in
code that is narrower than in statements: `+` is gone, and so is a minus before a constant that
could be negated. -/

/-- The place is a temporary or one of the names. -/
def Place.Over (names : Set String) : Place → Prop
  | temp _ => True
  | var x => x ∈ names

/-- The operand is a finite number, or stands for a temporary or one of the names. -/
def Operand.Over (names : Set String) : Operand → Prop
  | place p => p.Over names
  | const n => n.isFinite

/-- The operands are of that kind, and a sign is a minus before something that it cannot be carried
out on. -/
def Computation.Over (names : Set String) : Computation → Prop
  | copy a => a.Over names
  | unary op a => op = .neg ∧ a.negated? = none ∧ a.Over names
  | binary _ a b => a.Over names ∧ b.Over names

/-- What the instruction reads and writes is of that kind. -/
structure Instr.Over (names : Set String) (instr : Instr) : Prop where
  dest : instr.dest.Over names
  value : instr.value.Over names

theorem Computation.Over.operands {c : Computation} (h : c.Over names) :
    ∀ a ∈ c.operands, a.Over names := by
  cases c with
  | copy a => exact List.forall_mem_singleton.mpr h
  | unary op a => exact List.forall_mem_singleton.mpr h.2.2
  | binary op a b => exact List.forall_mem_cons.mpr ⟨h.1, List.forall_mem_singleton.mpr h.2⟩

/-! ### Linearization -/

theorem Literal.Over.operand {value : Literal} (h : value.Over names) :
    value.operand.Over names := by
  cases value with
  | int n => rfl
  | float x => exact h
  | name x => exact h

/-- Negating a finite number gives a finite one. -/
theorem Operand.Over.negated {a : Operand} {n : Number} (h : a.Over names)
    (hn : a.negated? = some n) : n.isFinite := by
  cases a with
  | place p => cases hn
  | const m =>
    simp only [negated?, const?, bind, Option.bind] at hn
    cases hm : Number.unary .neg m with
    | error fault =>
      rw [hm] at hn
      cases hn
    | ok k =>
      rw [hm] at hn
      obtain rfl : k = n := Option.some.inj hn
      exact Number.isFinite_of_unary hm h

theorem Operand.Over.settle {before : Nat} {span : Span} {code : List Instr} {a a' : Operand}
    (ha : a.Over names) (h : a.settle before span = (code, a')) :
    (∀ instr ∈ code, instr.Over names) ∧ a'.Over names := by
  cases a with
  | place p =>
    cases h
    exact ⟨List.forall_mem_nil _, ha⟩
  | const n =>
    cases h
    exact ⟨List.forall_mem_singleton.mpr ⟨trivial, ha⟩, trivial⟩

/-- By the rules. What is added to the code of the parts is one instruction on their operands, or
none. -/
theorem Expr.Linearizes.over {e : Expr} {before : Nat} {code : List Instr} {a : Operand}
    (h : e.Linearizes before code a) (he : e.Over names) :
    (∀ instr ∈ code, instr.Over names) ∧ a.Over names := by
  induction h with
  | literal => exact ⟨List.forall_mem_nil _, Literal.Over.operand he⟩
  | paren _ ih => exact ih he
  | pos _ ih => exact ih he
  | negated _ hneg ih =>
    obtain ⟨hcode, ha⟩ := ih he
    exact ⟨hcode, ha.negated hneg⟩
  | neg _ hneg ih =>
    obtain ⟨hcode, ha⟩ := ih he
    refine ⟨List.forall_mem_append.mpr ⟨hcode, ?_⟩, trivial⟩
    exact List.forall_mem_singleton.mpr ⟨trivial, rfl, hneg, ha⟩
  | binary _ _ hfirst hsecond ihl ihr =>
    obtain ⟨hleft, ha⟩ := ihl he.1
    obtain ⟨hright, hb⟩ := ihr he.2
    obtain ⟨hfirst, ha⟩ := ha.settle hfirst
    obtain ⟨hsecond, hb⟩ := hb.settle hsecond
    simp only [List.forall_mem_append]
    exact ⟨⟨⟨⟨⟨hleft, hright⟩, hfirst⟩, hsecond⟩,
      List.forall_mem_singleton.mpr ⟨trivial, ha, hb⟩⟩, trivial⟩

theorem over_linearizeFrom {stmts : List Stmt} (h : ∀ stmt ∈ stmts, stmt.Over names)
    (before : Nat) : ∀ instr ∈ linearizeFrom before stmts, instr.Over names := by
  induction stmts generalizing before with
  | nil => simp [linearizeFrom]
  | cons stmt stmts ih =>
    obtain ⟨hstmt, hstmts⟩ := List.forall_mem_cons.mp h
    refine List.forall_mem_append.mpr ⟨?_, ih hstmts _⟩
    cases stmt with
    | unsupported kind span => simp [Stmt.linearize]
    | assign target value span =>
      obtain ⟨hcode, ha⟩ := (value.linearizes before).over hstmt.2
      exact List.forall_mem_append.mpr ⟨hcode, List.forall_mem_singleton.mpr ⟨hstmt.1, ha⟩⟩

/-! ### Folding

What is known of places is part of the invariant, for it ends up in the code. A visit keeps both:
the values that it computes are checked, and everything else it puts in was known before. -/

/-- What is known of places is of that kind. -/
structure Facts.Over (names : Set String) (facts : Facts) : Prop where
  value? : ∀ p n, facts.value? p = some n → n.isFinite
  source? : ∀ p q, facts.source? p = some q → q.Over names

theorem Facts.over_empty : Facts.empty.Over names :=
  ⟨by rintro p n ⟨⟩, by rintro p q ⟨⟩⟩

section

variable {facts facts' : Facts} {instr : Instr} {left : Option Instr}

theorem Facts.Over.resolve (h : facts.Over names) {a : Operand} (ha : a.Over names) :
    (facts.resolve a).Over names := by
  cases a with
  | const n => exact ha
  | place p =>
    simp only [Facts.resolve]
    split
    next n hn => exact h.value? _ n hn
    next =>
      cases hsource : facts.source? p with
      | none => exact ha
      | some source => exact h.source? p source hsource

/-- What an instruction computes from operands of that kind is finite. A copy hands a constant on, a
sign keeps it finite, and a binary operator checks what comes out. -/
theorem Computation.isFinite_of_eval? {c : Computation} (h : ∀ a ∈ c.operands, a.Over names)
    {n : Number} (hn : c.eval? = some (.ok n)) : n.isFinite := by
  obtain ⟨a⟩ | ⟨op, a⟩ | ⟨op, a, b⟩ := c
  · cases a with
    | place p => cases hn
    | const m =>
      cases hn
      exact h _ (List.mem_singleton_self _)
  · cases a with
    | place p => cases hn
    | const m =>
      exact Number.isFinite_of_unary (Option.some.inj hn) (h _ (List.mem_singleton_self _))
  · cases a with
    | place p => cases hn
    | const m =>
      cases b with
      | place p => cases hn
      | const k => exact Number.isFinite_of_binary (Option.some.inj hn)

/-- An instruction that cannot be carried out is of that kind with what is known of its operands,
for a minus that stays then stands before a place. -/
theorem Facts.Over.simplify (h : facts.Over names) {c : Computation} (hc : c.Over names)
    (hn : (c.mapOperands facts.resolve).eval? = none) :
    (c.mapOperands facts.resolve).simplify.Over names := by
  have hover : (c.mapOperands facts.resolve).Over names := by
    cases c with
    | copy a => exact h.resolve hc
    | binary op a b => exact ⟨h.resolve hc.1, h.resolve hc.2⟩
    | unary op a =>
      refine ⟨hc.1, ?_, h.resolve hc.2.2⟩
      simp only [Computation.mapOperands, Computation.eval?] at hn
      cases ha : facts.resolve a with
      | place p => rfl
      | const n =>
        rw [ha] at hn
        cases hn
  rcases (c.mapOperands facts.resolve).simplify_cases with hc' | ⟨a, hc', hs⟩ | ⟨a, hc', hs⟩
  · rwa [hc']
  · rw [hc'] at hover
    rw [hs]
    exact hover.1
  · rw [hc'] at hover
    rw [hs]
    exact hover.1

theorem Facts.Visit.over (hvisit : facts.Visit instr left facts') (h : facts.Over names)
    (hinstr : instr.Over names) :
    (∀ i ∈ left.toList, i.Over names) ∧ facts'.Over names := by
  have hoperands : ∀ a ∈ (instr.value.mapOperands facts.resolve).operands, a.Over names := by
    rw [Computation.operands_mapOperands, List.forall_mem_map]
    exact fun a ha => h.resolve (hinstr.value.operands a ha)
  -- other places are known as before, so what is left to say is about the one that is written
  have hkeep (hvalue : ∀ n, facts'.value? instr.dest = some n → n.isFinite)
      (hsource : ∀ q, facts'.source? instr.dest = some q → q.Over names) : facts'.Over names := by
    constructor
    · intro p n hp
      by_cases hpd : p = instr.dest
      · exact hvalue n (hpd ▸ hp)
      · exact h.value? p n (by rwa [← hvisit.value?_of_ne hpd])
    · intro p q hp
      by_cases hpd : p = instr.dest
      · exact hsource q (hpd ▸ hp)
      · exact h.source? p q (by rwa [← hvisit.source?_of_ne hpd])
  -- the three kinds of visit: a value is learned, a copy is learned, or the place is forgotten
  cases hvisit with
  | @folded n hvalue =>
    have hn : n.isFinite := Computation.isFinite_of_eval? hoperands hvalue
    constructor
    · split
      · simp
      · exact List.forall_mem_singleton.mpr ⟨hinstr.dest, hn⟩
    · refine hkeep ?_ ?_
      · intro m hm
        obtain rfl : n = m := by simpa [Facts.value?, assign] using hm
        exact hn
      · intro q hq
        simp [Facts.source?, assign] at hq
  | @linked index source hvalue hdest hcopy =>
    refine ⟨by simp, hkeep ?_ ?_⟩
    · intro m hm
      simp [Facts.value?, link, hdest] at hm
    · intro q hq
      obtain rfl : source = q := by simpa [Facts.source?, link, hdest] using hq
      exact hoperands _ (Computation.mem_operands_of_simplify hcopy)
  | kept hvalue =>
    refine ⟨List.forall_mem_singleton.mpr ⟨hinstr.dest, h.simplify hinstr.value hvalue⟩,
      hkeep ?_ ?_⟩
    · intro m hm
      simp [Facts.value?] at hm
    · intro q hq
      simp [Facts.source?] at hq

theorem Facts.Over.sweep {code swept : List Instr} (h : facts.Over names)
    (hcode : ∀ instr ∈ code, instr.Over names) (hsweep : facts.sweep code = .ok (swept, facts')) :
    (∀ instr ∈ swept, instr.Over names) ∧ facts'.Over names := by
  induction code generalizing facts swept with
  | nil =>
    cases hsweep
    exact ⟨by simp, h⟩
  | cons instr code ih =>
    obtain ⟨first, next, rest, hvisit, hmore, rfl⟩ := sweep_cons_ok hsweep
    obtain ⟨hinstr, hcode⟩ := List.forall_mem_cons.mp hcode
    obtain ⟨hfirst, hnext⟩ := (visit_of_ok hvisit).over h hinstr
    obtain ⟨hrest, hlast⟩ := ih hnext hcode hmore
    exact ⟨List.forall_mem_append.mpr ⟨hfirst, hrest⟩, hlast⟩

end

/-- What is left of code is made of what the code is made of. The single copy that is left when the
answer is known has a value that the facts had. -/
theorem over_ofCode {answer : String} {code : List Instr} {folded : Folded}
    (hcode : ∀ instr ∈ code, instr.Over names) (h : Folded.ofCode answer code = .ok folded) :
    (∀ instr ∈ folded.code, instr.Over names) ∧ ∀ n, folded.result = some n → n.isFinite := by
  cases hsweep : Facts.empty.sweep code with
  | error diagnostic =>
    rw [ofCode_of_sweep_error hsweep] at h
    cases h
  | ok swept =>
    obtain ⟨left, facts⟩ := swept
    obtain ⟨hleft, hfacts⟩ := Facts.over_empty.sweep hcode hsweep
    simp only [Folded.ofCode, hsweep, bind, Except.bind] at h
    split at h
    next n span hn hspan =>
      cases h
      have hn : n.isFinite := hfacts.value? _ n hn
      -- the answer was written in the code, so its name is one of the names
      obtain ⟨last, hfind, -⟩ := Option.map_eq_some_iff.mp hspan
      have hdest : last.dest = .var answer := by simpa using List.find?_some hfind
      have hlast : last.dest.Over names :=
        (hleft last (List.mem_reverse.mp (List.mem_of_find?_eq_some hfind))).dest
      rw [hdest] at hlast
      refine ⟨List.forall_mem_singleton.mpr ⟨hlast, hn⟩, ?_⟩
      rintro m ⟨⟩
      exact hn
    next =>
      cases h
      exact ⟨hleft, by rintro n ⟨⟩⟩

/-! ## Compiled programs

Reading, linearizing and folding in a row, with what was shown for each. -/

variable (names) in
/-- What a compiled program is made of, by the spelling of its names. It serves twice: for numbers
with all names allowed, and for the variables of printed code with the names of the text. -/
theorem Compiled.over {target text : String} {compiled : Compiled}
    (h : ofText target text = .ok compiled)
    (hnames : ∀ stmt ∈ compiled.stmts, ∀ x ∈ stmt.names, IsName x.toList → x ∈ names) :
    (∀ stmt ∈ compiled.stmts, stmt.Over names) ∧ (∀ instr ∈ compiled.code, instr.Over names) ∧
      (∀ instr ∈ compiled.folded.code, instr.Over names) ∧
      ∀ n, compiled.folded.result = some n → n.isFinite := by
  obtain ⟨stmts, folded, hparse, hfold, rfl⟩ := ofText_ok_iff.mp h
  have hstmts := over_of_parseProgram hparse hnames
  have hcode := over_linearizeFrom hstmts 0
  exact ⟨hstmts, hcode, over_ofCode hcode hfold⟩

/-- All constants in the code are finite. -/
def FiniteConstants (code : List Instr) : Prop :=
  ∀ instr ∈ code, ∀ n, .const n ∈ instr.value.operands → n.isFinite

theorem finiteConstants_of_over {code : List Instr} (h : ∀ instr ∈ code, instr.Over names) :
    FiniteConstants code :=
  fun instr hinstr _ hn => (h instr hinstr).value.operands _ hn

/-- Only finite numbers come out. In a program that is compiled all literals are finite, and so are
all constants in its code and in what folding leaves of it, and the answer, if it is known. An
operator on finite numbers has a finite result, if it has one. The last two parts hold of operands
that are finite or not, for the binary operators; the theorem keeps the condition for both, as a
sign needs it. -/
theorem finite_numbers :
    (∀ (target text : String) (compiled : Compiled), Compiled.ofText target text = .ok compiled →
      (∀ stmt ∈ compiled.stmts, stmt.finiteLiterals) ∧ FiniteConstants compiled.code ∧
        FiniteConstants compiled.folded.code ∧
        ∀ n, compiled.folded.result = some n → n.isFinite) ∧
    (∀ (op : UnOp) (a c : Number), a.isFinite → Number.unary op a = .ok c → c.isFinite) ∧
    ∀ (op : BinOp) (a b c : Number), a.isFinite → b.isFinite → Number.binary op a b = .ok c →
      c.isFinite := by
  refine ⟨?_, ?_, ?_⟩
  · intro target text compiled h
    obtain ⟨hstmts, hcode, hfolded, hresult⟩ :=
      Compiled.over Set.univ h fun _ _ _ _ _ => trivial
    exact ⟨fun stmt hmem => (hstmts stmt hmem).finiteLiterals, finiteConstants_of_over hcode,
      finiteConstants_of_over hfolded, hresult⟩
  · intro op a c ha h
    exact Number.isFinite_of_unary h ha
  · intro op a b c _ _ h
    exact Number.isFinite_of_binary h

/-- A rest of floats that is moved to the sign of its divisor, and the operators in it. -/
theorem finite_numbers_modulo :
    (∃ compiled n, Compiled.ofText "x" "y = -2.5z; x = 7.5 % -2" = .ok compiled ∧
      FiniteConstants compiled.code ∧ compiled.folded.result = some n ∧ n.text = "-0.5" ∧
      n.isFinite) ∧
    (∃ c, Number.unary .neg (.int 2) = .ok c ∧ c.isFinite) ∧
    ∃ c, Number.binary .mod (.float 7.5) (.int (-2)) = .ok c ∧ c.isFinite := by
  obtain ⟨hcompiled, hunary, hbinary⟩ := finite_numbers
  refine ⟨?_, ⟨.int (-2), rfl, hunary .neg (.int 2) _ rfl rfl⟩, ?_⟩
  · have hread : ((Compiled.ofText "x" "y = -2.5z; x = 7.5 % -2").toOption.bind
        (·.folded.result)).map Number.text = some "-0.5" := by
      decide +kernel
    obtain ⟨n, hresult, htext⟩ := Option.map_eq_some_iff.mp hread
    obtain ⟨compiled, hok, hresult⟩ := Option.bind_eq_some_iff.mp hresult
    rw [toOption_eq_some_iff] at hok
    obtain ⟨-, hcode, -, hfinite⟩ := hcompiled _ _ _ hok
    exact ⟨compiled, n, hok, hcode, hresult, htext, hfinite n hresult⟩
  · have hread : (Number.binary .mod (.float 7.5) (.int (-2))).toOption.isSome := by
      decide +kernel
    obtain ⟨c, hc⟩ := Option.isSome_iff_exists.mp hread
    rw [toOption_eq_some_iff] at hc
    exact ⟨c, hc, hbinary .mod _ _ _ (by decide +kernel) rfl hc⟩

end ThreeAddress
