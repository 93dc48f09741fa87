import ThreeAddress.Proofs.Sweep

/-!
# Folding finds exactly what is knowable

The sweep of a program's code knows of every variable what the partial evaluator knows of it, and
fails just where that does (`ofCode_linearize`): nothing that could be folded is missed, and nothing
unknown is folded.

Swept is code, and partly evaluated are statements. Between them stands the partial run of the code,
which keeps pace with the sweep: after every instruction, a current place has the constant that it
is known as (`Facts.Matches`).
-/

set_option autoImplicit false

namespace ThreeAddress

open Interpretation (partly)

/-! ## The sweep keeps pace with the partial run

Here the sweep is compared with a run of the same code, and not with a run of what is left of it as
for the meaning of programs. So instructions that are left out need no treatment of their own: they
are run too. -/

/-- What the partial run holds in a current place is the constant that the place is known as. Where
the place is known as another place or as nothing, the partial run must have nothing there. -/
structure Facts.Matches (facts : Facts) (current : Set Place) (known : Store (Option Number)) :
    Prop where
  tidy : facts.Tidy current
  read : ∀ p ∈ current, known.read p = some (facts.resolve (.place p)).const?

section

variable {facts facts' : Facts} {current : Set Place} {known : Store (Option Number)}
  {instr : Instr} {code : List Instr}

/-- Without a source, a place is known as its value. -/
theorem Facts.const?_resolve {p : Place} (h : facts.source? p = none) :
    (facts.resolve (.place p)).const? = facts.value? p := by
  simp only [resolve, h, Option.getD_none]
  cases facts.value? p <;> rfl

/-- An operand has in the partial run what it is known as, if that is a constant. -/
theorem Facts.Matches.eval (h : facts.Matches current known) {a : Operand}
    (ha : ∀ p, .place p = a → p ∈ current) :
    a.eval partly known = .ok (facts.resolve a).const? := by
  cases a with
  | const n => rfl
  | place p => simp only [Operand.eval, h.read p (ha p rfl)]

/-- A partial computation comes to what carrying out the instruction comes to in the sweep, where
nothing stands for something unknown. -/
theorem Facts.Matches.eval_computation (h : facts.Matches current known) {c : Computation}
    (hc : ∀ p, .place p ∈ c.operands → p ∈ current) (span : Span) :
    c.eval partly known span =
      match (c.mapOperands facts.resolve).eval? with
      | some outcome => ((outcomeAt span outcome).map some).mapError .fault
      | none => .ok none := by
  cases c with
  | copy a =>
    have ha := h.eval fun p hp => hc p (hp ▸ List.mem_singleton_self _)
    simp only [Computation.eval, ha, Computation.mapOperands, Computation.eval?]
    cases (facts.resolve a).const? <;> rfl
  | unary op a =>
    have ha := h.eval fun p hp => hc p (hp ▸ List.mem_singleton_self _)
    simp only [Computation.eval, ha, Computation.mapOperands, Computation.eval?]
    cases (facts.resolve a).const? with
    | none => rfl
    | some m =>
      simp only [bind, Except.bind, Option.bind, partly]
      cases Number.unary op m <;> rfl
  | binary op a b =>
    have ha := h.eval fun p hp => hc p (hp ▸ List.mem_cons_self)
    have hb := h.eval fun p hp => hc p (hp ▸ List.mem_cons_of_mem _ (List.mem_singleton_self _))
    simp only [Computation.eval, ha, hb, Computation.mapOperands, Computation.eval?]
    -- a computation is carried out where all its operands are constants, and only there
    cases (facts.resolve a).const? with
    | none => cases (facts.resolve b).const? <;> rfl
    | some m =>
      cases (facts.resolve b).const? with
      | none => rfl
      | some n =>
        simp only [bind, Except.bind, Option.bind, partly]
        cases Number.binary op m n <;> rfl

/-- What a visit knows of the place that was written is what the partial run writes there. -/
theorem Facts.Visit.matches {left : Option Instr} (hvisit : facts.Visit instr left facts')
    (h : facts.Matches current known)
    (hreads : ∀ p, .place p ∈ instr.value.operands → p ∈ current) :
    ∃ v, instr.value.eval partly known instr.span = .ok v ∧
      facts'.Matches (facts.currentAfter current instr.dest) (known.write instr.dest v) := by
  have heval := h.eval_computation hreads instr.span
  -- a visit that matches at the place written matches at all current places
  have hkeep (v : Option Number) (hv : (facts'.resolve (.place instr.dest)).const? = v) :
      facts'.Matches (facts.currentAfter current instr.dest) (known.write instr.dest v) := by
    refine ⟨hvisit.tidy h.tidy, ?_⟩
    intro p hp
    by_cases hpd : p = instr.dest
    · rw [hpd, Store.read_write_self, hv]
    -- a current place is no copy of the one written, so it is known as before
    · obtain ⟨hp, hsource⟩ := hp.resolve_left hpd
      rw [Store.read_write_of_ne _ hpd, hvisit.resolve_of_ne hpd hsource, h.read p hp]
  cases hvisit with
  | @folded n hvalue =>
    rw [hvalue] at heval
    exact ⟨some n, heval, hkeep _ (by rw [resolve_assign_self]; rfl)⟩
  | @linked index source hvalue hdest hcopy =>
    rw [hvalue] at heval
    obtain ⟨a, -, ha⟩ := exists_operand_of_simplify hcopy
    refine ⟨none, heval, hkeep _ ?_⟩
    rw [hdest, resolve_link_self index (value?_of_resolve ha)]
    rfl
  | kept hvalue =>
    rw [hvalue] at heval
    exact ⟨none, heval, hkeep _ (by rw [resolve_forget_self]; rfl)⟩

/-- If the sweep gets through, the partial run does, and then what is known of a variable is what
the run has in it. By induction on the code. In the end the variables are current, whatever has
become of temporaries. -/
theorem Facts.Matches.sweep_ok {left : List Instr} (h : facts.Matches current known)
    (hreads : ReadsCurrent facts current code) (hsweep : facts.sweep code = .ok (left, facts')) :
    ∃ known', (run partly known code).ending = .ok known' ∧
      ∀ x, known'.vars x = facts'.value? (.var x) := by
  induction code generalizing facts current known left with
  | nil =>
    cases hsweep
    refine ⟨known, rfl, ?_⟩
    intro x
    have hx := h.read (.var x) (h.tidy.var_mem x)
    rw [const?_resolve (h.tidy.source?_var x)] at hx
    exact Option.some.inj hx
  | cons instr code ih =>
    obtain ⟨first, next, rest, hvisit, hsweep, -⟩ := sweep_cons_ok hsweep
    obtain ⟨v, hv, hmatches⟩ := (visit_of_ok hvisit).matches h hreads.1
    rw [run_cons_ok hv]
    exact ih hmatches (hreads.2 _ _ hvisit) hsweep

/-- If the sweep fails, the partial run fails the same way. Either the first visit fails, by
carrying out an instruction, or it does not and a later one fails. -/
theorem Facts.Matches.sweep_error {diagnostic : Diagnostic} (h : facts.Matches current known)
    (hreads : ReadsCurrent facts current code) (hsweep : facts.sweep code = .error diagnostic) :
    (run partly known code).ending = .error (.fault diagnostic) := by
  induction code generalizing facts current known with
  | nil => cases hsweep
  | cons instr code ih =>
    rcases sweep_cons_error hsweep with hvisit | ⟨left, next, hvisit, hsweep⟩
    · obtain ⟨fault, hvalue, rfl⟩ := visit_of_error hvisit
      have heval := h.eval_computation hreads.1 instr.span
      rw [hvalue] at heval
      rw [run_cons_error heval]
      rfl
    · obtain ⟨v, hv, hmatches⟩ := (visit_of_ok hvisit).matches h hreads.1
      rw [run_cons_ok hv]
      exact ih hmatches (hreads.2 _ _ hvisit) hsweep

end

/-- Before the first instruction nothing is known, and the partial run has a value for no variable.
-/
theorem Facts.matches_empty : Facts.empty.Matches (Set.range Place.var) (.start unknown) := by
  refine ⟨tidy_empty, ?_⟩
  rintro _ ⟨x, rfl⟩
  rfl

/-! ## The code of a program

The partial run of the code ends as the partial evaluation of the statements, by linearization,
which holds of any values. So the partial run can be taken out again. -/

section

variable {stmts : List Stmt} {left : List Instr} {facts : Facts}

/-- If the sweep of a program's code gets through, the partial evaluator does, and both know the
same of every variable. -/
theorem partly_of_sweep_ok (h : Facts.empty.sweep (linearize stmts) = .ok (left, facts)) :
    ∃ known, (evaluate partly unknown stmts).ending = .ok known ∧
      ∀ x, known x = facts.value? (.var x) := by
  obtain ⟨final, hfinal, hvars⟩ :=
    Facts.matches_empty.sweep_ok (readsCurrent_linearize stmts) h
  exact ⟨final.vars, evaluate_ending_ok hfinal, hvars⟩

/-- If the sweep of a program's code fails, the partial evaluator fails the same way. -/
theorem partly_of_sweep_error {diagnostic : Diagnostic}
    (h : Facts.empty.sweep (linearize stmts) = .error diagnostic) :
    (evaluate partly unknown stmts).ending = .error diagnostic := by
  have hfinal := Facts.matches_empty.sweep_error (readsCurrent_linearize stmts) h
  obtain ⟨diagnostic', hfault, heval⟩ := evaluate_ending_error hfinal
  cases hfault
  exact heval

end

/-! ## The last write to a variable

The sweep leaves every write to a variable in its place, so what is said of the last one in the end
is said of the last assignment in the program. -/

section

variable {code rest : List Instr}

/-- A write in the later part hides all of the earlier part. -/
theorem lastWrite?_append (p : Place) :
    lastWrite? (code ++ rest) p = (lastWrite? rest p).or (lastWrite? code p) := by
  simp only [lastWrite?, List.reverse_append, List.find?_append]
  cases rest.reverse.find? (·.dest = p) <;> rfl

theorem lastWrite?_cons (instr : Instr) (p : Place) :
    lastWrite? (instr :: code) p
      = (lastWrite? code p).or (if instr.dest = p then some instr.span else none) := by
  rw [← List.singleton_append, lastWrite?_append]
  by_cases h : instr.dest = p <;> simp [lastWrite?, h]

/-- What a visit leaves of an instruction, if anything, writes the same place for the same part of
the source. A write to a variable is never left out. -/
theorem Facts.Visit.dest_span {facts facts' : Facts} {instr : Instr} {left : Option Instr}
    (h : facts.Visit instr left facts') :
    (left = none ∧ instr.dest.isTemp = true) ∨
      ∃ value, left = some { instr with value } := by
  cases h with
  | @folded n =>
    cases hdest : instr.dest.isTemp with
    | true => exact .inl ⟨rfl, rfl⟩
    | false => exact .inr ⟨.copy (.const n), rfl⟩
  | linked _ hdest => exact .inl ⟨rfl, by rw [hdest]; rfl⟩
  | kept => exact .inr ⟨_, rfl⟩

/-- The sweep moves no write to a variable and leaves none out. -/
theorem Facts.lastWrite?_sweep {facts facts' : Facts} {left : List Instr} (x : String)
    (h : facts.sweep code = .ok (left, facts')) :
    lastWrite? left (.var x) = lastWrite? code (.var x) := by
  induction code generalizing facts left with
  | nil => cases h; rfl
  | cons instr code ih =>
    obtain ⟨first, next, rest, hvisit, hsweep, rfl⟩ := sweep_cons_ok h
    rw [lastWrite?_cons, ← ih hsweep]
    rcases (visit_of_ok hvisit).dest_span with ⟨rfl, htemp⟩ | ⟨value, rfl⟩
    -- only a write to a temporary is left out
    · have hne : instr.dest ≠ .var x := by
        intro hdest
        rw [hdest] at htemp
        cases htemp
      rw [if_neg hne, Option.or_none]
      rfl
    · exact lastWrite?_cons _ _

/-- The code of an expression writes no variable. -/
theorem Numbered.lastWrite? {first next : Nat} (h : Numbered first next code) (x : String) :
    lastWrite? code (.var x) = none := by
  induction code generalizing next with
  | nil => rfl
  | cons instr code ih =>
    rw [lastWrite?_cons, ih h.2.2, h.1]
    rfl

end

/-- Whether the statement assigns to a variable. -/
def Stmt.assigns (x : String) : Stmt → Bool
  | assign target _ _ => target.name = x
  | unsupported _ _ => false

/-- Where the last assignment to a variable stands. -/
def lastAssignment? (stmts : List Stmt) (x : String) : Option Span :=
  (stmts.reverse.find? (·.assigns x)).map (·.span)

theorem lastAssignment?_cons (stmt : Stmt) (stmts : List Stmt) (x : String) :
    lastAssignment? (stmt :: stmts) x
      = (lastAssignment? stmts x).or (if stmt.assigns x then some stmt.span else none) := by
  simp only [lastAssignment?, List.reverse_cons, List.find?_append]
  cases stmts.reverse.find? (·.assigns x) with
  | some last => rfl
  | none => by_cases h : stmt.assigns x <;> simp [h]

/-- Assignments and writes to variables stand in the same order, one for each. -/
theorem lastWrite?_linearizeFrom (stmts : List Stmt) (before : Nat) (x : String) :
    lastWrite? (linearizeFrom before stmts) (.var x) = lastAssignment? stmts x := by
  induction stmts generalizing before with
  | nil => rfl
  | cons stmt stmts ih =>
    rw [linearizeFrom, lastWrite?_append, ih, lastAssignment?_cons]
    congr 1
    cases stmt with
    | unsupported kind span => rfl
    | assign target value span =>
      rw [Stmt.linearize, lastWrite?_append, (value.linearizes before).numbered.1.lastWrite? x,
        Option.or_none]
      by_cases h : target.name = x <;> simp [lastWrite?, Stmt.assigns, Stmt.span, h]

/-- What is never assigned to keeps its value. -/
theorem evaluate_of_not_assigned {V : Type} {I : Interpretation V} {stmts : List Stmt}
    {vars final : String → V} {x : String} (hx : lastAssignment? stmts x = none)
    (h : (evaluate I vars stmts).ending = .ok final) : final x = vars x := by
  induction stmts generalizing vars with
  | nil => cases h; rfl
  | cons stmt stmts ih =>
    rw [lastAssignment?_cons, Option.or_eq_none_iff] at hx
    obtain ⟨hstmts, hstmt⟩ := hx
    cases stmt with
    | unsupported kind span => exact ih hstmts h
    | assign target value span =>
      have hne : x ≠ target.name := by
        rintro rfl
        simp [Stmt.assigns] at hstmt
      simp only [evaluate, Stmt.exec] at h
      cases hv : value.eval I vars with
      | error diagnostic => rw [hv] at h; cases h
      | ok v =>
        rw [hv] at h
        rw [ih hstmts h, Function.update_of_ne hne]

/-! ## The answer

Folding looks at the answer when the sweep is done: at its value, and at where it was written last.
Each of the outcomes is an equation, and what an outcome tells of the sweep is had by going through
them. -/

section

variable {answer : String} {code left : List Instr} {facts : Facts}

theorem ofCode_of_sweep_error {diagnostic : Diagnostic}
    (h : Facts.empty.sweep code = .error diagnostic) :
    Folded.ofCode answer code = .error diagnostic := by
  simp only [Folded.ofCode, h, bind, Except.bind]

theorem ofCode_of_unknown (h : Facts.empty.sweep code = .ok (left, facts))
    (hvalue : facts.value? (.var answer) = none) :
    Folded.ofCode answer code = .ok ⟨left, none⟩ := by
  simp only [Folded.ofCode, h, bind, Except.bind, hvalue]
  rfl

theorem ofCode_of_known {value : Number} {span : Span}
    (h : Facts.empty.sweep code = .ok (left, facts))
    (hvalue : facts.value? (.var answer) = some value)
    (hspan : lastWrite? left (.var answer) = some span) :
    Folded.ofCode answer code
      = .ok ⟨[⟨.var answer, .copy (.const value), span⟩], some value⟩ := by
  simp only [Folded.ofCode, h, bind, Except.bind, hvalue, hspan]
  rfl

/-! The other way round: what the outcome tells of the sweep. -/

theorem sweep_of_ofCode_error {diagnostic : Diagnostic}
    (h : Folded.ofCode answer code = .error diagnostic) :
    Facts.empty.sweep code = .error diagnostic := by
  cases hsweep : Facts.empty.sweep code with
  | error diagnostic' => rw [ofCode_of_sweep_error hsweep] at h; cases h; rfl
  | ok swept =>
    simp only [Folded.ofCode, hsweep, bind, Except.bind] at h
    split at h <;> cases h

theorem sweep_of_ofCode_none (h : Folded.ofCode answer code = .ok ⟨left, none⟩) :
    ∃ facts, Facts.empty.sweep code = .ok (left, facts) := by
  cases hsweep : Facts.empty.sweep code with
  | error diagnostic => rw [ofCode_of_sweep_error hsweep] at h; cases h
  | ok swept =>
    simp only [Folded.ofCode, hsweep, bind, Except.bind] at h
    split at h
    · cases h
    · cases h; exact ⟨swept.2, rfl⟩

/-- The code that was left by the sweep is thrown away here, so all that is known of it is that
there was one. -/
theorem sweep_of_ofCode_some {value : Number}
    (h : Folded.ofCode answer code = .ok ⟨left, some value⟩) :
    ∃ swept facts, Facts.empty.sweep code = .ok (swept, facts) ∧
      facts.value? (.var answer) = some value := by
  cases hsweep : Facts.empty.sweep code with
  | error diagnostic => rw [ofCode_of_sweep_error hsweep] at h; cases h
  | ok swept =>
    simp only [Folded.ofCode, hsweep, bind, Except.bind] at h
    split at h
    next hvalue _ => cases h; exact ⟨swept.1, swept.2, rfl, hvalue⟩
    next => cases h

end

/-- Folding the code of a program fails just if the partial evaluator does, and in the same way.
Else it finds of the answer just what the partial evaluator knows, and if that is a value, nothing
is left of the program but a copy of it, made for the last assignment to the answer. A known answer
has been assigned to, as it is unknown in the beginning; so there is a last assignment to take the
place from. -/
theorem ofCode_linearize (answer : String) (stmts : List Stmt) :
    (∀ diagnostic, Folded.ofCode answer (linearize stmts) = .error diagnostic ↔
      (evaluate partly unknown stmts).ending = .error diagnostic) ∧
    ∀ known, (evaluate partly unknown stmts).ending = .ok known →
      ∃ folded, Folded.ofCode answer (linearize stmts) = .ok folded ∧
        folded.result = known answer ∧
        ∀ value, known answer = some value → ∃ span,
          lastAssignment? stmts answer = some span ∧
            folded.code = [⟨.var answer, .copy (.const value), span⟩] := by
  cases hsweep : Facts.empty.sweep (linearize stmts) with
  | error diagnostic =>
    rw [ofCode_of_sweep_error hsweep, partly_of_sweep_error hsweep]
    constructor
    · intro diagnostic'
      simp
    · intro known hknown
      cases hknown
  | ok swept =>
    obtain ⟨left, facts⟩ := swept
    obtain ⟨known, hpartly, hknown⟩ := partly_of_sweep_ok hsweep
    cases hvalue : facts.value? (.var answer) with
    | none =>
      rw [ofCode_of_unknown hsweep hvalue, hpartly]
      constructor
      · intro diagnostic
        simp
      · rintro _ ⟨⟩
        rw [hknown, hvalue]
        exact ⟨_, rfl, rfl, by rintro _ ⟨⟩⟩
    | some value =>
      cases hspan : lastAssignment? stmts answer with
      | none =>
        -- the answer keeps what it has in the beginning, and that is unknown
        have hsame := evaluate_of_not_assigned hspan hpartly
        rw [hknown, hvalue] at hsame
        cases hsame
      | some span =>
        have hlast : lastWrite? left (.var answer) = some span := by
          rw [Facts.lastWrite?_sweep answer hsweep, linearize, lastWrite?_linearizeFrom, hspan]
        rw [ofCode_of_known hsweep hvalue hlast, hpartly]
        constructor
        · intro diagnostic
          simp
        · rintro _ ⟨⟩
          rw [hknown, hvalue]
          refine ⟨_, rfl, rfl, ?_⟩
          rintro _ ⟨⟩
          exact ⟨span, rfl, rfl⟩

/-- `r = 2; y = r * z; r = r + 1`: the answer `r` is known, though `y` is not. -/
def knownAtLast : List Stmt :=
  [.assign ⟨"r", ⟨0, 1⟩⟩ (.literal (.int 2) ⟨4, 5⟩) ⟨0, 5⟩,
    .assign ⟨"y", ⟨7, 8⟩⟩ (.binary .mul ⟨13, 14⟩ (.literal (.name "r") ⟨11, 12⟩)
      (.literal (.name "z") ⟨15, 16⟩) ⟨11, 16⟩) ⟨7, 16⟩,
    .assign ⟨"r", ⟨18, 19⟩⟩ (.binary .add ⟨24, 25⟩ (.literal (.name "r") ⟨22, 23⟩)
      (.literal (.int 1) ⟨26, 27⟩) ⟨22, 27⟩) ⟨18, 27⟩]

/-- `y = 2 / 0; r = 1`: the answer would be known, but for the fault before it. -/
def faultBefore : List Stmt :=
  [.assign ⟨"y", ⟨0, 1⟩⟩ (.binary .div ⟨6, 7⟩ (.literal (.int 2) ⟨4, 5⟩)
      (.literal (.int 0) ⟨8, 9⟩) ⟨4, 9⟩) ⟨0, 9⟩,
    .assign ⟨"r", ⟨11, 12⟩⟩ (.literal (.int 1) ⟨15, 16⟩) ⟨11, 16⟩]

theorem ofCode_linearize_cases :
    (∃ folded, Folded.ofCode "r" (linearize knownAtLast) = .ok folded ∧
      folded.result = some (.int 3) ∧
      folded.code = [⟨.var "r", .copy (.const (.int 3)), ⟨18, 27⟩⟩]) ∧
    Folded.ofCode "r" (linearize faultBefore)
      = .error (.evaluation ⟨4, 9⟩ (.divisionByZero "division")) := by
  constructor
  · obtain ⟨folded, hfolded, hresult, hcode⟩ := (ofCode_linearize "r" knownAtLast).2 _ rfl
    obtain ⟨span, hspan, hcode⟩ := hcode (.int 3) rfl
    cases hspan
    exact ⟨folded, hfolded, hresult, hcode⟩
  · exact ((ofCode_linearize "r" faultBefore).1 _).mpr rfl

end ThreeAddress
