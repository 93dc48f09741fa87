import ThreeAddress.Proofs.Linearization
import ThreeAddress.Proofs.Sweep

/-!
# Names do not matter

A program whose variables are renamed, no two of them alike, is compiled to the same code with the
same variables renamed (`ofCode_linearize_rename`). Temporaries keep their numbers, and a variable
that is called like one stays apart from it, before and after.

Linearization hands the names on and never looks at one. Folding looks names up, and all that it
asks of two of them is whether they are the same. So what is known of places is renamed along with
the code, and every step of the sweep commutes with that (`Facts.visit_rename`).
-/

set_option autoImplicit false

namespace ThreeAddress

/-! ## Renaming

On places, operands, instructions and statements alike: variables get their new names and everything
else stays. No condition is put on the names here; it comes in where two of them are compared. -/

def Place.rename (f : String → String) : Place → Place
  | temp n => temp n
  | var x => var (f x)

def Operand.rename (f : String → String) : Operand → Operand
  | place p => place (p.rename f)
  | const n => const n

def Computation.rename (f : String → String) (c : Computation) : Computation :=
  c.mapOperands (Operand.rename f)

/-- The instruction with its variables renamed. It keeps its place in the source. -/
def Instr.rename (f : String → String) (instr : Instr) : Instr :=
  ⟨instr.dest.rename f, instr.value.rename f, instr.span⟩

def Literal.rename (f : String → String) : Literal → Literal
  | int n => int n
  | float x => float x
  | name x => name (f x)

def Expr.rename (f : String → String) : Expr → Expr
  | literal value span => literal (value.rename f) span
  | paren inner span => paren (inner.rename f) span
  | unary op opSpan operand span => unary op opSpan (operand.rename f) span
  | binary op opSpan lhs rhs span => binary op opSpan (lhs.rename f) (rhs.rename f) span

def Stmt.rename (f : String → String) : Stmt → Stmt
  | assign target value span => assign ⟨f target.name, target.span⟩ (value.rename f) span
  | unsupported kind span => unsupported kind span

def Folded.rename (f : String → String) (folded : Folded) : Folded :=
  ⟨folded.code.map (Instr.rename f), folded.result⟩

section

variable (f : String → String)

@[simp] theorem Place.isTemp_rename (p : Place) : (p.rename f).isTemp = p.isTemp := by
  cases p <;> rfl

@[simp] theorem Operand.const?_rename (a : Operand) : (a.rename f).const? = a.const? := by
  cases a <;> rfl

@[simp] theorem Expr.span_rename (e : Expr) : (e.rename f).span = e.span := by
  cases e <;> rfl

/-! ## Linearization

Nothing is asked of the renaming, which may even make two variables one: the code is made without
comparing names. -/

theorem Operand.negated?_rename (a : Operand) : (a.rename f).negated? = a.negated? := by
  rw [negated?, negated?, const?_rename]

theorem Operand.settle_rename {before : Nat} {span : Span} {code : List Instr} {a a' : Operand}
    (h : a.settle before span = (code, a')) :
    (a.rename f).settle before span = (code.map (Instr.rename f), a'.rename f) := by
  cases a <;> cases h <;> rfl

theorem Literal.operand_rename (value : Literal) :
    (value.rename f).operand = value.operand.rename f := by
  cases value <;> rfl

/-- Renaming goes rule by rule. The renamed code is as long as before, part for part, so temporaries
keep their numbers. -/
theorem Expr.Linearizes.rename {e : Expr} {before : Nat} {code : List Instr} {a : Operand}
    (h : e.Linearizes before code a) :
    (e.rename f).Linearizes before (code.map (Instr.rename f)) (a.rename f) := by
  induction h with
  | @literal value span before =>
    rw [← value.operand_rename f]
    exact .literal
  | paren _ ih => exact .paren ih
  | pos _ ih => exact .pos ih
  | @negated opSpan span operand before code a n _ hneg ih =>
    exact .negated ih ((a.negated?_rename f).trans hneg)
  | @neg opSpan span operand before code a _ hneg ih =>
    -- the number of the temporary is given by the length of the code, and renaming keeps that
    have hrenamed : (Expr.unary .neg opSpan (operand.rename f) span).Linearizes before _ _ :=
      .neg ih ((a.negated?_rename f).trans hneg)
    rw [List.length_map] at hrenamed
    rw [List.map_append]
    exact hrenamed
  | @binary op opSpan span lhs rhs before left right first second a a' b b' _ _ hfirst hsecond
      ihl ihr =>
    have hfirst := Operand.settle_rename f hfirst
    have hsecond := Operand.settle_rename f hsecond
    rw [← lhs.span_rename f] at hfirst
    rw [← rhs.span_rename f] at hsecond
    rw [← left.length_map (Instr.rename f)] at ihr hfirst hsecond
    rw [← right.length_map (Instr.rename f)] at hfirst hsecond
    rw [← first.length_map (Instr.rename f)] at hsecond
    have hrenamed : (Expr.binary op opSpan (lhs.rename f) (rhs.rename f) span).Linearizes
        before _ _ :=
      .binary ihl ihr hfirst hsecond
    simp only [List.length_map] at hrenamed
    simp only [List.map_append]
    exact hrenamed

theorem Stmt.linearize_rename (stmt : Stmt) (before : Nat) :
    (stmt.rename f).linearize before = (stmt.linearize before).map (Instr.rename f) := by
  cases stmt with
  | unsupported kind span => rfl
  | assign target value span =>
    rw [rename, linearize, linearize, ((value.linearizes before).rename f).eq, List.map_append]
    rfl

theorem linearizeFrom_rename (stmts : List Stmt) (before : Nat) :
    linearizeFrom before (stmts.map (Stmt.rename f)) =
      (linearizeFrom before stmts).map (Instr.rename f) := by
  induction stmts generalizing before with
  | nil => rfl
  | cons stmt stmts ih =>
    rw [List.map_cons, linearizeFrom, linearizeFrom, Stmt.linearize_rename, List.length_map, ih,
      List.map_append]

/-! ## Single instructions

Carrying out an instruction and simplifying it depend on its constants only. -/

namespace Computation

theorem eval?_rename (c : Computation) : (c.rename f).eval? = c.eval? := by
  cases c <;> simp only [rename, mapOperands, eval?, Operand.const?_rename]

theorem simplify_rename (c : Computation) : (c.rename f).simplify = c.simplify.rename f := by
  obtain ⟨a⟩ | ⟨op, a⟩ | ⟨op, a, b⟩ := c
  · rfl
  · rfl
  · cases b with
    | place p => cases op <;> rfl
    | const n =>
      rcases simplify_cases (binary op a (.const n)) with h | ⟨_, heq, -⟩ | ⟨_, heq, -⟩
      · rcases simplify_cases ((binary op a (.const n)).rename f) with
          h' | ⟨_, heq, -⟩ | ⟨_, heq, -⟩
        · rw [h, h']
        · cases heq
          rfl
        · cases heq
          rfl
      · cases heq
        rfl
      · cases heq
        rfl

end Computation

/-! ## What is known of places

From here on the renaming is injective. Facts about two places could otherwise become facts about
one, and the renamed facts would know what the others do not. -/

def Fact.rename : Fact → Fact
  | holds n => holds n
  | copies p => copies (p.rename f)

def Facts.rename (facts : Facts) : Facts :=
  ⟨facts.entries.map fun entry => (entry.1.rename f, entry.2.rename f)⟩

end

section

variable {f : String → String} (hf : Function.Injective f)

include hf

/-- The one place where injectivity is used: places are the same after renaming just if they were
before. -/
theorem Place.rename_inj {p q : Place} : p.rename f = q.rename f ↔ p = q := by
  cases p with
  | temp m => cases q <;> simp [rename]
  | var x => cases q <;> simp [rename, hf.eq_iff]

namespace Facts

/-- Looking up goes past the same entries. -/
theorem fact?_rename (facts : Facts) (p : Place) :
    (facts.rename f).fact? (p.rename f) = (facts.fact? p).map (Fact.rename f) := by
  obtain ⟨entries⟩ := facts
  simp only [fact?, rename]
  induction entries with
  | nil => rfl
  | cons entry entries ih =>
    by_cases hp : entry.1 = p
    · simp [hp]
    · simpa [Place.rename_inj hf, hp] using ih

theorem forget_rename (facts : Facts) (p : Place) :
    (facts.rename f).forget (p.rename f) = (facts.forget p).rename f := by
  obtain ⟨entries⟩ := facts
  simp only [forget, rename, List.filter_map, Function.comp_def, ne_eq, Place.rename_inj hf]

theorem learn_rename (facts : Facts) (p : Place) (fact : Fact) :
    (facts.rename f).learn (p.rename f) (fact.rename f) = (facts.learn p fact).rename f := by
  rw [learn, forget_rename hf]
  rfl

theorem value?_rename (facts : Facts) (p : Place) :
    (facts.rename f).value? (p.rename f) = facts.value? p := by
  rw [value?, value?, fact?_rename hf]
  cases facts.fact? p with
  | none => rfl
  | some fact => cases fact <;> rfl

theorem source?_rename (facts : Facts) (p : Place) :
    (facts.rename f).source? (p.rename f) = (facts.source? p).map (Place.rename f) := by
  rw [source?, source?, fact?_rename hf]
  cases facts.fact? p with
  | none => rfl
  | some fact => cases fact <;> rfl

theorem resolve_rename (facts : Facts) (a : Operand) :
    (facts.rename f).resolve (a.rename f) = (facts.resolve a).rename f := by
  cases a with
  | const n => rfl
  | place p =>
    simp only [Operand.rename, resolve, source?_rename hf]
    have hsource : ((facts.source? p).map (Place.rename f)).getD (p.rename f) =
        ((facts.source? p).getD p).rename f := by
      cases facts.source? p <;> rfl
    rw [hsource, value?_rename hf]
    cases facts.value? ((facts.source? p).getD p) <;> rfl

theorem mapOperands_rename (facts : Facts) (c : Computation) :
    (c.rename f).mapOperands (facts.rename f).resolve =
      (c.mapOperands facts.resolve).rename f := by
  cases c <;> simp only [Computation.rename, Computation.mapOperands, resolve_rename hf]

/-- A visit takes the same turn, and leaves and knows the same with other names. Each of the
branches depends on constants, on whether the place is a temporary, and on lookups, all of which are
the same. -/
theorem visit_rename (facts : Facts) (instr : Instr) :
    (facts.rename f).visit (instr.rename f) = (facts.visit instr).map fun visited =>
      (visited.1.map (Instr.rename f), visited.2.rename f) := by
  obtain ⟨dest, value, span⟩ := instr
  simp only [visit, Instr.rename, mapOperands_rename hf, Computation.eval?_rename,
    Computation.simplify_rename, Place.isTemp_rename]
  cases (value.mapOperands facts.resolve).eval? with
  | some outcome =>
    cases outcome with
    | error fault => rfl
    | ok n =>
      have hassign : (facts.rename f).assign (dest.rename f) n = (facts.assign dest n).rename f :=
        learn_rename hf facts dest (.holds n)
      simp only [hassign, Except.map]
      cases dest <;> rfl
  | none =>
    have hforget := forget_rename hf facts dest
    cases dest with
    | var x =>
      show Except.ok (_, (facts.rename f).forget ((Place.var x).rename f)) = _
      rw [hforget]
      rfl
    -- a place that is copied makes a link; anything else stays and is forgotten
    | temp index =>
      have hlink (source : Place) : (facts.rename f).link index (source.rename f) =
          (facts.link index source).rename f :=
        learn_rename hf facts (.temp index) (.copies source)
      obtain ⟨a⟩ | ⟨op, a⟩ | ⟨op, a, b⟩ := (value.mapOperands facts.resolve).simplify
      · cases a with
        | place source =>
          show Except.ok (_, (facts.rename f).link index (source.rename f)) = _
          rw [hlink]
          rfl
        | const n =>
          show Except.ok (_, (facts.rename f).forget ((Place.temp index).rename f)) = _
          rw [hforget]
          rfl
      · show Except.ok (_, (facts.rename f).forget ((Place.temp index).rename f)) = _
        rw [hforget]
        rfl
      · show Except.ok (_, (facts.rename f).forget ((Place.temp index).rename f)) = _
        rw [hforget]
        rfl

/-- By induction on the code, for all facts. -/
theorem sweep_rename (facts : Facts) (code : List Instr) :
    (facts.rename f).sweep (code.map (Instr.rename f)) = (facts.sweep code).map fun swept =>
      (swept.1.map (Instr.rename f), swept.2.rename f) := by
  induction code generalizing facts with
  | nil => rfl
  | cons instr code ih =>
    simp only [List.map_cons, sweep, visit_rename hf, bind, Except.bind]
    cases facts.visit instr with
    | error diagnostic => rfl
    | ok visited =>
      obtain ⟨left, next⟩ := visited
      simp only [Except.map, ih]
      cases next.sweep code with
      | error diagnostic => rfl
      | ok swept =>
        simp only [pure, Except.pure, Except.ok.injEq, Prod.mk.injEq, List.map_append, and_true]
        cases left <;> rfl

end Facts

/-! ## Whole codes

The answer is looked up in the facts and in what is left, and both lookups go the same way. -/

theorem lastWrite?_rename (code : List Instr) (p : Place) :
    lastWrite? (code.map (Instr.rename f)) (p.rename f) = lastWrite? code p := by
  rw [lastWrite?, lastWrite?, ← List.map_reverse, List.find?_map, Option.map_map]
  simp only [Function.comp_def, Instr.rename, Place.rename_inj hf]

/-- Any code is folded alike under other names. -/
theorem Folded.ofCode_rename (answer : String) (code : List Instr) :
    ofCode (f answer) (code.map (Instr.rename f)) = (ofCode answer code).map (Folded.rename f) := by
  have hsweep := Facts.sweep_rename hf .empty code
  rw [show Facts.empty.rename f = .empty from rfl] at hsweep
  simp only [ofCode, hsweep, bind, Except.bind]
  cases Facts.empty.sweep code with
  | error diagnostic => rfl
  | ok swept =>
    obtain ⟨left, facts⟩ := swept
    have hvalue := Facts.value?_rename hf facts (.var answer)
    have hlast := lastWrite?_rename hf left (.var answer)
    simp only [Place.rename] at hvalue hlast
    simp only [Except.map, hvalue, hlast]
    cases facts.value? (.var answer) with
    | none => rfl
    | some value => cases lastWrite? left (.var answer) <;> rfl

end

/-- Compilation does not depend on what variables are called, as long as different ones have
different names. The code of the renamed program is the code of the program with its variables
renamed, and it is folded to the same answer and the code with its variables renamed, or fails with
the same diagnostic. -/
theorem ofCode_linearize_rename {f : String → String} (hf : Function.Injective f)
    (stmts : List Stmt) (answer : String) :
    linearize (stmts.map (Stmt.rename f)) = (linearize stmts).map (Instr.rename f) ∧
      Folded.ofCode (f answer) (linearize (stmts.map (Stmt.rename f))) =
        (Folded.ofCode answer (linearize stmts)).map (Folded.rename f) := by
  have hcode : linearize (stmts.map (Stmt.rename f)) = (linearize stmts).map (Instr.rename f) :=
    linearizeFrom_rename f stmts 0
  refine ⟨hcode, ?_⟩
  rw [hcode]
  exact Folded.ofCode_rename hf answer (linearize stmts)

/-- The program `x = t0 * a`. Its variable prints like the temporary that takes the product. -/
def namesake : List Stmt :=
  [.assign ⟨"x", ⟨0, 1⟩⟩
    (.binary .mul ⟨7, 8⟩ (.literal (.name "t0") ⟨4, 6⟩) (.literal (.name "a") ⟨9, 10⟩) ⟨4, 10⟩)
    ⟨0, 10⟩]

/-- The variables trade names, and the product goes into the one that was read. -/
theorem ofCode_linearize_rename_swap :
    Function.Injective (Equiv.swap "x" "t0") ∧
    (linearize (namesake.map (Stmt.rename (Equiv.swap "x" "t0")))).map Instr.text =
      ["t0 = x * a", "t0 = t0"] ∧
    linearize (namesake.map (Stmt.rename (Equiv.swap "x" "t0"))) =
      (linearize namesake).map (Instr.rename (Equiv.swap "x" "t0")) ∧
    ∃ folded, Folded.ofCode "x" (linearize namesake) = .ok folded ∧ folded.result = none ∧
      Folded.ofCode "t0" (linearize (namesake.map (Stmt.rename (Equiv.swap "x" "t0")))) =
        .ok (folded.rename (Equiv.swap "x" "t0")) := by
  obtain ⟨hcode, hfolded⟩ :=
    ofCode_linearize_rename (Equiv.swap "x" "t0").injective namesake "x"
  refine ⟨(Equiv.swap "x" "t0").injective, by decide +kernel, hcode, ?_⟩
  rw [Equiv.swap_apply_left] at hfolded
  cases h : Folded.ofCode "x" (linearize namesake) with
  | error diagnostic => cases h
  | ok folded =>
    rw [h] at hfolded
    refine ⟨folded, rfl, ?_, hfolded⟩
    cases h
    rfl

end ThreeAddress
