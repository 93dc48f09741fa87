import ThreeAddress.Linearize
import ThreeAddress.Proofs.Execution

/-!
# Evaluating statements

What a program means, without any code. An expression is evaluated recursively, the left operand
before the right one, and an assignment writes the value to its target. As for code, values are a
parameter.

`evaluate partly` from variables of which nothing is known is the partial evaluator: it finds what
is the same in all runs, and the faults that no run gets past. That it is right about the runs is
`finishes_partly`.
-/

set_option autoImplicit false

namespace ThreeAddress

variable {V : Type}

/-! The definitions follow the syntax and mention no instruction, temporary or fact. They are what
the theorems on linearization and folding measure the code by. -/

def Literal.eval (I : Interpretation V) (vars : String → V) : Literal → V
  | int n => I.const (.int n)
  | float x => I.const (.float x)
  | name x => vars x

/-- The value of an expression, or what is wrong with the first of its operators that fails.
Parentheses and `+` have no part in it. The left operand is evaluated first, so a fault in it hides
one in the right. -/
def Expr.eval (I : Interpretation V) (vars : String → V) : Expr → Except Diagnostic V
  | literal value _ => .ok (value.eval I vars)
  | paren inner _ => inner.eval I vars
  | unary .pos _ operand _ => operand.eval I vars
  | unary .neg _ operand span => do
    let v ← operand.eval I vars
    outcomeAt span (I.unary .neg v)
  | binary op _ lhs rhs span => do
    let v ← lhs.eval I vars
    let w ← rhs.eval I vars
    outcomeAt span (I.binary op v w)

/-- Carries out a statement. Only assignments do something. -/
def Stmt.exec (I : Interpretation V) (vars : String → V) :
    Stmt → Trace Diagnostic V (String → V)
  | assign target value _ =>
    match value.eval I vars with
    | .ok v => ⟨[(target.name, v)], .ok (Function.update vars target.name v)⟩
    | .error diagnostic => .finish (.error diagnostic)
  | unsupported _ _ => .finish (.ok vars)

/-- Carries out statements in order. A statement that fails is the last. -/
def evaluate (I : Interpretation V) (vars : String → V) :
    List Stmt → Trace Diagnostic V (String → V)
  | [] => .finish (.ok vars)
  | stmt :: stmts => (stmt.exec I vars).andThen fun vars => evaluate I vars stmts

/-- Nothing is known of any variable. -/
def unknown : String → Option Number := fun _ => none

/-! When an expression has a value its operands have values, and the other way round. A proof about
values goes through these two and has no failures to look at. -/

/-- An operator in place gives a value just if the operator does, and then the same. -/
theorem outcomeAt_eq_ok {span : Span} {outcome : Except EvalFault V} {v : V} :
    outcomeAt span outcome = .ok v ↔ outcome = .ok v := by
  cases outcome <;> simp [outcomeAt, Except.mapError]

namespace Expr

variable {I : Interpretation V} {vars : String → V}

/-- A sign has a value just if its operand has one that it can be applied to. -/
theorem eval_neg_eq_ok {opSpan span : Span} {operand : Expr} {v : V} :
    (unary .neg opSpan operand span).eval I vars = .ok v ↔
      ∃ a, operand.eval I vars = .ok a ∧ I.unary .neg a = .ok v := by
  rw [eval]
  cases operand.eval I vars with
  | error diagnostic => simp [bind, Except.bind]
  | ok a => simp [bind, Except.bind, outcomeAt_eq_ok]

/-- A binary operator has a value just if both operands have values that it can be applied to. -/
theorem eval_binary_eq_ok {op : BinOp} {opSpan span : Span} {lhs rhs : Expr} {v : V} :
    (binary op opSpan lhs rhs span).eval I vars = .ok v ↔
      ∃ a b, lhs.eval I vars = .ok a ∧ rhs.eval I vars = .ok b ∧ I.binary op a b = .ok v := by
  rw [eval]
  cases lhs.eval I vars with
  | error diagnostic => simp [bind, Except.bind]
  | ok a =>
    cases rhs.eval I vars with
    | error diagnostic => simp [bind, Except.bind]
    | ok b => simp [bind, Except.bind, outcomeAt_eq_ok]

end Expr

open Interpretation (exactly partly)

/-! ## What is known is right

By induction, from the end of the exact run to that of the partial one: where the exact one got
through, nothing stops the partial one, and what it knows is what the exact one found. -/

/-- What is known of a value, if anything, is right. Nothing is asked of it where nothing is known.
-/
def Knows (known : Option Number) (v : Number) : Prop := ∀ n, known = some n → n = v

/-- An operator that succeeds on the true value succeeds on what is known of it, and what it gives
is known to be what it is. On nothing known it gives nothing known. -/
theorem Knows.unary {op : UnOp} {known : Option Number} {v w : Number} (h : Knows known v)
    (hw : exactly.unary op v = .ok w) : ∃ known', partly.unary op known = .ok known' ∧
      Knows known' w := by
  cases known with
  | none => exact ⟨none, rfl, by rintro _ ⟨⟩⟩
  | some n =>
    obtain rfl := h n rfl
    refine ⟨some w, ?_, by rintro _ ⟨⟩; rfl⟩
    show (Number.unary op n).map some = _
    rw [show Number.unary op n = .ok w from hw]
    rfl

/-- One unknown operand is enough for an unknown result, also where the other alone would decide it,
as in a multiplication by zero. -/
theorem Knows.binary {op : BinOp} {known known' : Option Number} {v w u : Number}
    (h : Knows known v) (h' : Knows known' w) (hu : exactly.binary op v w = .ok u) :
    ∃ result, partly.binary op known known' = .ok result ∧ Knows result u := by
  cases known with
  | none => exact ⟨none, by cases known' <;> rfl, by rintro _ ⟨⟩⟩
  | some m =>
    cases known' with
    | none => exact ⟨none, rfl, by rintro _ ⟨⟩⟩
    | some n =>
      obtain rfl := h m rfl
      obtain rfl := h' n rfl
      refine ⟨some u, ?_, by rintro _ ⟨⟩; rfl⟩
      show (Number.binary op m n).map some = _
      rw [show Number.binary op m n = .ok u from hu]
      rfl

section

variable {known : String → Option Number} {vars final : String → Number}

/-- Where the exact evaluation of an expression succeeds, the partial one does, and is right. -/
theorem Expr.eval_partly (h : ∀ x, Knows (known x) (vars x)) (e : Expr) {v : Number}
    (hv : e.eval exactly vars = .ok v) : ∃ k, e.eval partly known = .ok k ∧ Knows k v := by
  induction e generalizing v with
  | literal value span =>
    cases hv
    cases value with
    | int n => exact ⟨some (.int n), rfl, by rintro _ ⟨⟩; rfl⟩
    | float x => exact ⟨some (.float x), rfl, by rintro _ ⟨⟩; rfl⟩
    | name x => exact ⟨known x, rfl, h x⟩
  | paren inner span ih => exact ih hv
  | unary op opSpan operand span ih =>
    cases op with
    | pos => exact ih hv
    | neg =>
      obtain ⟨a, ha, hv⟩ := Expr.eval_neg_eq_ok.mp hv
      obtain ⟨k, hk, hka⟩ := ih ha
      obtain ⟨m, hm, hmv⟩ := hka.unary hv
      exact ⟨m, Expr.eval_neg_eq_ok.mpr ⟨k, hk, hm⟩, hmv⟩
  | binary op opSpan lhs rhs span ihl ihr =>
    obtain ⟨a, b, ha, hb, hv⟩ := Expr.eval_binary_eq_ok.mp hv
    obtain ⟨k, hk, hka⟩ := ihl ha
    obtain ⟨l, hl, hlb⟩ := ihr hb
    obtain ⟨m, hm, hmv⟩ := hka.binary hlb hv
    exact ⟨m, Expr.eval_binary_eq_ok.mpr ⟨k, l, hk, hl, hm⟩, hmv⟩

/-- A run that finishes is one that the partial evaluator gets through too, and all that it knows
then is right. So a fault that it meets is one that no run gets past. -/
theorem finishes_partly (stmts : List Stmt) (h : ∀ x, Knows (known x) (vars x))
    (hfinal : (evaluate exactly vars stmts).ending = .ok final) :
    ∃ known', (evaluate partly known stmts).ending = .ok known' ∧
      ∀ x, Knows (known' x) (final x) := by
  induction stmts generalizing known vars with
  | nil =>
    cases hfinal
    exact ⟨known, rfl, h⟩
  | cons stmt stmts ih =>
    cases stmt with
    | unsupported kind span => exact ih h hfinal
    | assign target value span =>
      cases hv : value.eval exactly vars with
      | error d =>
        simp [evaluate, Stmt.exec, hv, Trace.finish, Trace.andThen] at hfinal
      | ok v =>
        obtain ⟨k, hk, hkv⟩ := value.eval_partly h hv
        simp only [evaluate, Stmt.exec, hv, Trace.andThen, Trace.after] at hfinal
        simp only [evaluate, Stmt.exec, hk, Trace.andThen, Trace.after]
        refine ih ?_ hfinal
        intro x
        -- of the target what was known before is replaced, and of other variables it is still
        -- right
        by_cases hx : x = target.name
        · simpa [hx] using hkv
        · simpa [hx] using h x

end

/-! ## Finite values stay finite

Binary operators check their results, and a sign makes nothing infinite. So an infinity or `NaN`
could only come from a literal or from a variable at the start, and both are excluded. -/

/-- Whether no float that is written out is infinite or `NaN`. A literal that was read from a text
is always finite; statements that were made otherwise may have others. -/
def Expr.finiteLiterals : Expr → Bool
  | literal (.float x) _ => x.isFinite
  | literal _ _ => true
  | paren inner _ => inner.finiteLiterals
  | unary _ _ operand _ => operand.finiteLiterals
  | binary _ _ lhs rhs _ => lhs.finiteLiterals && rhs.finiteLiterals

@[inherit_doc Expr.finiteLiterals]
def Stmt.finiteLiterals : Stmt → Bool
  | assign _ value _ => value.finiteLiterals
  | unsupported _ _ => true

section

variable {vars : String → Number}

/-- A binary operator has a finite result whatever its operands are; a sign has one if its operand
is finite, as it is not checked. -/
theorem Expr.isFinite_eval (hvars : ∀ x, (vars x).isFinite) {e : Expr}
    (he : e.finiteLiterals = true) {v : Number} (hv : e.eval exactly vars = .ok v) :
    v.isFinite := by
  induction e generalizing v with
  | literal value span =>
    cases hv
    cases value with
    | int n => rfl
    | float x => exact he
    | name x => exact hvars x
  | paren inner span ih => exact ih he hv
  | unary op opSpan operand span ih =>
    cases op with
    | pos => exact ih he hv
    | neg =>
      obtain ⟨a, ha, hv⟩ := Expr.eval_neg_eq_ok.mp hv
      exact Number.isFinite_of_unary hv (ih he ha)
  | binary op opSpan lhs rhs span _ _ =>
    obtain ⟨a, b, -, -, hv⟩ := Expr.eval_binary_eq_ok.mp hv
    exact Number.isFinite_of_binary hv

/-- From finite variables, and with finite literals, only finite numbers are written. By induction
on the statements, with the variables as they are before each: what was written is finite, so it may
be read. -/
theorem isFinite_writes (stmts : List Stmt) (hstmts : ∀ stmt ∈ stmts, stmt.finiteLiterals = true)
    (hvars : ∀ x, (vars x).isFinite) :
    ∀ write ∈ (evaluate exactly vars stmts).writes, write.2.isFinite := by
  induction stmts generalizing vars with
  | nil => simp [evaluate, Trace.finish]
  | cons stmt stmts ih =>
    have hrest : ∀ stmt ∈ stmts, stmt.finiteLiterals = true :=
      fun stmt h => hstmts stmt (List.mem_cons_of_mem _ h)
    cases stmt with
    | unsupported kind span => exact ih hrest hvars
    | assign target value span =>
      cases hv : value.eval exactly vars with
      | error d => simp [evaluate, Stmt.exec, hv, Trace.finish, Trace.andThen]
      | ok v =>
        have hfinite : v.isFinite :=
          Expr.isFinite_eval hvars (hstmts _ (List.mem_cons_self ..)) hv
        have hvars' : ∀ x, (Function.update vars target.name v x).isFinite := by
          intro x
          by_cases hx : x = target.name
          · simpa [hx] using hfinite
          · simpa [hx] using hvars x
        simp only [evaluate, Stmt.exec, hv, Trace.andThen, Trace.after]
        rintro write (_ | ⟨_, hwrite⟩)
        · exact hfinite
        · exact ih hrest hvars' write hwrite

end

end ThreeAddress
