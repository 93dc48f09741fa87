import ThreeAddress.Outline
import ThreeAddress.Proofs.CodeText
import ThreeAddress.Proofs.Printing

/-!
# Parentheses and places leave no trace

Two programs that are the same but for parentheses around expressions and for where everything
stands are compiled alike: to the same code but for places, folded to the same answer and code or
refused for the same fault, and shown by the same tree (`compiled_alike`). What parentheses do for
the order of the operators has been done when there is a tree.

Code is compared by what its instructions are, without where they were made for. Parentheses change
the places that operands are settled for, and nothing else. Folding never looks at a place, it only
hands them on; so two sweeps in step over two such codes go the same way (`Facts.agree_sweep`).
-/

set_option autoImplicit false

namespace ThreeAddress

/-- The expression without its parentheses. Only parentheses are taken away; what they did for the
shape of the tree stays. -/
def Expr.unwrapped : Expr → Expr
  | literal value span => literal value span
  | paren inner _ => inner.unwrapped
  | unary op opSpan operand span => unary op opSpan operand.unwrapped span
  | binary op opSpan lhs rhs span => binary op opSpan lhs.unwrapped rhs.unwrapped span

/-- The statement without the parentheses in it. -/
def Stmt.unwrapped : Stmt → Stmt
  | assign target value span => assign target value.unwrapped span
  | unsupported kind span => unsupported kind span

/-! ## Linearization

`SameCode` compares code and operand together, as the code of an expression does not say which
operand comes with it. It keeps lengths, and with them the numbers of temporaries. -/

/-- Code and the operand that has its value, up to what the instructions were made for. -/
structure SameCode (x x' : List Instr × Operand) : Prop where
  kinds : x.1.map Instr.kind = x'.1.map Instr.kind
  operand : x.2 = x'.2

namespace SameCode

variable {x x' : List Instr × Operand}

theorem refl (x : List Instr × Operand) : SameCode x x := ⟨rfl, rfl⟩

theorem symm (h : SameCode x x') : SameCode x' x := ⟨h.kinds.symm, h.operand.symm⟩

theorem trans {x'' : List Instr × Operand} (h : SameCode x x') (h' : SameCode x' x'') :
    SameCode x x'' :=
  ⟨h.kinds.trans h'.kinds, h.operand.trans h'.operand⟩

/-- The two have one operand and as many instructions, so what follows is numbered alike. -/
theorem eq_mk (h : SameCode x x') : ∃ code code' a, x = (code, a) ∧ x' = (code', a) ∧
    code.length = code'.length ∧ code.map Instr.kind = code'.map Instr.kind := by
  obtain ⟨code, a⟩ := x
  obtain ⟨code', a'⟩ := x'
  obtain ⟨hkinds, rfl : a = a'⟩ := h
  exact ⟨code, code', a, rfl, rfl, by simpa using congrArg List.length hkinds, hkinds⟩

/-- An operand is settled in the same way for any place in the text. -/
theorem settle (a : Operand) (before : Nat) (span span' : Span) :
    SameCode (a.settle before span) (a.settle before span') := by
  cases a <;> exact ⟨rfl, rfl⟩

end SameCode

namespace Expr

section

variable {operand operand' lhs lhs' rhs rhs' : Expr}
  (op : BinOp) (opSpan opSpan' span span' : Span) (before : Nat)

/-- Whether the sign is carried out at once depends on the operand alone, which is the same in both.
-/
theorem sameCode_neg (h : SameCode (operand.linearize before) (operand'.linearize before)) :
    SameCode ((unary .neg opSpan operand span).linearize before)
      ((unary .neg opSpan' operand' span').linearize before) := by
  obtain ⟨code, code', a, hx, hx', hlength, hkinds⟩ := h.eq_mk
  cases hneg : a.negated? with
  | some n =>
    rw [linearize_neg_const hx hneg, linearize_neg_const hx' hneg]
    exact ⟨hkinds, rfl⟩
  | none =>
    rw [linearize_neg hx hneg, linearize_neg hx' hneg, hlength]
    refine ⟨?_, rfl⟩
    simp only [List.map_append, hkinds]
    rfl

/-- The four parts of the code begin at the same numbers in both, since the parts before them are of
the same lengths. -/
theorem sameCode_binary (hlhs : SameCode (lhs.linearize before) (lhs'.linearize before))
    (hrhs : ∀ before, SameCode (rhs.linearize before) (rhs'.linearize before)) :
    SameCode ((binary op opSpan lhs rhs span).linearize before)
      ((binary op opSpan' lhs' rhs' span').linearize before) := by
  obtain ⟨left, left', a, hl, hl', hleft, hlefts⟩ := hlhs.eq_mk
  obtain ⟨right, right', b, hr, hr', hright, hrights⟩ := (hrhs (before + left.length)).eq_mk
  obtain ⟨first, first', c, hf, hf', hfirst, hfirsts⟩ :=
    (SameCode.settle a (before + left.length + right.length) lhs.span lhs'.span).eq_mk
  obtain ⟨second, second', d, hs, hs', hsecond, hseconds⟩ :=
    (SameCode.settle b (before + left.length + right.length + first.length)
      rhs.span rhs'.span).eq_mk
  rw [linearize_binary hl hr hf hs]
  -- the lengths of the one code are put in for those of the other, part by part
  rw [hleft] at hr' hf' hs'
  rw [hright] at hf' hs'
  rw [hfirst] at hs'
  rw [linearize_binary hl' hr' hf' hs', hleft, hright, hfirst, hsecond]
  refine ⟨?_, rfl⟩
  simp only [List.map_append, hlefts, hrights, hfirsts, hseconds]
  rfl

end

/-- Parentheses and places change nothing of the code but what its instructions were made for. -/
theorem sameCode_unwrapped (e : Expr) (before : Nat) :
    SameCode (e.unwrapped.bare.linearize before) (e.linearize before) := by
  induction e generalizing before with
  | literal value span => exact .refl _
  | paren inner span ih => exact ih before
  | unary op opSpan operand span ih =>
    cases op with
    | pos => exact ih before
    | neg => exact sameCode_neg _ _ _ _ before (ih before)
  | binary op opSpan lhs rhs span ihl ihr =>
    exact sameCode_binary op _ _ _ _ before (ihl before) ihr

theorem sameCode_of_unwrapped {e e' : Expr} (h : e.unwrapped.bare = e'.unwrapped.bare)
    (before : Nat) : SameCode (e.linearize before) (e'.linearize before) := by
  have hcore := e.sameCode_unwrapped before
  rw [h] at hcore
  exact hcore.symm.trans (e'.sameCode_unwrapped before)

end Expr

theorem Stmt.kinds_of_unwrapped {stmt stmt' : Stmt}
    (h : stmt.unwrapped.bare = stmt'.unwrapped.bare) (before : Nat) :
    (stmt.linearize before).map Instr.kind = (stmt'.linearize before).map Instr.kind := by
  cases stmt with
  | unsupported kind span =>
    cases stmt' with
    | unsupported kind' span' => rfl
    | assign target' value' span' => cases h
  | assign target value span =>
    cases stmt' with
    | unsupported kind' span' => cases h
    | assign target' value' span' =>
      simp only [unwrapped, bare, assign.injEq, Ident.mk.injEq, and_true] at h
      obtain ⟨htarget, hvalue⟩ := h
      obtain ⟨code, code', a, hx, hx', -, hkinds⟩ :=
        (Expr.sameCode_of_unwrapped hvalue before).eq_mk
      simp only [linearize, hx, hx', List.map_append, hkinds, htarget]
      rfl

/-- Statements that differ in parentheses and places only have as many instructions, so the next
ones begin at the same number. -/
theorem linearizeFrom_of_unwrapped {stmts stmts' : List Stmt}
    (h : stmts.map (·.unwrapped.bare) = stmts'.map (·.unwrapped.bare)) (before : Nat) :
    (linearizeFrom before stmts).map Instr.kind = (linearizeFrom before stmts').map Instr.kind := by
  induction stmts generalizing stmts' before with
  | nil =>
    cases stmts' with
    | nil => rfl
    | cons stmt' stmts' => cases h
  | cons stmt stmts ih =>
    cases stmts' with
    | nil => cases h
    | cons stmt' stmts' =>
      obtain ⟨hstmt, hstmts⟩ := List.cons.inj h
      have hkinds := Stmt.kinds_of_unwrapped hstmt before
      have hlength : (stmt.linearize before).length = (stmt'.linearize before).length := by
        simpa using congrArg List.length hkinds
      rw [linearizeFrom, linearizeFrom, List.map_append, List.map_append, hkinds, hlength,
        ih hstmts]

/-! ## Outcomes

Two computations that go alike: both come to a value, and the values are related, or both fail with
the same fault, wherever it is. -/

/-- Computations that come to related values or to the same fault. The places of the faults are not
compared. -/
inductive Agree {α : Type} (R : α → α → Prop) : Except Diagnostic α → Except Diagnostic α → Prop
  | ok {a a' : α} (h : R a a') : Agree R (.ok a) (.ok a')
  | error {diagnostic diagnostic' : Diagnostic} (h : diagnostic.fault = diagnostic'.fault) :
      Agree R (.error diagnostic) (.error diagnostic')

theorem Agree.bind {α β : Type} {R : α → α → Prop} {S : β → β → Prop}
    {x x' : Except Diagnostic α} {f f' : α → Except Diagnostic β} (h : Agree R x x')
    (hf : ∀ a a', R a a' → Agree S (f a) (f' a')) : Agree S (x >>= f) (x' >>= f') := by
  cases h with
  | ok h => exact hf _ _ h
  | error h => exact .error h

/-! ## Folding

A visit looks at what an instruction is and not at where it was made for, except to say where a
fault is. So by induction the same facts are known after each instruction. -/

namespace Facts

/-- Both visits take the same branch, as all that decides is the same. -/
theorem agree_visit (facts : Facts) {instr instr' : Instr} (h : instr.kind = instr'.kind) :
    Agree (fun x x' => x.1.map Instr.kind = x'.1.map Instr.kind ∧ x.2 = x'.2)
      (facts.visit instr) (facts.visit instr') := by
  obtain ⟨dest, value, span⟩ := instr
  obtain ⟨dest', value', span'⟩ := instr'
  obtain ⟨rfl, rfl⟩ : dest = dest' ∧ value = value' := Prod.mk.inj h
  simp only [visit]
  cases (value.mapOperands facts.resolve).eval? with
  | some outcome =>
    cases outcome with
    | error fault => exact .error rfl
    | ok n =>
      refine .ok ⟨?_, rfl⟩
      cases dest <;> rfl
  | none =>
    dsimp only
    split
    next => exact .ok ⟨rfl, rfl⟩
    next => exact .ok ⟨rfl, rfl⟩

theorem agree_sweep (facts : Facts) {code code' : List Instr}
    (h : code.map Instr.kind = code'.map Instr.kind) :
    Agree (fun x x' => x.1.map Instr.kind = x'.1.map Instr.kind ∧ x.2 = x'.2)
      (facts.sweep code) (facts.sweep code') := by
  induction code generalizing code' facts with
  | nil =>
    cases code' with
    | nil => exact .ok ⟨rfl, rfl⟩
    | cons instr' code' => cases h
  | cons instr code ih =>
    cases code' with
    | nil => cases h
    | cons instr' code' =>
      obtain ⟨hinstr, hcode⟩ := List.cons.inj h
      rw [sweep, sweep]
      refine (facts.agree_visit hinstr).bind ?_
      rintro ⟨left, next⟩ ⟨left', next'⟩ ⟨hleft, rfl : next = next'⟩
      refine (ih next hcode).bind ?_
      rintro ⟨rest, last⟩ ⟨rest', last'⟩ ⟨hrest, rfl : last = last'⟩
      refine .ok ⟨?_, rfl⟩
      have htoList := congrArg Option.toList hleft
      rw [Option.toList_map, Option.toList_map] at htoList
      rw [List.map_append, List.map_append, htoList, hrest]

end Facts

/-- The same answer, and the same code but for what its instructions were made for. -/
structure Folded.Same (folded folded' : Folded) : Prop where
  kinds : folded.code.map Instr.kind = folded'.code.map Instr.kind
  result : folded.result = folded'.result

theorem isSome_lastWrite?_iff (code : List Instr) (p : Place) :
    (lastWrite? code p).isSome ↔ p ∈ code.map (·.dest) := by
  simp [lastWrite?]

/-- Folding goes the same way over the same instructions, whatever they were made for. Whether the
answer was written at all is asked in the end, and that is the same too. -/
theorem Folded.agree_ofCode (answer : String) {code code' : List Instr}
    (h : code.map Instr.kind = code'.map Instr.kind) :
    Agree Same (ofCode answer code) (ofCode answer code') := by
  refine (Facts.empty.agree_sweep h).bind ?_
  rintro ⟨left, facts⟩ ⟨left', facts'⟩ ⟨hleft, rfl : facts = facts'⟩
  have hdests := congrArg (List.map Prod.fst) hleft
  rw [List.map_map, List.map_map] at hdests
  -- the answer is written in both or in neither
  have hwritten :
      (lastWrite? left (.var answer)).isSome = (lastWrite? left' (.var answer)).isSome := by
    rw [Bool.eq_iff_iff, isSome_lastWrite?_iff, isSome_lastWrite?_iff]
    exact iff_of_eq (congrArg (Place.var answer ∈ ·) hdests)
  dsimp only
  cases facts.value? (.var answer) with
  | none => exact .ok ⟨hleft, rfl⟩
  | some value =>
    cases hlast : lastWrite? left (.var answer) with
    | none =>
      cases hlast' : lastWrite? left' (.var answer) with
      | none => exact .ok ⟨hleft, rfl⟩
      | some span' =>
        rw [hlast, hlast'] at hwritten
        cases hwritten
    | some span =>
      cases hlast' : lastWrite? left' (.var answer) with
      | none =>
        rw [hlast, hlast'] at hwritten
        cases hwritten
      | some span' => exact .ok ⟨rfl, rfl⟩

/-! ## Trees

An outline has neither parentheses nor places, so that taking them away does not change it. -/

theorem Outline.ofExpr_unwrapped (e : Expr) : ofExpr e.unwrapped.bare = ofExpr e := by
  induction e with
  | literal value span => rfl
  | paren inner span ih => exact ih
  | unary op opSpan operand span ih => exact congrArg (Outline.unary op) ih
  | binary op opSpan lhs rhs span ihl ihr => exact congrArg₂ (Outline.binary op) ihl ihr

theorem Outline.ofProgram_unwrapped (stmts : List Stmt) :
    ofProgram (stmts.map (·.unwrapped.bare)) = ofProgram stmts := by
  rcases stmts with _ | ⟨_ | _, stmts⟩
  · rfl
  · exact ofExpr_unwrapped _
  · rfl

/-! ## Programs

The three parts have been shown one by one; that programs are the same without parentheses and
places is used for each of them in its own way. -/

/-- Programs that are the same without their parentheses and places are compiled to the same code
but for places, folded alike and shown by the same tree. -/
theorem compiled_alike {stmts stmts' : List Stmt}
    (h : stmts.map (·.unwrapped.bare) = stmts'.map (·.unwrapped.bare)) (answer : String) :
    (linearize stmts).map Instr.kind = (linearize stmts').map Instr.kind ∧
      Agree Folded.Same (Folded.ofCode answer (linearize stmts))
        (Folded.ofCode answer (linearize stmts')) ∧
      Outline.ofProgram stmts = Outline.ofProgram stmts' := by
  have hkinds := linearizeFrom_of_unwrapped h 0
  refine ⟨hkinds, Folded.agree_ofCode answer hkinds, ?_⟩
  rw [← Outline.ofProgram_unwrapped stmts, h, Outline.ofProgram_unwrapped]

/-- The program `x = 1 % ((0))`. -/
def wrappedDivisor : List Stmt :=
  [.assign ⟨"x", ⟨0, 1⟩⟩
    (.binary .mod ⟨6, 7⟩ (.literal (.int 1) ⟨4, 5⟩)
      (.paren (.paren (.literal (.int 0) ⟨10, 11⟩) ⟨9, 12⟩) ⟨8, 13⟩) ⟨4, 13⟩)
    ⟨0, 13⟩]

/-- The program `x = (1) % 0`. -/
def wrappedDividend : List Stmt :=
  [.assign ⟨"x", ⟨0, 1⟩⟩
    (.binary .mod ⟨8, 9⟩ (.paren (.literal (.int 1) ⟨5, 6⟩) ⟨4, 7⟩)
      (.literal (.int 0) ⟨10, 11⟩) ⟨4, 11⟩)
    ⟨0, 11⟩]

/-- Both divide by zero, each in its own place. -/
theorem compiled_alike_modulo :
    wrappedDivisor.map (·.unwrapped.bare) = wrappedDividend.map (·.unwrapped.bare) ∧
    (linearize wrappedDivisor).map Instr.kind = (linearize wrappedDividend).map Instr.kind ∧
    (∃ diagnostic diagnostic', Folded.ofCode "x" (linearize wrappedDivisor) = .error diagnostic ∧
      Folded.ofCode "x" (linearize wrappedDividend) = .error diagnostic' ∧
      diagnostic.fault = diagnostic'.fault ∧ diagnostic.spans ≠ diagnostic'.spans) ∧
    Outline.ofProgram wrappedDivisor = Outline.ofProgram wrappedDividend := by
  have hsame : wrappedDivisor.map (·.unwrapped.bare) = wrappedDividend.map (·.unwrapped.bare) := rfl
  obtain ⟨hkinds, hfolded, htree⟩ := compiled_alike hsame "x"
  refine ⟨hsame, hkinds, ?_, htree⟩
  have hdivisor : Folded.ofCode "x" (linearize wrappedDivisor) =
      .error (.evaluation ⟨4, 13⟩ (.divisionByZero "modulo")) := by rfl
  have hdividend : Folded.ofCode "x" (linearize wrappedDividend) =
      .error (.evaluation ⟨4, 11⟩ (.divisionByZero "modulo")) := by rfl
  rw [hdivisor, hdividend] at hfolded
  cases hfolded with
  | error hfault => exact ⟨_, _, hdivisor, hdividend, hfault, by decide⟩

end ThreeAddress
