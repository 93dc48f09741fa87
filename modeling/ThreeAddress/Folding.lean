import ThreeAddress.Diagnostic
import ThreeAddress.Facts
import ThreeAddress.Number.Arithmetic

/-!
# Folding code

Code is swept once, from front to back. In each instruction the operands that are known become what
is known of them. If all operands are then constants, the instruction is carried out, and what it
writes is known; a temporary needs no instruction then, and a variable keeps its place in the code
as a constant. Else `a + 0` and `a * 1` become `a`, a temporary that is a mere copy is left out and
known as one, and any other instruction stays.

If in the end the value of the answer is known, nothing but it is left of the program.
-/

set_option autoImplicit false

namespace ThreeAddress

/-! ### One instruction -/

namespace Computation

/-- The outcome of a computation on constants. Nothing if one of the operands is a place. -/
def eval? : Computation → Option (Except EvalFault Number)
  | copy a => do return .ok (← a.const?)
  | unary op a => do return Number.unary op (← a.const?)
  | binary op a b => do return Number.binary op (← a.const?) (← b.const?)

/-- Drops an addition of the integer zero and a multiplication by the integer one, if that is the
right operand. -/
def simplify : Computation → Computation
  | binary .add a (.const (.int 0)) => copy a
  | binary .mul a (.const (.int 1)) => copy a
  | other => other

end Computation

namespace Facts

/-- Takes notice of an instruction: what is left of it, if anything, and what is known after it.
Constants are worked out whether or not the value is used later, so what is wrong with them is
always found. -/
def visit (facts : Facts) (instr : Instr) : Except Diagnostic (Option Instr × Facts) :=
  let value := instr.value.mapOperands facts.resolve
  match value.eval? with
  | some (.error fault) => .error (.evaluation instr.span fault)
  | some (.ok n) =>
    -- nobody but the code reads a temporary, and the code will read the constant
    let left := if instr.dest.isTemp then none else some { instr with value := .copy (.const n) }
    .ok (left, facts.assign instr.dest n)
  | none =>
    match instr.dest, value.simplify with
    | .temp index, .copy (.place source) => .ok (none, facts.link index source)
    | dest, value => .ok (some { instr with value }, facts.forget dest)

/-- Takes notice of the instructions of a code in turn: what is left of them, and what is known in
the end. -/
def sweep (facts : Facts) : List Instr → Except Diagnostic (List Instr × Facts)
  | [] => .ok ([], facts)
  | instr :: code => do
    let (left, facts) ← facts.visit instr
    let (rest, facts) ← facts.sweep code
    return (left.toList ++ rest, facts)

end Facts

/-! ### A whole code -/

structure Folded where
  code : List Instr
  /-- The value of the answer, if it is known. -/
  result : Option Number

/-- Where the last write to a place was made for. -/
def lastWrite? (code : List Instr) (p : Place) : Option Span :=
  (code.reverse.find? (·.dest = p)).map (·.span)

/-- Folds a code whose answer is the variable `answer`. -/
def Folded.ofCode (answer : String) (code : List Instr) : Except Diagnostic Folded := do
  let (left, facts) ← Facts.empty.sweep code
  match facts.value? (.var answer), lastWrite? left (.var answer) with
  | some value, some span => return ⟨[⟨.var answer, .copy (.const value), span⟩], some value⟩
  | _, _ => return ⟨left, none⟩

end ThreeAddress
