import ThreeAddress.Code
import ThreeAddress.Number.Arithmetic
import ThreeAddress.Syntax

/-!
# From statements to code

An expression becomes the instructions that compute it and the operand that then has its value.
Literals and names need no instructions, as they are operands themselves; parentheses and `+` in
front of an operand leave no trace. A temporary has the number of the instructions before the one
that writes it, so no two instructions of a program share a temporary.

Both operands of a binary instruction are places: a constant among them is put into a temporary
first, after both sides have been computed. A sign in front of a constant is carried out at once,
where the result is in range.
-/

set_option autoImplicit false

namespace ThreeAddress

namespace Operand

/-- The operand as a place, and what has to be done for that after `before` instructions: a
constant is copied into a temporary, and a place is one already. -/
def settle (before : Nat) (span : Span) : Operand → List Instr × Operand
  | const n => ([⟨.temp before, .copy (const n), span⟩], place (.temp before))
  | place p => ([], place p)

/-- The constant that a minus in front of a constant makes, if there is one. -/
def negated? (a : Operand) : Option Number := do
  (Number.unary .neg (← a.const?)).toOption

end Operand

namespace Literal

def operand : Literal → Operand
  | int n => .const (.int n)
  | float x => .const (.float x)
  | name text => .place (.var text)

end Literal

namespace Expr

/-- The code of an expression that comes after `before` instructions, and the operand that has its
value then. -/
def linearize (before : Nat) : Expr → List Instr × Operand
  | literal value _ => ([], value.operand)
  | paren inner _ => inner.linearize before
  | unary .pos _ operand _ => operand.linearize before
  | unary .neg _ operand span =>
    let (code, a) := operand.linearize before
    match a.negated? with
    | some n => (code, .const n)
    -- no constant, or the least integer, whose negative is out of range
    | none =>
      let dest := Place.temp (before + code.length)
      (code ++ [⟨dest, .unary .neg a, span⟩], .place dest)
  | binary op _ lhs rhs span =>
    let (left, a) := lhs.linearize before
    let (right, b) := rhs.linearize (before + left.length)
    let sides := left ++ right
    let (first, a) := a.settle (before + sides.length) lhs.span
    let (second, b) := b.settle (before + sides.length + first.length) rhs.span
    let code := sides ++ first ++ second
    let dest := Place.temp (before + code.length)
    (code ++ [⟨dest, .binary op a b, span⟩], .place dest)

end Expr

namespace Stmt

/-- The code of a statement that comes after `before` instructions. It ends with the copy into the
target; a statement that is not an assignment has no code. -/
def linearize (before : Nat) : Stmt → List Instr
  | assign target value span =>
    let (code, a) := value.linearize before
    code ++ [⟨.var target.name, .copy a, span⟩]
  | unsupported _ _ => []

end Stmt

/-- The code of statements that come after `before` instructions. -/
def linearizeFrom : (before : Nat) → List Stmt → List Instr
  | _, [] => []
  | before, stmt :: stmts =>
    let code := stmt.linearize before
    code ++ linearizeFrom (before + code.length) stmts

def linearize (stmts : List Stmt) : List Instr := linearizeFrom 0 stmts

end ThreeAddress
