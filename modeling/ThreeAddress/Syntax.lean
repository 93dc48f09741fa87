import ThreeAddress.Number
import ThreeAddress.Operator
import ThreeAddress.Span

/-!
# Expressions and statements

A program is a list of statements. An assignment has an expression, a tree in which the parentheses
of the source stay as nodes of their own and every node knows where it stands. All other
statements are kept only by their kind and place: they are read, and then nothing is done with
them.
-/

set_option autoImplicit false

namespace ThreeAddress

/-! ### Expressions -/

/-- A value that is written out, or the name of one. -/
inductive Literal where
  | int (value : Int64)
  | float (value : Float)
  | name (text : String)

def Literal.text : Literal → String
  | int n => Number.intText n
  | float x => Number.floatText x
  | name text => text

/-- An expression. Every node ends with the place where it stands. -/
inductive Expr where
  | literal (value : Literal) (span : Span)
  | paren (inner : Expr) (span : Span)
  | unary (op : UnOp) (opSpan : Span) (operand : Expr) (span : Span)
  | binary (op : BinOp) (opSpan : Span) (lhs rhs : Expr) (span : Span)

namespace Expr

def span : Expr → Span
  | literal _ span | paren _ span | unary _ _ _ span | binary _ _ _ _ span => span

/-- The expression inside all parentheses around it. -/
def innermost : Expr → Expr
  | paren inner _ => inner.innermost
  | e => e

/-- The text of the expression: one blank to each side of a binary operator and none elsewhere. -/
def text : Expr → String
  | literal value _ => value.text
  | paren inner _ => "(" ++ inner.text ++ ")"
  | unary op _ operand _ => op.symbol ++ operand.text
  | binary op _ lhs rhs _ => lhs.text ++ " " ++ op.symbol ++ " " ++ rhs.text

/-! ### Height

A tree is measured by walking it with a list of the nodes still to be seen, each with its level,
and not by recursion into it: a long chain of operators is a tree as high as the chain is long.
Every turn of the walk sees one node, so there are as many turns as nodes. -/

def size : Expr → Nat
  | literal _ _ => 1
  | paren inner _ => inner.size + 1
  | unary _ _ operand _ => operand.size + 1
  | binary _ _ lhs rhs _ => lhs.size + rhs.size + 1

def children : Expr → List Expr
  | literal _ _ => []
  | paren inner _ => [inner]
  | unary _ _ operand _ => [operand]
  | binary _ _ lhs rhs _ => [rhs, lhs]

/-- The greatest level met on a walk of at most `turns` nodes, where `most` is the greatest so far
and `waiting` are the nodes to be seen, with their levels. -/
def walk : (turns : Nat) → (most : Nat) → (waiting : List (Expr × Nat)) → Nat
  | 0, most, _ => most
  | _ + 1, most, [] => most
  | turns + 1, most, (e, level) :: waiting =>
    walk turns (max most level) (e.children.map (·, level + 1) ++ waiting)

/-- The number of nodes on the longest way down, parentheses included: one for a literal. -/
def height (e : Expr) : Nat := walk e.size 0 [(e, 1)]

end Expr

/-! ### Statements -/

structure Ident where
  name : String
  span : Span
  deriving DecidableEq, Repr

/-- The forms of statement that are read but not compiled. -/
inductive UnsupportedKind where
  /-- An expression alone. -/
  | expr
  /-- An assignment to more than one name, as `a = b = 1`. -/
  | chainedAssign
  /-- An assignment through an operator, as `a += 1`. -/
  | augmentedAssign
  deriving DecidableEq, Repr

def UnsupportedKind.label : UnsupportedKind → String
  | expr => "Expr"
  | chainedAssign => "ChainedAssign"
  | augmentedAssign => "AugmentedAssign"

def UnsupportedKind.all : List UnsupportedKind := [expr, chainedAssign, augmentedAssign]

inductive Stmt where
  | assign (target : Ident) (value : Expr) (span : Span)
  | unsupported (kind : UnsupportedKind) (span : Span)

namespace Stmt

def span : Stmt → Span
  | assign _ _ span | unsupported _ span => span

/-- The expression that the statement assigns, if it is an assignment. -/
def value? : Stmt → Option Expr
  | assign _ value _ => some value
  | unsupported _ _ => none

/-- The text of the statement. One that is not compiled has none of its own. -/
def text : Stmt → String
  | assign target value _ => target.name ++ " = " ++ value.text
  | unsupported _ _ => "?"

end Stmt

end ThreeAddress
