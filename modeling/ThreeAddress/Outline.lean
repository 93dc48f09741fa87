import ThreeAddress.Json
import ThreeAddress.Syntax

/-!
# Outlines

What is shown of a program beside its code: the tree of the first right-hand side, with its
operators, constants and names as nodes. Parentheses do not show, as the tree says by its form what
they say in the source.
-/

set_option autoImplicit false

namespace ThreeAddress

/-- A tree of operators over constants and names. -/
inductive Outline where
  | leaf (text : String)
  | unary (op : UnOp) (operand : Outline)
  | binary (op : BinOp) (lhs rhs : Outline)
  deriving DecidableEq, Repr

namespace Outline

/-- What stands where nothing can be shown. -/
def unknown : Outline := leaf "?"

def ofExpr : Expr → Outline
  | .literal value _ => leaf value.text
  | .paren inner _ => ofExpr inner
  | .unary op _ operand _ => unary op (ofExpr operand)
  | .binary op _ lhs rhs _ => binary op (ofExpr lhs) (ofExpr rhs)

/-- The outline of a program: that of its first statement, if it is an assignment. -/
def ofProgram (stmts : List Stmt) : Outline :=
  match stmts.head?.bind Stmt.value? with
  | some value => ofExpr value
  | none => unknown

def label : Outline → String
  | leaf text => text
  | unary op _ => op.symbol
  | binary op _ _ => op.symbol

def children : Outline → List Outline
  | leaf _ => []
  | unary _ operand => [operand]
  | binary _ lhs rhs => [lhs, rhs]

/-- One line for each node, with two blanks before it for each of its levels. So the form of
the tree can be read off the blanks. -/
def lines (level : Nat) (outline : Outline) : List String :=
  let line := String.ofList (List.replicate (2 * level) ' ') ++ outline.label
  match outline with
  | leaf _ => [line]
  | unary _ operand => line :: operand.lines (level + 1)
  | binary _ lhs rhs => line :: (lhs.lines (level + 1) ++ rhs.lines (level + 1))

/-- The text of an outline, which ends each of its lines. -/
def text (outline : Outline) : String := String.join ((outline.lines 0).map (· ++ "\n"))

def nodeJson (label : String) (children : List Json) : Json :=
  .obj [("value", .str label), ("children", .arr children)]

def toJson : Outline → Json
  | leaf text => nodeJson text []
  | unary op operand => nodeJson op.symbol [operand.toJson]
  | binary op lhs rhs => nodeJson op.symbol [lhs.toJson, rhs.toJson]

end Outline

end ThreeAddress
