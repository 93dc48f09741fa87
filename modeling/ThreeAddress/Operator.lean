/-!
# Operators

The two unary and eleven binary operators, how tightly each binds, and to which side it groups.

From loosest to tightest: `|`, `^`, `&`, the shifts, `+` and `-`, then `*` `/` `%`, then the unary
signs, then `**`. So `-x**2` is `-(x**2)` while `-x * 2` is `(-x) * 2`. Every binary operator
groups to the left except `**`.
-/

set_option autoImplicit false

namespace ThreeAddress

/-! ### How tightly an operator binds

Levels are compared by rank. None of the operators has the level `any`, which is for chains that
take them all. -/

/-- The levels of binding, from loosest to tightest. -/
inductive Precedence where
  /-- Below every operator. -/
  | any
  | bitOr | bitXor | bitAnd | shift | term | factor
  /-- The unary signs. -/
  | neg
  | exp
  deriving DecidableEq, Repr, Inhabited

namespace Precedence

def rank : Precedence → Nat
  | any => 0
  | bitOr => 1
  | bitXor => 2
  | bitAnd => 3
  | shift => 4
  | term => 5
  | factor => 6
  | neg => 7
  | exp => 8

instance : LE Precedence := ⟨fun a b => a.rank ≤ b.rank⟩
instance : LT Precedence := ⟨fun a b => a.rank < b.rank⟩
instance (a b : Precedence) : Decidable (a ≤ b) := inferInstanceAs (Decidable (a.rank ≤ b.rank))
instance (a b : Precedence) : Decidable (a < b) := inferInstanceAs (Decidable (a.rank < b.rank))

def label : Precedence → String
  | any => "Any"
  | bitOr => "BitOr"
  | bitXor => "BitXor"
  | bitAnd => "BitAnd"
  | shift => "Shift"
  | term => "Term"
  | factor => "Factor"
  | neg => "Neg"
  | exp => "Exp"

def all : List Precedence := [any, bitOr, bitXor, bitAnd, shift, term, factor, neg, exp]

end Precedence

/-- The side to which a chain of operators of one level groups: `a - b - c` is `(a - b) - c`,
`a ** b ** c` is `a ** (b ** c)`. -/
inductive Associativity where
  | left | right
  deriving DecidableEq, Repr, Inhabited

def Associativity.label : Associativity → String
  | left => "Left"
  | right => "Right"

/-! ### The operators -/

/-- A sign in front of its operand. -/
inductive UnOp where
  | neg | pos
  deriving DecidableEq, Repr, Inhabited

namespace UnOp

def symbol : UnOp → String
  | neg => "-"
  | pos => "+"

def label : UnOp → String
  | neg => "Neg"
  | pos => "Pos"

/-- Both signs bind alike. -/
def precedence (_ : UnOp) : Precedence := .neg

def all : List UnOp := [neg, pos]

end UnOp

/-- An operator between its two operands. -/
inductive BinOp where
  | exp | mul | div | mod | add | sub
  | shiftRight | shiftLeft | bitAnd | bitXor | bitOr
  deriving DecidableEq, Repr, Inhabited

namespace BinOp

def symbol : BinOp → String
  | exp => "**"
  | mul => "*"
  | div => "/"
  | mod => "%"
  | add => "+"
  | sub => "-"
  | shiftRight => ">>"
  | shiftLeft => "<<"
  | bitAnd => "&"
  | bitXor => "^"
  | bitOr => "|"

def label : BinOp → String
  | exp => "Exp"
  | mul => "Mul"
  | div => "Div"
  | mod => "Mod"
  | add => "Add"
  | sub => "Sub"
  | shiftRight => "BitRight"
  | shiftLeft => "BitLeft"
  | bitAnd => "BitAnd"
  | bitXor => "BitXor"
  | bitOr => "BitOr"

def precedence : BinOp → Precedence
  | exp => .exp
  | mul | div | mod => .factor
  | add | sub => .term
  | shiftRight | shiftLeft => .shift
  | bitAnd => .bitAnd
  | bitXor => .bitXor
  | bitOr => .bitOr

/-- Powers group to the right, all else to the left. -/
def associativity : BinOp → Associativity
  | exp => .right
  | _ => .left

/-- All binary operators, from `**` down. -/
def all : List BinOp :=
  [exp, mul, div, mod, add, sub, shiftRight, shiftLeft, bitAnd, bitXor, bitOr]

end BinOp

end ThreeAddress
