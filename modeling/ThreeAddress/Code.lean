import ThreeAddress.Number
import ThreeAddress.Operator
import ThreeAddress.Span

/-!
# Three-address code

An instruction computes one value from at most two operands and writes it to one place. The places
are the variables of the program and the temporaries of the code. A variable that is called like a
temporary is another place, though the two are written alike.
-/

set_option autoImplicit false

namespace ThreeAddress

/-- Where an instruction can write. -/
inductive Place where
  /-- A temporary, written as `t` and its number. -/
  | temp (index : Nat)
  /-- A variable of the program. -/
  | var (name : String)
  deriving DecidableEq, Repr

namespace Place

def text : Place → String
  | temp n => "t" ++ n.repr
  | var name => name

def isTemp : Place → Bool
  | temp _ => true
  | var _ => false

end Place

/-- What an instruction can read. -/
inductive Operand where
  /-- What was last written to a place. -/
  | place (place : Place)
  | const (value : Number)

namespace Operand

def text : Operand → String
  | place p => p.text
  | const n => n.text

/-- The value of an operand that is a constant. -/
def const? : Operand → Option Number
  | place _ => none
  | const n => some n

end Operand

/-- What an instruction does with its operands: nothing, or one operation. -/
inductive Computation where
  | copy (source : Operand)
  | unary (op : UnOp) (operand : Operand)
  | binary (op : BinOp) (lhs rhs : Operand)

namespace Computation

def text : Computation → String
  | copy a => a.text
  | unary op a => op.symbol ++ a.text
  | binary op a b => a.text ++ " " ++ op.symbol ++ " " ++ b.text

/-- The operands, in the order in which they are read. -/
def operands : Computation → List Operand
  | copy a => [a]
  | unary _ a => [a]
  | binary _ a b => [a, b]

def mapOperands (f : Operand → Operand) : Computation → Computation
  | copy a => copy (f a)
  | unary op a => unary op (f a)
  | binary op a b => binary op (f a) (f b)

end Computation

structure Instr where
  dest : Place
  value : Computation
  /-- The part of the source that the instruction was made for. -/
  span : Span

namespace Instr

def text (instr : Instr) : String := instr.dest.text ++ " = " ++ instr.value.text

end Instr

end ThreeAddress
