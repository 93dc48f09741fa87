import ThreeAddress.Operator
import ThreeAddress.Token

/-!
# Diagnostics

Everything that can be wrong with a program, as causes: what the reader of the syntax can meet
(`SyntaxFault`) and what the evaluation of constants can meet (`EvalFault`). A `Diagnostic` is a
cause with the places it points at. The words for a cause (the message, the label under the
marked place, and sometimes a help text) are given here and nowhere else.
-/

set_option autoImplicit false

namespace ThreeAddress

def greatestInt : Int := Int64.maxValue.toInt

def leastInt : Int := Int64.minValue.toInt

/-! ### Causes -/

/-- What can be wrong with the form of a program. -/
inductive SyntaxFault where
  /-- The text ended where something had to follow. -/
  | unexpectedEnd
  /-- Something followed where the text had to end. -/
  | expectedEnd
  /-- A token that is none of those that could stand here. -/
  | unexpectedToken (expected : List TokenKind) (found : TokenKind) (lexeme : String)
  /-- A statement is followed by something other than a line end or a semicolon. -/
  | expectedEndOfStatement (found : String)
  /-- A parenthesis without its partner: a `(` if `opening`, else a `)`. -/
  | unclosedParenthesis (opening : Bool)
  /-- Nothing stands between two parentheses. -/
  | emptyParenthesis
  | integerOutOfRange (lexeme : String)
  | floatOutOfRange (lexeme : String)
  /-- An expression goes deeper than `limit` levels. -/
  | tooDeeplyNested (limit : Nat)
  deriving DecidableEq, Repr

/-- What can go wrong when an operation on constants is carried out. -/
inductive EvalFault where
  /-- Division or modulo by zero, or zero raised to a negative power. -/
  | divisionByZero (operation : String)
  | integerOverflow (operator : String)
  /-- An operator on bits met a float. -/
  | floatBitwise (operator : BinOp)
  | negativeShift
  /-- A negative number was raised to a power that is not whole. -/
  | complexResult
  /-- A result is infinite or not a number. -/
  | nonFiniteResult (operator : String)
  deriving DecidableEq, Repr

inductive Fault where
  | form (fault : SyntaxFault)
  | evaluation (fault : EvalFault)
  deriving DecidableEq, Repr

/-- A fault and the places in the source that it is about. -/
structure Diagnostic where
  spans : List Span
  fault : Fault
  deriving DecidableEq, Repr

/-! ### Words

A fault carries whatever it quotes of the source, so its words do not need the source. -/

namespace SyntaxFault

/-- The one-line description of the fault. -/
def message : SyntaxFault → String
  | unexpectedEnd => "unexpected end of input"
  | expectedEnd => "expected end of input"
  | unexpectedToken _ _ lexeme => "unexpected `" ++ lexeme ++ "`"
  | expectedEndOfStatement found => "expected the end of the statement, found `" ++ found ++ "`"
  | unclosedParenthesis _ => "unclosed parenthesis"
  | emptyParenthesis => "missing expression inside parenthesis"
  | integerOutOfRange lexeme => "integer literal `" ++ lexeme ++ "` is too large"
  | floatOutOfRange lexeme => "floating-point literal `" ++ lexeme ++ "` is too large"
  | tooDeeplyNested limit =>
    "expression is nested more than " ++ limit.repr ++ " levels deep"

/-- What is written under the marked place. -/
def label : SyntaxFault → String
  | unexpectedEnd => "you might need to add another expression here"
  | expectedEnd => "I could not understand the remaining expression here"
  | unexpectedToken expected _ _ =>
    "expected one of: " ++ ", ".intercalate (expected.map TokenKind.label)
  | expectedEndOfStatement _ => "this should not be here"
  | unclosedParenthesis true => "this parenthesis is never closed"
  | unclosedParenthesis false => "this parenthesis was never opened"
  | emptyParenthesis => "add an expression here"
  | integerOutOfRange _ | floatOutOfRange _ => "this literal"
  | tooDeeplyNested _ => "in this expression"

/-- Advice, for the faults that have some. -/
def help : SyntaxFault → Option String
  | unexpectedToken _ found _ => some ("found " ++ found.label)
  | expectedEndOfStatement _ => some "separate statements with a newline or `;`"
  | unclosedParenthesis true => some "add a closing parenthesis `)` somewhere after this"
  | unclosedParenthesis false => some "add an opening parenthesis `(` somewhere before this"
  | integerOutOfRange _ => some ("integers must be at most " ++ greatestInt.repr)
  | tooDeeplyNested _ => some "split the expression into several statements"
  | _ => none

end SyntaxFault

namespace EvalFault

def message : EvalFault → String
  | divisionByZero operation => operation ++ " by zero"
  | integerOverflow operator => "integer overflow while evaluating `" ++ operator ++ "`"
  | floatBitwise operator =>
    "cannot apply the `" ++ operator.symbol ++ "` operator to a floating-point number"
  | negativeShift => "negative shift count"
  | complexResult => "negative number cannot be raised to a fractional power"
  | nonFiniteResult operator => "result of `" ++ operator ++ "` is too large to represent"

def label : EvalFault → String
  | divisionByZero _ => "this expression divides by zero"
  | integerOverflow _ => "this expression overflows"
  | complexResult => "the result of this expression is a complex number"
  | floatBitwise _ | negativeShift | nonFiniteResult _ => "this expression"

def help : EvalFault → Option String
  | integerOverflow _ =>
    some ("integers must be between " ++ leastInt.repr ++ " and " ++ greatestInt.repr)
  | floatBitwise _ => some "bitwise operators only accept integers"
  | _ => none

end EvalFault

namespace Fault

@[inherit_doc SyntaxFault.message]
def message : Fault → String
  | form fault => fault.message
  | evaluation fault => fault.message

@[inherit_doc SyntaxFault.label]
def label : Fault → String
  | form fault => fault.label
  | evaluation fault => fault.label

@[inherit_doc SyntaxFault.help]
def help : Fault → Option String
  | form fault => fault.help
  | evaluation fault => fault.help

end Fault

namespace Diagnostic

def form (span : Span) (fault : SyntaxFault) : Diagnostic := ⟨[span], .form fault⟩

def evaluation (span : Span) (fault : EvalFault) : Diagnostic := ⟨[span], .evaluation fault⟩

def message (diagnostic : Diagnostic) : String := diagnostic.fault.message

end Diagnostic

end ThreeAddress
