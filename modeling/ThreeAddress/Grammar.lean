import ThreeAddress.Parser
import ThreeAddress.Syntax

/-!
# The grammar of programs

Expressions are read by climbing: an operand, then operators with their right sides as long as the
operators bind tightly enough. A right side is first taken to be one operand, and then grows by
every operator after it that binds tighter than the one before it, or as tight and to the right.

The phrases that are read in the course of this call on each other, but not without end. Every
parenthesis, sign and power costs a level of nesting, of which there are `nestingLimit`, and within
a level a chain of operators only ever calls on one that binds tighter. So there is a fixed bound
on how deep the calls go, `callDepth`, whatever the length of the text: `Phrase.read` is one layer
of the grammar over the layer below it, and `Phrase.parse` puts `callDepth` layers on top of each
other. The lowest is never reached.
-/

set_option autoImplicit false

namespace ThreeAddress

/-- How high the tree of an expression may be. -/
def heightLimit : Nat := 1000

/-! ### What a single token can be -/

namespace Token

/-- The complaint that a token is none of the kinds that could stand in its place. -/
def unexpected (expected : List TokenKind) (token : Token) : SyntaxFault :=
  .unexpectedToken expected token.kind token.lexeme

/-- The token itself, if it is of this kind. -/
def ofKind (kind : TokenKind) (token : Token) : Except SyntaxFault Token :=
  if token.kind = kind then .ok token else .error (token.unexpected [kind])

def ident (token : Token) : Except SyntaxFault Ident :=
  if token.kind = .name then .ok ⟨token.lexeme, token.span⟩ else .error (token.unexpected [.name])

def digitsValue (cs : List Char) : Nat := Nat.ofDigitChars 10 cs 0

/-- The float nearest to a decimal written with a point. -/
def floatValue (cs : List Char) : Float :=
  let whole := cs.takeWhile Char.isDigit
  let fraction := (cs.dropWhile Char.isDigit).drop 1
  .ofScientific (digitsValue (whole ++ fraction)) true fraction.length

def literal (token : Token) : Except SyntaxFault Literal :=
  match token.kind with
  | .int =>
    let value := digitsValue token.lexeme.toList
    if value ≤ greatestInt then .ok (.int (Int64.ofNat value))
    else .error (.integerOutOfRange token.lexeme)
  | .float =>
    let value := floatValue token.lexeme.toList
    if value.isFinite then .ok (.float value) else .error (.floatOutOfRange token.lexeme)
  | .name => .ok (.name token.lexeme)
  | _ => .error (token.unexpected [.int, .float, .name, .openParen])

def literalExpr (token : Token) : Except SyntaxFault Expr := do
  return .literal (← token.literal) token.span

def unaryOp (token : Token) : Except SyntaxFault (UnOp × Span) :=
  match token.kind with
  | .sub => .ok (.neg, token.span)
  | .add => .ok (.pos, token.span)
  | _ => .error (token.unexpected [.sub, .add])

def binaryOp (token : Token) : Except SyntaxFault (BinOp × Span) :=
  match token.kind with
  | .exp => .ok (.exp, token.span)
  | .mul => .ok (.mul, token.span)
  | .div => .ok (.div, token.span)
  | .mod => .ok (.mod, token.span)
  | .add => .ok (.add, token.span)
  | .sub => .ok (.sub, token.span)
  | .bitRight => .ok (.shiftRight, token.span)
  | .bitLeft => .ok (.shiftLeft, token.span)
  | .bitAnd => .ok (.bitAnd, token.span)
  | .bitXor => .ok (.bitXor, token.span)
  | .bitOr => .ok (.bitOr, token.span)
  | _ =>
    .error (token.unexpected
      [.exp, .mul, .div, .mod, .add, .sub, .bitRight, .bitLeft, .bitAnd, .bitXor, .bitOr])

end Token

/-! ### Expressions -/

/-- A part of the grammar that yields an expression. -/
inductive Phrase where
  | expr
  /-- What may stand to either side of an operator: a sign with its operand, a literal, or an
  expression in parentheses. -/
  | operand
  | signed
  | paren
  /-- What `lhs` grows into by the operators after it that bind at least as tight as `floor`. -/
  | chain (lhs : Expr) (floor : Precedence)
  /-- What the right side of `op` grows into, of which `rhs` is the beginning. -/
  | rightSide (op : BinOp) (rhs : Expr)

namespace Phrase

open ThreeAddress.Parser

/-- Reads an operand that has no sign. -/
def primary (inner : Phrase → Parser Expr) : Parser Expr := do
  if (← upcomingKind) = some .openParen then attempt (inner .paren)
  else attempt (tokenAs Token.literalExpr)

/-- Reads an expression in parentheses. From the opening one on line ends do not count. A pair with
nothing in it is refused as one place; where the partner is missing, the complaint is about the
parenthesis that was opened. -/
def parenthesized (inner : Phrase → Parser Expr) : Parser Expr := do
  let opening ← attempt (tokenAs (Token.ofKind .openParen))
  deeper <| enclosed do
    match ← upcomingKind with
    | none => throw (.form opening.span (.unclosedParenthesis true))
    | some .closeParen =>
      let closing ← attempt (tokenAs (Token.ofKind .closeParen))
      throw (.form (opening.span.through closing.span) .emptyParenthesis)
    | some _ =>
      let e ← attempt (inner .expr)
      let closing ← failingWith (.form opening.span (.unclosedParenthesis true))
        (attempt (tokenAs (Token.ofKind .closeParen)))
      return .paren e (opening.span.through closing.span)

/-- Reads a sign and what it applies to. The sign binds looser than a power, so the powers after
the operand belong to it. -/
def withSign (inner : Phrase → Parser Expr) : Parser Expr := do
  let (op, opSpan) ← attempt (tokenAs Token.unaryOp)
  deeper do
    let first ← inner .operand
    let operand ← inner (.chain first op.precedence)
    return .unary op opSpan operand (opSpan.through operand.span)

/-- Lets an expression grow by one operator and its right side, if an operator follows that binds
tightly enough. The height goes along with the expression, so that it need not be measured anew. A
tree that has become too high is refused at once, with the place that it covers by then. -/
def chainTurn (inner : Phrase → Parser Expr) (floor : Precedence) :
    Expr × Nat → Parser (Option (Expr × Nat))
  | (lhs, height) => do
    match ← lookahead (tokenAs Token.binaryOp) with
    | none => return none
    | some (op, opSpan) =>
      if op.precedence < floor then return none
      -- only now is the operator read: up to here it may belong to a chain further out
      discard next
      let first ← inner .operand
      let rhs ← inner (.rightSide op first)
      let span := lhs.span.through rhs.span
      let height := 1 + max height rhs.height
      if heightLimit < height then throw (.form span (.tooDeeplyNested heightLimit))
      return some (.binary op opSpan lhs rhs span, height)

/-- Lets the right side of `op` grow by the operators after it that belong to it. One that binds as
tight as `op` belongs to it if it groups to the right, and costs a level of nesting. The operator
itself is only looked at; the chain that is called on reads it. -/
def rightSideTurn (inner : Phrase → Parser Expr) (op : BinOp) (rhs : Expr) :
    Parser (Option Expr) := do
  match ← lookahead (tokenAs Token.binaryOp) with
  | none => return none
  | some (following, _) =>
    if op.precedence < following.precedence then
      -- no level of nesting: there are only so many levels of binding to go up
      return some (← inner (.chain rhs following.precedence))
    else if following.precedence = op.precedence ∧ following.associativity = .right then
      return some (← deeper (inner (.chain rhs op.precedence)))
    else return none

/-- Reads a phrase, given how the phrases in it are read. -/
def read (inner : Phrase → Parser Expr) : Phrase → Parser Expr
  | expr => do
    -- told apart from other tokens that begin nothing: this one has no partner
    if (← upcomingKind) = some .closeParen then
      let closing ← next
      throw (.form closing.span (.unclosedParenthesis false))
    let lhs ← inner operand
    inner (chain lhs .any)
  | operand => do
    if (← lookahead (tokenAs Token.unaryOp)).isSome then inner signed
    else attempt (primary inner)
  | signed => withSign inner
  | paren => parenthesized inner
  | chain lhs floor => do return (← grow (chainTurn inner floor) (lhs, lhs.height)).1
  | rightSide op rhs => grow (rightSideTurn inner op) rhs

/-- Reads a phrase through a number of layers of the grammar, on top of `bottom`. A call that stays
above the bottom does not depend on it. -/
def readFrom (bottom : Phrase → Parser Expr) : (depth : Nat) → Phrase → Parser Expr
  | 0 => bottom
  | depth + 1 => read (readFrom bottom depth)

/-- More layers than any text goes through: sixteen for each level of nesting. An expression is
one, each of the seven levels of binary operators has a chain, and all but the last of them a
right side that leads on to the next level; the last leads to an operand, and so to a sign or a
parenthesis and one level deeper. -/
def callDepth : Nat := 16 * (nestingLimit + 1)

/-- Reads a phrase, with as many layers of the grammar as any text goes through. What stands at the
bottom is never called. -/
def parse : Phrase → Parser Expr :=
  readFrom (fun _ => fail (.tooDeeplyNested nestingLimit)) callDepth

end Phrase

/-! ### Statements and programs -/

namespace Parser

def expr : Parser Expr := Phrase.expr.parse

/-- Reads an operand, and all that follows it with operators that bind at least as tight as
`floor`. -/
def climb (floor : Precedence) : Parser Expr := do
  Phrase.parse (.chain (← Phrase.operand.parse) floor)

def assignment : Parser Stmt := do
  let target ← attempt (tokenAs Token.ident)
  discard (attempt (tokenAs (Token.ofKind .assign)))
  let value ← attempt expr
  return .assign target value (target.span.through value.span)

/-- Goes on behind the expression before by another `=` and the expression after it. -/
def assignTurn (_ : Span) : Parser (Option Span) := do
  if (← upcomingKind) = some .assign then
    discard (attempt (tokenAs (Token.ofKind .assign)))
    return some (← attempt expr).span
  else return none

/-- Reads a statement. What it is shows in its first two tokens. A statement that is not compiled is
read to its end all the same, so that what is wrong in it is found, and the one after it too. -/
def statement : Parser Stmt := do
  if ← upcomingAre [.name, .assign] then
    let first ← attempt assignment
    if (← upcomingKind) ≠ some .assign then return first
    let last ← grow assignTurn first.span
    return .unsupported .chainedAssign (first.span.through last)
  if ← upcomingAre [.name, .compoundAssign] then
    let target ← attempt (tokenAs Token.ident)
    discard (attempt (tokenAs (Token.ofKind .compoundAssign)))
    let value ← attempt expr
    return .unsupported .augmentedAssign (target.span.through value.span)
  return .unsupported .expr (← attempt expr).span

/-- Passes the separators in front of a statement. -/
def separators : Parser Unit :=
  grow (fun _ => do
    if (← upcomingKind).any TokenKind.isSeparator then
      discard next
      return some ()
    else return none) ()

/-- Reads what has to follow a statement: a separator, or the end of the text. -/
def endOfStatement : Parser Unit := do
  match ← possibly next with
  | none => return ()
  | some token =>
    if token.kind.isSeparator then return ()
    else if token.kind = .closeParen then throw (.form token.span (.unclosedParenthesis false))
    else throw (.form token.span (.expectedEndOfStatement token.lexeme))

/-- Reads one more statement of a program, if there is one. The height of an assigned expression is
looked at once more: the chains know of the operators they add, and not of a parenthesis or a sign
around all of them. -/
def programTurn (stmts : List Stmt) : Parser (Option (List Stmt)) := do
  separators
  if ← atEnd then return none
  let stmt ← attempt statement
  if stmt.value?.any (heightLimit < ·.height) then
    throw (.form stmt.span (.tooDeeplyNested heightLimit))
  endOfStatement
  return some (stmts ++ [stmt])

/-- Reads a whole program: statements with separators between them. -/
def program : Parser (List Stmt) := grow programTurn []

def runOn {α : Type} (p : Parser α) (source : String) : Except Diagnostic α :=
  match p (.start source) with
  | .ok value _ => .ok value
  | .error diagnostic _ => .error diagnostic

end Parser

def parseProgram (source : String) : Except Diagnostic (List Stmt) := Parser.program.runOn source

def parseExpr (source : String) : Except Diagnostic Expr := (Parser.full Parser.expr).runOn source

end ThreeAddress
