import ThreeAddress.Span

/-!
# Tokens

The pieces that a source text is cut into. Nothing is dropped on the way: blanks and line ends are
tokens too, and a character that begins no other token is a `symbol` of its own, so that an error
can point at it. How a text is cut is the business of `ThreeAddress.Token.Scan`.
-/

set_option autoImplicit false

namespace ThreeAddress

inductive TokenKind where
  /-- A run of line feeds and carriage returns. -/
  | newLine
  /-- A run of spaces, tabs and form feeds. -/
  | whitespace
  | semicolon
  | add | sub | mul | div | mod | exp
  | bitAnd | bitOr | bitXor | bitLeft | bitRight
  /-- A single `=`. -/
  | assign
  /-- A binary operator with `=` written right after it. -/
  | compoundAssign
  | name
  | openParen | closeParen
  | int | float
  /-- Any other single character. -/
  | symbol
  deriving DecidableEq, Repr, Inhabited

namespace TokenKind

/-- The word that messages use for a kind of token. -/
def label : TokenKind → String
  | newLine => "NewLine"
  | whitespace => "Whitespace"
  | semicolon => "Semicolon"
  | add => "Add"
  | sub => "Sub"
  | mul => "Mul"
  | div => "Div"
  | mod => "Mod"
  | exp => "Exp"
  | bitAnd => "BitAnd"
  | bitOr => "BitOr"
  | bitXor => "BitXor"
  | bitLeft => "BitLeft"
  | bitRight => "BitRight"
  | assign => "Assign"
  | compoundAssign => "CompoundAssign"
  | name => "Name"
  | openParen => "OpenParen"
  | closeParen => "CloseParen"
  | int => "Int"
  | float => "Float"
  | symbol => "Symbol"

def all : List TokenKind :=
  [newLine, whitespace, semicolon, add, sub, mul, div, mod, exp, bitAnd, bitOr, bitXor, bitLeft,
    bitRight, assign, compoundAssign, name, openParen, closeParen, int, float, symbol]

/-- Line ends and semicolons stand between two statements. -/
def isSeparator (kind : TokenKind) : Bool :=
  kind = newLine || kind = semicolon

end TokenKind

/-- A piece of a source text. -/
structure Token where
  kind : TokenKind
  /-- The characters of the token, as they were written. -/
  lexeme : String
  span : Span
  deriving DecidableEq, Repr, Inhabited

end ThreeAddress
