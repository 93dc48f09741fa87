import ThreeAddress.Token

/-!
# Cutting a text into tokens

`Token.scan` cuts a text into tokens, each the longest that its first characters can begin: `**=`
is one token and not `**` and `=`, `1.` is a float and not an integer and a dot. The cut loses
nothing, so the lexemes in a row are the text again, and their spans follow on from each other.

All classes of characters here are of ASCII. A character outside ASCII begins no token of a longer
kind and ends any that it meets.
-/

set_option autoImplicit false

namespace ThreeAddress

/-! ### Classes of characters -/

def isLineEnd (c : Char) : Bool := c = '\n' || c = '\r'

def isBlank (c : Char) : Bool := c = ' ' || c = '\t' || c = '\x0c'

def isNameStart (c : Char) : Bool := c.isAlpha || c = '_'

def isNameRest (c : Char) : Bool := c.isAlphanum || c = '_'

/-! ### The longest token at the head of a text -/

namespace TokenKind

/-- The tokens with a fixed spelling. A longer spelling stands before each shorter one that begins
it, so the first that fits is the longest. -/
def spellings : List (List Char × TokenKind) :=
  [(['*', '*', '='], compoundAssign), (['<', '<', '='], compoundAssign),
    (['>', '>', '='], compoundAssign),
    (['*', '*'], exp), (['<', '<'], bitLeft), (['>', '>'], bitRight),
    (['+', '='], compoundAssign), (['-', '='], compoundAssign), (['*', '='], compoundAssign),
    (['/', '='], compoundAssign), (['%', '='], compoundAssign), (['&', '='], compoundAssign),
    (['|', '='], compoundAssign), (['^', '='], compoundAssign),
    ([';'], semicolon), (['+'], add), (['-'], sub), (['*'], mul), (['/'], div), (['%'], mod),
    (['&'], bitAnd), (['|'], bitOr), (['^'], bitXor), (['='], assign),
    (['('], openParen), ([')'], closeParen)]

def digits (cs : List Char) : Nat := (cs.takeWhile Char.isDigit).length

/-- The longest token that begins with `c` and goes on in `rest`: its kind, and how many characters
of `rest` belong to it. What begins with a digit or a point is settled by what follows, and the
fixed spellings come last, as none of them begins like a token of another kind. -/
def munch (c : Char) (rest : List Char) : TokenKind × Nat :=
  if isLineEnd c then (newLine, (rest.takeWhile isLineEnd).length)
  else if isBlank c then (whitespace, (rest.takeWhile isBlank).length)
  else if isNameStart c then (name, (rest.takeWhile isNameRest).length)
  else if c.isDigit then
    match rest.dropWhile Char.isDigit with
    -- no digit has to follow: `1.` is a float
    | '.' :: fraction => (float, digits rest + 1 + digits fraction)
    | _ => (int, digits rest)
  else if c = '.' && digits rest ≠ 0 then (float, digits rest)
  else
    match spellings.find? fun spelling => spelling.1.isPrefixOf (c :: rest) with
    | some (word, kind) => (kind, word.length - 1)
    | none => (symbol, 0)

end TokenKind

/-! ### The whole text -/

namespace Token

/-- The tokens of a text whose first character has the byte offset `offset`, after `skip` characters
that belong to a token already cut. These are counted down one by one, so that the recursion is on
the characters of the text. -/
def scanFrom : (offset skip : Nat) → List Char → List Token
  | _, _, [] => []
  | offset, skip + 1, _ :: rest => scanFrom offset skip rest
  | offset, 0, c :: rest =>
    let (kind, more) := TokenKind.munch c rest
    let lexeme := String.ofList (c :: rest.take more)
    let stop := offset + lexeme.utf8ByteSize
    ⟨kind, lexeme, ⟨offset, stop⟩⟩ :: scanFrom stop more rest

/-- The tokens of a text, in order and with nothing left out. -/
def scan (source : String) : List Token := scanFrom 0 0 source.toList

end Token

end ThreeAddress
