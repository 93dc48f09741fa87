import ThreeAddress.Text.WhiteSpace

/-!
# Surface text

People write `x²` for a power, `3x` for a product and `(a + 1)(a - 1)` for another, and often just
an expression where a program has an assignment. `normalize` makes source text of what they write,
by five changes to it, one after the other. None of them asks whether the text makes
sense; each leaves alone what it does not know.

The order counts: `²` has become `**2` before products are looked for, and so has `^2`.
-/

set_option autoImplicit false

namespace ThreeAddress

namespace Surface

/-! ### Powers -/

/-- Writes `**2` for each `²`. -/
def expandSquares (cs : List Char) : List Char :=
  cs.flatMap fun c => if c = '²' then ['*', '*', '2'] else [c]

/-- What stands right before a character, as far as a power can begin there. -/
inductive Ahead where
  /-- No name. -/
  | nothing
  /-- A name, which begins with a letter or an underscore. -/
  | name
  /-- The exponent of a power, which ends where its digits end. -/
  | exponent
  deriving DecidableEq, Repr

/-- What stands before the character after `c`. -/
def Ahead.after (c : Char) : Ahead → Ahead
  | exponent => if c.isDigit then exponent else if c.isAlpha || c = '_' then name else nothing
  | name => if c.isAlphanum || c = '_' then name else nothing
  | nothing => if c.isAlpha || c = '_' then name else nothing

/-- Writes `**` for each `^` between a name and a number, where `ahead` is what stands before. Only
a name can be raised in this way: after a number, a parenthesis or another exponent the `^` stays
the operator on bits. -/
def expandCarets : (ahead : Ahead) → List Char → List Char
  | .name, '^' :: c :: rest =>
    if c.isDigit then '*' :: '*' :: c :: expandCarets .exponent rest
    else '^' :: expandCarets .nothing (c :: rest)
  | ahead, c :: rest => c :: expandCarets (ahead.after c) rest
  | _, [] => []

/-! ### Products -/

/-- Writes `*` between a digit and a letter right after it. No number has a power of ten, so `2e5`
is a product as well. -/
def multiplyNames : List Char → List Char
  | d :: c :: rest =>
    if d.isDigit && c.isAlpha then d :: '*' :: multiplyNames (c :: rest)
    else d :: multiplyNames (c :: rest)
  | cs => cs

/-- Writes `*` between a closing parenthesis and an opening one right after it. -/
def multiplyParens : List Char → List Char
  | ')' :: '(' :: rest => ')' :: '*' :: multiplyParens ('(' :: rest)
  | c :: rest => c :: multiplyParens rest
  | [] => []

/-! ### Assignments -/

/-- Makes an assignment to `target` of a text without any `=`, leaving out the white space around
it. -/
def assignBare (target : List Char) (cs : List Char) : List Char :=
  if cs.contains '=' then cs else target ++ [' ', '=', ' '] ++ trimWhiteSpace cs

def normalize (target source : String) : String :=
  let cs := expandCarets .nothing (expandSquares source.toList)
  .ofList (assignBare target.toList (multiplyParens (multiplyNames cs)))

example : normalize "x" "x² - 6x + 9" = "x = x**2 - 6*x + 9" := by rfl

example : normalize "x" "y = (a^2 + 1)(a - 1)" = "y = (a**2 + 1)*(a - 1)" := by rfl

end Surface

end ThreeAddress
