import ThreeAddress.Diagnostic
import ThreeAddress.Token.Scan

/-!
# Reading tokens

A `Parser` walks along the tokens of a text and either gives a value or fails with a diagnostic.
What it has walked past stays known in both cases: a failing parser leaves the cursor where it
stopped, and it is for `attempt` and `peek` to put it back.

Blanks are passed over wherever a token is asked for. Line ends are too while a parenthesis is
open; outside of parentheses they count, as they separate statements.

Nothing here recurses on its own: `grow` is the one loop, and its turns are bounded by the tokens
that are left, since each turn has to read one. What may be nested in what is the business of
`ThreeAddress.Grammar`.
-/

set_option autoImplicit false

namespace ThreeAddress

/-- How many parentheses, signs and powers may be nested in each other. -/
def nestingLimit : Nat := 100

/-! ### Where a parser stands -/

/-- A place between the tokens of a text. -/
structure Cursor where
  /-- The tokens that have been passed, the latest first. -/
  before : List Token
  /-- The tokens that are left. -/
  after : List Token
  deriving DecidableEq, Repr

namespace Cursor

/-- The empty range at the end of the text. It is found from the tokens alone, the last of which
ends where the text does. -/
def endSpan (cursor : Cursor) : Span :=
  match cursor.after.getLast?.or cursor.before.head? with
  | some last => .point last.span.stop
  | none => .point 0

/-- Where the next token stands, be it a blank, or the end of the text if none is left. -/
def span (cursor : Cursor) : Span :=
  match cursor.after with
  | next :: _ => next.span
  | [] => cursor.endSpan

/-- Passes the tokens in front that are `quiet`. -/
def skip (quiet : Token → Bool) (cursor : Cursor) : Cursor :=
  pass cursor.before cursor.after
where
  /-- Moves quiet tokens from the second list over to the first. -/
  pass : List Token → List Token → Cursor
    | before, [] => ⟨before, []⟩
    | before, next :: after =>
      if quiet next then pass (next :: before) after else ⟨before, next :: after⟩

def back (cursor : Cursor) : Cursor :=
  match cursor.before with
  | last :: before => ⟨before, last :: cursor.after⟩
  | [] => cursor

end Cursor

structure ParserState where
  cursor : Cursor
  /-- How deep the parser is in parentheses, signs and powers. -/
  nesting : Nat
  openParens : Nat
  deriving DecidableEq, Repr

namespace ParserState

def start (source : String) : ParserState := ⟨⟨[], Token.scan source⟩, 0, 0⟩

/-- Whether a token is passed over in this state. -/
def isQuiet (state : ParserState) (token : Token) : Bool :=
  token.kind = .whitespace || (0 < state.openParens && token.kind = .newLine)

/-- The tokens left that are not passed over in this state. -/
def upcoming (state : ParserState) : List Token :=
  state.cursor.after.filter (!state.isQuiet ·)

end ParserState

/-- A computation that reads tokens, and gives a value or a diagnostic. -/
abbrev Parser (α : Type) : Type := EStateM Diagnostic ParserState α

namespace Parser

/-! ### Single tokens -/

/-- Fails with a fault at the place where the parser stands. -/
def fail {α : Type} (fault : SyntaxFault) : Parser α := fun state =>
  .error (.form state.cursor.span fault) state

/-- Reads the next token that is not passed over. At the end of the text the cursor stays there. -/
def next : Parser Token := fun state =>
  match state.cursor.skip state.isQuiet with
  | ⟨before, token :: after⟩ => .ok token { state with cursor := ⟨token :: before, after⟩ }
  | ⟨before, []⟩ => fail .unexpectedEnd { state with cursor := ⟨before, []⟩ }

/-- The kind of the token that `next` would read, if any. -/
def upcomingKind : Parser (Option TokenKind) := fun state =>
  .ok ((state.cursor.after.find? (!state.isQuiet ·)).map (·.kind)) state

/-- Whether the tokens that `next` would read begin with these kinds. -/
def upcomingAre (kinds : List TokenKind) : Parser Bool := fun state =>
  .ok (kinds.isPrefixOf (state.upcoming.map (·.kind))) state

/-- Whether `next` would find no token. -/
def atEnd : Parser Bool := do return (← upcomingKind).isNone

/-- Reads a token and makes something of it, or fails with a fault at it. -/
def tokenAs {α : Type} (convert : Token → Except SyntaxFault α) : Parser α := do
  let token ← next
  match convert token with
  | .ok value => return value
  | .error fault => throw (.form token.span fault)

/-! ### Coming back

There are three ways to run a parser that may not fit: `attempt` comes back when it fails, `peek` in
any case, and `possibly` never. -/

/-- Runs a parser, and puts the cursor back if it fails. The counts of levels and parentheses need
no putting back, as `deeper` and `enclosed` see to them on a failure too. -/
def attempt {α : Type} (p : Parser α) : Parser α := fun state =>
  match p state with
  | .ok value after => .ok value after
  | .error fault after => .error fault { after with cursor := state.cursor }

/-- Runs a parser, and puts the cursor back in any case. -/
def peek {α : Type} (p : Parser α) : Parser α := fun state =>
  match p state with
  | .ok value after => .ok value { after with cursor := state.cursor }
  | .error fault after => .error fault { after with cursor := state.cursor }

/-- Runs a parser whose failure is no failure. The cursor stays where it stopped. So at the end of
the text the blanks that were passed stay passed. -/
def possibly {α : Type} (p : Parser α) : Parser (Option α) := fun state =>
  match p state with
  | .ok value after => .ok (some value) after
  | .error _ after => .ok none after

/-- What a parser would give here, if anything. -/
def lookahead {α : Type} (p : Parser α) : Parser (Option α) := peek (possibly p)

/-- Runs a parser, and fails with another diagnostic than its own. -/
def failingWith {α : Type} (diagnostic : Diagnostic) (p : Parser α) : Parser α := fun state =>
  match p state with
  | .ok value after => .ok value after
  | .error _ after => .error diagnostic after

/-! ### Going deeper -/

/-- Runs a parser one level deeper, unless that is a level too many. The count is put back on a
failure as well, since a parser further out may go on after it. -/
def deeper {α : Type} (p : Parser α) : Parser α := fun state =>
  if nestingLimit ≤ state.nesting then fail (.tooDeeplyNested nestingLimit) state
  else
    match p { state with nesting := state.nesting + 1 } with
    | .ok value after => .ok value { after with nesting := after.nesting - 1 }
    | .error fault after => .error fault { after with nesting := after.nesting - 1 }

/-- Runs a parser as within a pair of parentheses, where line ends do not count. -/
def enclosed {α : Type} (p : Parser α) : Parser α := fun state =>
  match p { state with openParens := state.openParens + 1 } with
  | .ok value after => .ok value { after with openParens := after.openParens - 1 }
  | .error fault after => .error fault { after with openParens := after.openParens - 1 }

/-! ### Going on

A loop is written as its turn, which takes what has been read so far and makes more of it, or gives
nothing if what follows does not belong to it. -/

/-- Takes at most `turns` turns of `turn`. -/
def growFor {σ : Type} (turn : σ → Parser (Option σ)) : (turns : Nat) → σ → Parser σ
  | 0, value => return value
  | turns + 1, value => do
    match ← turn value with
    | some larger => growFor turn turns larger
    | none => return value

/-- Lets a value grow, turn by turn, until a turn gives nothing. A turn that gives something has
read a token, so there are never more of them than tokens left, and with none left the value is
complete. -/
def grow {σ : Type} (turn : σ → Parser (Option σ)) (value : σ) : Parser σ := fun state =>
  growFor turn state.cursor.after.length value state

/-- Runs a parser that has to read all that is left. If it does not, the cursor ends up at the
first token that counts. -/
def full {α : Type} (p : Parser α) : Parser α := do
  let value ← p
  if ← atEnd then return value
  discard next
  -- `next` has passed the blanks and the token, of which only the token is given back
  modify fun state => { state with cursor := state.cursor.back }
  fail .expectedEnd

end Parser

end ThreeAddress
