import ThreeAddress.Text.WhiteSpace

/-!
# Lines of a text

A text is cut into lines behind each of the characters that Unicode has for the end of a line; a
carriage return and a line feed after it are one end together. All positions here are counted in
characters.
-/

set_option autoImplicit false

namespace ThreeAddress

def isLineBreak (c : Char) : Bool :=
  c = '\n' || c = '\r' || c = '\x0b' || c = '\x0c' || c = '\u0085' || c = '\u2028' || c = '\u2029'

structure TextLine where
  /-- The number of characters before the line. -/
  offset : Nat
  /-- The number of characters of the line, its end included. -/
  length : Nat
  /-- The characters of the line, without the white space at the end. -/
  content : List Char
  deriving DecidableEq, Repr

namespace TextLine

def stop (line : TextLine) : Nat := line.offset + line.length

def contains (line : TextLine) (position : Nat) : Bool :=
  line.offset ≤ position && position < line.stop

end TextLine

/-- Cuts a text behind each end of a line, where `current` are the characters, latest first, of the
line that has been begun. No line is begun behind the last end. -/
def cutLines : (current : List Char) → List Char → List (List Char)
  | [], [] => []
  | current, [] => [current.reverse]
  | current, '\r' :: '\n' :: rest => ('\n' :: '\r' :: current).reverse :: cutLines [] rest
  | current, c :: rest =>
    if isLineBreak c then (c :: current).reverse :: cutLines [] rest
    else cutLines (c :: current) rest

/-- Gives consecutive lines their offsets. -/
def placeLines : (offset : Nat) → List (List Char) → List TextLine
  | _, [] => []
  | offset, line :: lines =>
    ⟨offset, line.length, trimEndWhiteSpace line⟩ :: placeLines (offset + line.length) lines

def textLines (cs : List Char) : List TextLine := placeLines 0 (cutLines [] cs)

end ThreeAddress
