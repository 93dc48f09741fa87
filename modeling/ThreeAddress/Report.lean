import ThreeAddress.Diagnostic
import ThreeAddress.Text.Lines
import ThreeAddress.Text.Width

/-!
# Reports

A diagnostic, drawn for people to read: its message, the lines of the source that it points at in a
frame with their numbers, a mark under or beside the place with the label at its end, and the
advice if there is some. Only the first place of a diagnostic is marked. A place within one line is
marked below that line, and one that goes over several by a bracket to their left.

The numbers of a place are taken for positions of characters, though spans count bytes. Up to the
first character outside ASCII the two agree.
-/

set_option autoImplicit false

namespace ThreeAddress

namespace Report

/-! ### Pieces of lines -/

def row (n : Nat) (c : Char) : String := String.ofList (List.replicate n c)

/-- How many cells the character in column `column` of a line takes. A tab goes to the next
multiple of four, any other white space takes one cell, and so does what is behind the line. -/
def columnWidth (content : List Char) (column : Nat) : Nat :=
  match content[column]? with
  | some '\t' => 4 - column % 4
  | some c => if isWhiteSpace c then 1 else charWidth c
  | none => 1

/-- The content of a line with blanks for white space. -/
def expand (content : List Char) : String :=
  String.join <| content.mapIdx fun column c =>
    if isWhiteSpace c then row (columnWidth content column) ' ' else c.toString

/-- A cell followed by as many others as fill up a width. -/
def cells (width : Nat) (first others : Char) : String :=
  if width = 0 then "" else first.toString ++ row (width - 1) others

/-! ### The marked place -/

/-- The lines of a source and the place in it that is marked. -/
structure Mark where
  lines : List TextLine
  total : Nat
  start : Nat
  stop : Nat
  label : String

namespace Mark

/-- The last position of the place, or its only one if it is empty. -/
def last (mark : Mark) : Nat := max (mark.stop - 1) mark.start

/-- The number of the line that a position is in, counted from zero. The position behind the text is
in its last line, and those after it are in none. -/
def lineOf? (mark : Mark) (position : Nat) : Option Nat :=
  if mark.total < position then none
  else some ((mark.lines.takeWhile (·.offset ≤ position)).length - 1)

def isTall (mark : Mark) : Bool := mark.lineOf? mark.start ≠ mark.lineOf? mark.last

def firstShown (mark : Mark) : Nat := (mark.lineOf? mark.start).getD 0

/-- The number of lines up to the last that is shown. -/
def shownEnd (mark : Mark) : Nat :=
  match mark.lineOf? mark.last with
  | some line => line + 1
  | none => mark.lines.length

def digits (mark : Mark) : Nat := (Nat.toDigits 10 mark.shownEnd).length

def margin (mark : Mark) : String := row (mark.digits + 2) ' '

/-- The left side of the frame on a line without a number. -/
def bar (mark : Mark) : String := mark.margin ++ "│ "

def covers (mark : Mark) (line : TextLine) (column : Nat) : Bool :=
  mark.start ≤ line.offset + column && line.offset + column < mark.stop

/-- The two lines below a line that the place is in: the place underlined, and from its middle down
and over to the label. -/
def underline (mark : Mark) (line : TextLine) : List String :=
  -- two columns more than the place has, for the end of the arrow
  let columns := List.range (mark.stop - line.offset + 2)
  -- the label hangs from the middle of the place
  let middle := (mark.start + mark.stop) / 2 - line.offset
  let marks := columns.map fun column =>
    let within := mark.covers line column
    let first :=
      if column = middle then (if within then '┬' else '│') else if within then '─' else ' '
    cells (columnWidth line.content column) first (if within then '─' else ' ')
  let arrow := columns.map fun column =>
    let first := if column = middle then '╰' else if middle < column then '─' else ' '
    cells (columnWidth line.content column) first (if middle ≤ column then '─' else ' ')
  [mark.bar ++ String.join marks, mark.bar ++ String.join arrow ++ " " ++ mark.label]

/-- The two lines below the last line of a place that goes over several: from its bracket over to
the label. -/
def closing (mark : Mark) (line : TextLine) : List String :=
  let width := (List.range (line.length + 2)).foldl (· + columnWidth line.content ·) 0
  [mark.bar ++ "│   " ++ row width ' ',
    mark.bar ++ "╰───" ++ row width '─' ++ " " ++ mark.label]

/-- What is drawn for a line of the source, given its number, and whether the line before it was
left out. A line that the mark does not need is left out, and a row of them shows as one line. -/
def drawLine (mark : Mark) (number : Nat) (line : TextLine) (afterGap : Bool) :
    List String × Bool :=
  let opens := mark.isTall && line.contains mark.start
  let closes := mark.isTall && line.contains mark.last
  let below := !mark.isTall && line.offset ≤ mark.start && mark.stop ≤ line.stop
  -- a line is needed if the place begins on it, ends on it or is within it
  if opens || closes || below then
    let numeral := Nat.repr number
    let bracket := if opens then "╭─▶ " else if closes then "├─▶ " else ""
    let text := " " ++ row (mark.digits - numeral.length) ' ' ++ numeral ++ " │ " ++ bracket
      ++ expand line.content
    let rest :=
      if below then mark.underline line else if closes && !opens then mark.closing line else []
    (text :: rest, false)
  else if afterGap then ([], true)
  else if mark.isTall && mark.start ≤ line.offset && line.offset < mark.stop then
    ([mark.margin ++ "┆ ┆   "], true)
  else ([mark.bar], true)

/-- What is drawn for consecutive lines of the source, given the number of the first. -/
def drawLines (mark : Mark) : (number : Nat) → (afterGap : Bool) → List TextLine → List String
  | _, _, [] => []
  | number, afterGap, line :: lines =>
    let (drawn, gap) := mark.drawLine number line afterGap
    drawn ++ drawLines mark (number + 1) gap lines

/-- Where the place begins, in lines and columns counted from one. -/
def position (mark : Mark) : String :=
  match mark.lineOf? mark.start with
  | none => "?:?"
  | some number =>
    let offset := (mark.lines[number]?.map (·.offset)).getD 0
    Nat.repr (number + 1) ++ ":" ++ Nat.repr (mark.start - offset + 1)

/-- The left side of the frame beside the advice. Where a place goes over several lines, its bracket
goes on here if the first line of the source is wholly inside it. -/
def helpBar (mark : Mark) : String :=
  if !mark.isTall then mark.bar
  else
    let inside := mark.lines.head?.any fun line =>
      mark.start ≤ line.stop && line.offset < mark.stop
        && !line.contains mark.start && !line.contains mark.last
    mark.bar ++ if inside then "│   " else row 4 ' '

def draw (mark : Mark) (name : String) (help : Option String) : List String :=
  let shown := (mark.lines.take mark.shownEnd).drop mark.firstShown
  let advice :=
    match help with
    | some text => [mark.helpBar, mark.helpBar ++ "Help: " ++ text]
    | none => []
  [mark.margin ++ "╭─[" ++ name ++ ":" ++ mark.position ++ "]", mark.margin ++ "│"]
    ++ mark.drawLines (mark.firstShown + 1) false shown
    ++ advice ++ [row (mark.digits + 2) '─' ++ "╯"]

end Mark

end Report

namespace Diagnostic

/-- What is drawn about a source that goes by `name`. Without a place there is only the message. -/
def draw (diagnostic : Diagnostic) (name source : String) : List String :=
  let headline := "Error: " ++ diagnostic.message
  match diagnostic.spans.head? with
  | none => [headline]
  | some span =>
    let cs := source.toList
    let mark : Report.Mark :=
      ⟨textLines cs, cs.length, span.start, span.stop, diagnostic.fault.label⟩
    headline :: mark.draw name diagnostic.fault.help

/-- The lines of the report about a source that goes by `name`. The message and the name stand in it
as they are, so a line feed in them begins another line. -/
def report (diagnostic : Diagnostic) (name source : String) : List String :=
  (diagnostic.draw name source).flatMap (·.splitOn "\n")

end Diagnostic

end ThreeAddress
