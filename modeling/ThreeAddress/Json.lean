import ThreeAddress.Decimal.Layout

/-!
# JSON

A value of the data format, and its two texts: `compact`, with no white space at all, and `pretty`,
with one item to a line and two blanks for each level. The fields of an object keep their order.
Integers and floats are told apart, as their texts are.
-/

set_option autoImplicit false

namespace ThreeAddress

inductive Json where
  | null
  | bool (value : Bool)
  | int (value : Int)
  | float (value : Float)
  | str (text : String)
  | arr (items : List Json)
  | obj (fields : List (String × Json))

namespace Json

/-! ### Depth

The depth of a value bounds how deep a reader of it has to go. -/

mutual

/-- The number of levels of a value, one for a scalar. -/
def depth : Json → Nat
  | arr items => itemsDepth items + 1
  | obj fields => fieldsDepth fields + 1
  | _ => 1

def itemsDepth : List Json → Nat
  | [] => 0
  | item :: items => max item.depth (itemsDepth items)

def fieldDepth : String × Json → Nat
  | (_, value) => value.depth

def fieldsDepth : List (String × Json) → Nat
  | [] => 0
  | field :: fields => max (fieldDepth field) (fieldsDepth fields)

end

/-! ### Scalars -/

/-- Floats in JSON are written out from `0.00001` up to sixteen digits before the point, and powers
of ten have a sign. A decimal in the middle goes to the even neighbour. -/
def layout : Layout := ⟨-5, 16, true, .even⟩

/-- The text of a float. There is none for an infinity or `NaN`, which become `null`. -/
def floatText (x : Float) : String := if x.isFinite then layout.floatText x else "null"

example : [0.00001, 0.000001, 2.5, 1e15, 1e16, 1.0 / 0.0].map floatText
    = ["0.00001", "1e-6", "2.5", "1000000000000000.0", "1e+16", "null"] := by
  decide +kernel

/-- The value of a float, which for an infinity or `NaN` is `null`. -/
def ofFloat (x : Float) : Json := if x.isFinite then float x else null

def hexDigit (n : Nat) : Char := Nat.digitChar (n % 16)

/-- A character within a string. Only quotes, backslashes and the control characters of ASCII are
not written as themselves. -/
def escape (c : Char) : List Char :=
  if c = '"' then ['\\', '"']
  else if c = '\\' then ['\\', '\\']
  else if c = '\x08' then ['\\', 'b']
  else if c = '\t' then ['\\', 't']
  else if c = '\n' then ['\\', 'n']
  else if c = '\x0c' then ['\\', 'f']
  else if c = '\r' then ['\\', 'r']
  else if c.toNat < 0x20 then ['\\', 'u', '0', '0', hexDigit (c.toNat / 16), hexDigit c.toNat]
  else [c]

def quote (text : String) : String := "\"" ++ String.ofList (text.toList.flatMap escape) ++ "\""

/-! ### Texts -/

mutual

/-- The text of a value without white space. -/
def compact : Json → String
  | null => "null"
  | bool true => "true"
  | bool false => "false"
  | int n => Layout.wholeText n
  | float x => floatText x
  | str text => quote text
  | arr items => "[" ++ ",".intercalate (compactItems items) ++ "]"
  | obj fields => "\x7b" ++ ",".intercalate (compactFields fields) ++ "\x7d"

def compactItems : List Json → List String
  | [] => []
  | item :: items => item.compact :: compactItems items

def compactField : String × Json → String
  | (name, value) => quote name ++ ":" ++ value.compact

def compactFields : List (String × Json) → List String
  | [] => []
  | field :: fields => compactField field :: compactFields fields

end

/-- A line end and the blanks of a level. -/
def newLine (level : Nat) : String := "\n" ++ String.ofList (List.replicate (2 * level) ' ')

/-- Items between brackets, each on a line of its own. No items leave the brackets together. -/
def block (level : Nat) (opening closing : String) (items : List String) : String :=
  if items.isEmpty then opening ++ closing
  else
    opening ++ newLine (level + 1) ++ ("," ++ newLine (level + 1)).intercalate items
      ++ newLine level ++ closing

mutual

/-- The text of a value with one item to a line, within a number of levels. -/
def prettyAt (level : Nat) : Json → String
  | arr items => block level "[" "]" (prettyItems (level + 1) items)
  | obj fields => block level "\x7b" "\x7d" (prettyFields (level + 1) fields)
  | null => "null"
  | bool true => "true"
  | bool false => "false"
  | int n => Layout.wholeText n
  | float x => floatText x
  | str text => quote text

def prettyItems (level : Nat) : List Json → List String
  | [] => []
  | item :: items => item.prettyAt level :: prettyItems level items

def prettyField (level : Nat) : String × Json → String
  | (name, value) => quote name ++ ": " ++ value.prettyAt level

def prettyFields (level : Nat) : List (String × Json) → List String
  | [] => []
  | field :: fields => prettyField level field :: prettyFields level fields

end

def pretty (value : Json) : String := value.prettyAt 0

/-! ### Access -/

/-- The first field of an object that has this name. -/
def field? (name : String) : Json → Option Json
  | obj fields => fields.lookup name
  | _ => none

/-- The name and the value of an object with a single field. -/
def single? : Json → Option (String × Json)
  | obj [field] => some field
  | _ => none

/-- The parts of a value that go by these names: the fields of an object that has them, and maybe
others, or the items of an array that has as many, in the order of the names. -/
def parts? (names : List String) : Json → Option (List Json)
  | arr items => if items.length = names.length then some items else none
  | value => names.mapM (value.field? ·)

/-- The parts of a value that has none but these. -/
def onlyParts? (names : List String) : Json → Option (List Json)
  | obj fields => if fields.length = names.length then (obj fields).parts? names else none
  | value => value.parts? names

/-- A word that stands for itself: a string, or the name of a single field that holds nothing. -/
def word? : Json → Option String
  | str word => some word
  | obj [(word, null)] => some word
  | _ => none

def str? : Json → Option String
  | str text => some text
  | _ => none

def arr? : Json → Option (List Json)
  | arr items => some items
  | _ => none

/-- An integer from `least` to `greatest`. -/
def intWithin? (least greatest : Int) : Json → Option Int
  | int n => if least ≤ n ∧ n ≤ greatest then some n else none
  | _ => none

/-- A number as a float. An integer will do. -/
def float? : Json → Option Float
  | float x => some x
  | int n => some (Float.ofInt n)
  | _ => none

end Json

end ThreeAddress
