import ThreeAddress.Diagnostic
import ThreeAddress.Json
import ThreeAddress.Syntax

/-!
# Programs as JSON

The tree of a program as a JSON value, and back. A choice between several forms is an object with
one field, named for the form; everything else is an object with a field for each part. Reading
takes the fields in any order, passes over those it does not know, and takes an array of the parts
in the order in which they are written as well. It refuses what lacks a part, unknown forms, numbers
where integers are asked for, integers that are out of range, and a place with more than two ends.
-/

set_option autoImplicit false

namespace ThreeAddress

/-! ### Writing -/

namespace Json

/-- A form by its name, with what belongs to it. -/
def tagged (name : String) (value : Json) : Json := obj [(name, value)]

end Json

def Span.toJson (span : Span) : Json :=
  .obj [("start", .int span.start), ("end", .int span.stop)]

def Ident.toJson (ident : Ident) : Json :=
  .obj [("name", .str ident.name), ("span", ident.span.toJson)]

/-- Something that goes by a word, at its place. -/
def Json.labelled (label : String) (span : Span) : Json :=
  obj [("kind", str label), ("span", span.toJson)]

def Literal.toJson (span : Span) : Literal → Json
  | .int n => .tagged "Integer" (.obj [("value", .int n.toInt), ("span", span.toJson)])
  | .float x => .tagged "Float" (.obj [("value", .ofFloat x), ("span", span.toJson)])
  | .name text => .tagged "Symbol" (Ident.toJson ⟨text, span⟩)

def Expr.toJson : Expr → Json
  | literal value span => .tagged "Literal" (value.toJson span)
  | paren inner span => .tagged "Paren" (.obj [("expr", inner.toJson), ("span", span.toJson)])
  | unary op opSpan operand span =>
    .tagged "Unary" (.obj [("operand", operand.toJson), ("op", .labelled op.label opSpan),
      ("span", span.toJson)])
  | binary op opSpan lhs rhs span =>
    .tagged "Binary" (.obj [("lhs", lhs.toJson), ("op", .labelled op.label opSpan),
      ("rhs", rhs.toJson), ("span", span.toJson)])

/-- A statement with all its parts. -/
def Stmt.toJson : Stmt → Json
  | assign target value span =>
    .tagged "Assign" (.obj [("target", target.toJson), ("value", value.toJson),
      ("span", span.toJson)])
  | unsupported kind span =>
    .tagged "Unsupported" (.labelled kind.label span)

/-- A program, statement by statement. -/
def programJson (stmts : List Stmt) : Json := .arr (stmts.map Stmt.toJson)

/-! ### Reading

A reader gives nothing for a value that is no tree, and does not say why. -/

/-- Reads an offset, which is a natural number. -/
def Json.offset? : Json → Option Nat
  | int (.ofNat n) => some n
  | _ => none

/-- Reads a place. It has no parts but its two ends. -/
def Span.ofJson? (value : Json) : Option Span := do
  let [start, stop] ← value.onlyParts? ["start", "end"] | none
  return ⟨← start.offset?, ← stop.offset?⟩

/-- Reads a name at its place. -/
def Ident.ofJson? (value : Json) : Option Ident := do
  let [name, span] ← value.parts? ["name", "span"] | none
  return ⟨← name.str?, ← Span.ofJson? span⟩

/-- Reads the one among `choices` that has a word for its label, with its place. -/
def Json.labelled? {α : Type} (choices : List α) (label : α → String) (value : Json) :
    Option (α × Span) := do
  let [kind, span] ← value.parts? ["kind", "span"] | none
  let word ← kind.word?
  return (← choices.find? (label · = word), ← Span.ofJson? span)

/-- Reads a literal, as the expression that it is. -/
def Literal.ofJson? (value : Json) : Option Expr := do
  match ← value.single? with
  | ("Integer", parts) =>
    let [value, span] ← parts.parts? ["value", "span"] | none
    let n ← value.intWithin? leastInt greatestInt
    return .literal (.int (Int64.ofInt n)) (← Span.ofJson? span)
  | ("Float", parts) =>
    let [value, span] ← parts.parts? ["value", "span"] | none
    return .literal (.float (← value.float?)) (← Span.ofJson? span)
  | ("Symbol", parts) =>
    let ident ← Ident.ofJson? parts
    return .literal (.name ident.name) ident.span
  | _ => none

/-- Reads an expression that goes at most `levels` levels down. They are levels of JSON, of which
every node of a tree takes two at least. -/
def Expr.ofJsonWithin? : (levels : Nat) → Json → Option Expr
  | 0, _ => none
  | levels + 1, value => do
    match ← value.single? with
    | ("Literal", parts) => Literal.ofJson? parts
    | ("Paren", parts) =>
      let [inner, span] ← parts.parts? ["expr", "span"] | none
      return .paren (← ofJsonWithin? levels inner) (← Span.ofJson? span)
    | ("Unary", parts) =>
      let [operand, op, span] ← parts.parts? ["operand", "op", "span"] | none
      let operand ← ofJsonWithin? levels operand
      let (op, opSpan) ← op.labelled? UnOp.all UnOp.label
      return .unary op opSpan operand (← Span.ofJson? span)
    | ("Binary", parts) =>
      let [lhs, op, rhs, span] ← parts.parts? ["lhs", "op", "rhs", "span"] | none
      let lhs ← ofJsonWithin? levels lhs
      let (op, opSpan) ← op.labelled? BinOp.all BinOp.label
      let rhs ← ofJsonWithin? levels rhs
      return .binary op opSpan lhs rhs (← Span.ofJson? span)
    | _ => none

/-- Reads an expression. It has no more levels than its JSON. -/
def Expr.ofJson? (value : Json) : Option Expr := ofJsonWithin? value.depth value

def Stmt.ofJson? (value : Json) : Option Stmt := do
  match ← value.single? with
  | ("Assign", parts) =>
    let [target, value, span] ← parts.parts? ["target", "value", "span"] | none
    let target ← Ident.ofJson? target
    let value ← Expr.ofJson? value
    return .assign target value (← Span.ofJson? span)
  | ("Unsupported", parts) =>
    let (kind, span) ← parts.labelled? UnsupportedKind.all UnsupportedKind.label
    return .unsupported kind span
  | _ => none

def programOfJson? (value : Json) : Option (List Stmt) := do
  (← value.arr?).mapM Stmt.ofJson?

end ThreeAddress
