/-!
# Sample expressions

Expressions for trying things out, drawn by chance and written the way people write them: a line, a
quadratic, a line in two variables, a product of two binomials, a sum of two fractions.

Chance is a list of words of 32 bits, followed by zeros without end. What a draw makes of the words
is part of the definition, so the same words give the same expression.
-/

set_option autoImplicit false

namespace ThreeAddress

/-- The words still to be drawn, and how many have been. -/
structure Chance where
  words : List UInt32
  used : Nat

/-- A value that depends on words drawn. -/
abbrev Draw (α : Type) : Type := StateM Chance α

namespace Draw

/-- The next word, which is zero when the list has run out. -/
def word : Draw UInt32 := fun chance =>
  (chance.words.headD 0, ⟨chance.words.tail, chance.used + 1⟩)

/-- What the word `w` makes of `n` equally likely values, `n` being below `2 ^ 32`. The word times
`n` has the value in its upper half. So that all values are as likely, words whose lower half is in
the last, incomplete part are refused. -/
def pick? (n : Nat) (w : UInt32) : Option Nat :=
  let product := w.toNat * n
  let zone := n <<< (31 - n.log2) - 1
  if product % (1 <<< 32) ≤ zone then some (product >>> 32) else none

/-- One of `n` values, counted from zero. Words that are refused are passed over, but at most as
many as there are before the zeros begin: a zero is never refused. -/
def belowWithin (n : Nat) : (refusals : Nat) → Draw Nat
  | 0 => do return (pick? n (← word)).getD 0
  | refusals + 1 => do
    match pick? n (← word) with
    | some value => return value
    | none => belowWithin n refusals

def below (n : Nat) : Draw Nat := do belowWithin n (← get).words.length

/-- Heads or tails: 64 bits, of which the second word is the upper half, below a half. -/
def coin : Draw Bool := do
  discard word
  return (← word).toNat < 1 <<< 31

end Draw

namespace Sample

open Draw

def names : List String := ["x", "y", "z", "a", "b"]

def nameAt (index : Nat) : String := names.getD index "x"

/-- A number from one to nine, as text. -/
def coefficient : Draw String := do return ((← below 9) + 1).repr

def name : Draw String := do return nameAt (← below names.length)

/-- Takes one more number below `bound` into a list of different numbers, all below it. A number
that is there already makes way for `bound` itself, which goes in front of it. With the bounds from
`n - k` up to `n - 1` in turn it draws `k` of the numbers below `n`, every choice and every order
being as likely. -/
def takeIn (chosen : List Nat) (bound : Nat) : Draw (List Nat) := do
  let drawn ← below (bound + 1)
  if chosen.contains drawn then
    let (before, rest) := chosen.span (· ≠ drawn)
    return before ++ bound :: rest
  else return chosen ++ [drawn]

def twoNames : Draw (String × String) := do
  match ← takeIn (← takeIn [] (names.length - 2)) (names.length - 1) with
  | first :: second :: _ => return (nameAt first, nameAt second)
  | _ => return ("x", "y")

/-- A line, such as `3x + 5`. -/
def line : Draw String := do
  let v ← name
  let a ← coefficient
  let b ← coefficient
  return a ++ v ++ " + " ++ b

/-- A quadratic, such as `x² + 4x + 2` or `3x^2 - 4x + 2`. -/
def quadratic : Draw String := do
  let v ← name
  let b ← coefficient
  let c ← coefficient
  if ← coin then return v ++ "² + " ++ b ++ v ++ " + " ++ c
  else return (← coefficient) ++ v ++ "^2 - " ++ b ++ v ++ " + " ++ c

/-- A line in two variables, such as `2x + 7y - 1`. -/
def plane : Draw String := do
  let (v, w) ← twoNames
  let a ← coefficient
  let b ← coefficient
  let c ← coefficient
  return a ++ v ++ " + " ++ b ++ w ++ " - " ++ c

/-- A product of two binomials, such as `(2x + 1)(3x - 4)`. -/
def product : Draw String := do
  let v ← name
  let a ← coefficient
  let b ← coefficient
  let c ← coefficient
  let d ← coefficient
  return "(" ++ a ++ v ++ " + " ++ b ++ ")(" ++ c ++ v ++ " - " ++ d ++ ")"

/-- A sum of two fractions, such as `(x + 1)/2 + (3x - 2)/5`. -/
def fractions : Draw String := do
  let v ← name
  let a ← coefficient
  let b ← coefficient
  let c ← coefficient
  let d ← coefficient
  let e ← coefficient
  let f ← coefficient
  return "(" ++ a ++ v ++ " + " ++ b ++ ")/" ++ c ++ " + (" ++ d ++ v ++ " - " ++ e ++ ")/" ++ f

def expression : Draw String := do
  match ← below 5 with
  | 0 => line
  | 1 => quadratic
  | 2 => plane
  | 3 => product
  | _ => fractions

/-- The expression that a list of words gives, and how many words it takes. -/
def ofWords (words : List UInt32) : String × Nat :=
  let (text, chance) := expression.run ⟨words, 0⟩
  (text, chance.used)

end Sample

end ThreeAddress
