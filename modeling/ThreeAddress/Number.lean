import ThreeAddress.Decimal.Layout

/-!
# Numbers

The constants of a program: integers of 64 bits with a sign, and doubles. What is computed with
them is in `ThreeAddress.Number.Arithmetic`.
-/

set_option autoImplicit false

namespace ThreeAddress

inductive Number where
  | int (value : Int64)
  | float (value : Float)

namespace Number

/-- Floats in code and trees are written out from `0.0001` up to sixteen digits before the point.
A decimal in the middle goes up. -/
def layout : Layout := ⟨-4, 16, false, .up⟩

/-- The text of a float, as it stands in code and trees. -/
def floatText (x : Float) : String := layout.floatText x

example : [0.0001, 0.00001, 2.5, 100, 1e15, 1e16, -0.0].map floatText
    = ["0.0001", "1e-5", "2.5", "100.0", "1000000000000000.0", "1e16", "-0.0"] := by
  decide +kernel

def intText (n : Int64) : String := Layout.wholeText n.toInt

def text : Number → String
  | int n => intText n
  | float x => floatText x

/-- The number as a float: itself, or the nearest float to an integer. -/
def toFloat : Number → Float
  | int n => Float.ofInt n.toInt
  | float x => x

/-- Whether the number is zero, of either sign. -/
def isZero : Number → Bool
  | int n => n = 0
  | float x => x == 0

/-- Whether the number is an integer or a float that is neither infinite nor `NaN`. -/
def isFinite : Number → Bool
  | int _ => true
  | float x => x.isFinite

end Number

end ThreeAddress
