import ThreeAddress.Decimal.Shortest

/-!
# Writing a float

A float is written as its shortest decimal, either with a point at its place or, when that would
take many zeros, with one digit before the point and a power of ten. Every text has a point or an
`e`, so that a float is never taken for an integer. Where the second form begins, and how its
power is written, is a `Layout`.
-/

set_option autoImplicit false

namespace ThreeAddress

/-- The decisions of a format for floats. -/
structure Layout where
  /-- The least power of ten of a leading digit that is still written with a point at its place. -/
  leastPlain : Int
  /-- The least power of ten of a leading digit above it that is not so written. -/
  endPlain : Int
  /-- Whether a positive power of ten has a sign. -/
  plusSign : Bool
  tie : Tie
  deriving DecidableEq, Repr

namespace Layout

/-- Decimal digits of a whole number, with a sign only below zero. -/
def wholeText (n : Int) : String :=
  match n with
  | .ofNat n => n.repr
  | .negSucc n => "-" ++ (n + 1).repr

def zeros (n : Nat) : String := String.ofList (List.replicate n '0')

/-- The text of a positive decimal whose last digit is no zero. A point at its place is written in
three ways, by where it falls: behind the digits, among them, or before them. -/
def decimalText (layout : Layout) (d : Decimal) : String :=
  let digits := Nat.toDigits 10 d.digits
  let leading := d.scale + digits.length - 1
  if layout.leastPlain ≤ leading && leading < layout.endPlain then
    if 0 ≤ d.scale then String.ofList digits ++ zeros d.scale.toNat ++ ".0"
    else if 0 ≤ leading then
      let whole := leading.toNat + 1
      String.ofList (digits.take whole) ++ "." ++ String.ofList (digits.drop whole)
    else "0." ++ zeros (-leading - 1).toNat ++ String.ofList digits
  else
    let fraction :=
      if digits.length ≤ 1 then "" else "." ++ String.ofList (digits.drop 1)
    let sign := if layout.plusSign && 0 ≤ leading then "+" else ""
    String.ofList (digits.take 1) ++ fraction ++ "e" ++ sign ++ wholeText leading

def floatText (layout : Layout) (x : Float) : String :=
  match FloatShape.ofFloat x with
  | .nan => "NaN"
  | .infinity negative => signText negative ++ "inf"
  | .finite negative 0 _ => signText negative ++ "0.0"
  | .finite negative m q => signText negative ++ layout.decimalText (.shortest layout.tie m q)
where
  signText (negative : Bool) : String := if negative then "-" else ""

end Layout

end ThreeAddress
