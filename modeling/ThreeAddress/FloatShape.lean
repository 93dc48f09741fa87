/-!
# The shape of a float

A double taken apart into what it denotes: a sign and a natural number times a power of two, or
one of the values that are no number of this kind. Exact questions about a float (is it whole,
which decimals read back as it, what is left after division) are asked of the shape, in whole
numbers, and not of the float.
-/

set_option autoImplicit false

namespace ThreeAddress

/-- What a double denotes. -/
inductive FloatShape where
  | nan
  | infinity (negative : Bool)
  /-- The number `mantissa * 2 ^ exponent`, below zero if `negative`. Zero has a sign too. -/
  | finite (negative : Bool) (mantissa : Nat) (exponent : Int)
  deriving DecidableEq, Repr

namespace FloatShape

/-- The exponent of the smallest floats, and the least that any float has. -/
def leastExponent : Int := -1074

/-- The shape that 64 bits encode: a sign bit, eleven bits of exponent, 52 bits of fraction. The
fraction of a number that is not among the smallest stands behind a bit that is not written. -/
def ofBits (bits : Nat) : FloatShape :=
  let negative := (bits >>> 63) % 2 = 1
  let biased : Nat := (bits >>> 52) % (1 <<< 11)
  let fraction := bits % (1 <<< 52)
  -- the greatest exponent is kept for what is no number, the least for the smallest floats
  if biased = 2047 then
    if fraction = 0 then infinity negative else nan
  else if biased = 0 then finite negative fraction leastExponent
  else finite negative (1 <<< 52 + fraction) ((biased : Int) - 1075)

def ofFloat (x : Float) : FloatShape := ofBits x.toBits.toNat

/-- The bits of a shape. A mantissa below `2 ^ 53` is moved up as far as the exponent allows, so
that its leading bit is the one that is not written. -/
def toBits : FloatShape → Nat
  | nan => 2047 <<< 52 + 1 <<< 51
  | infinity negative => signBit negative + 2047 <<< 52
  | finite negative 0 _ => signBit negative
  | finite negative mantissa exponent =>
    let room := min (52 - mantissa.log2) (exponent - leastExponent).toNat
    let fraction := mantissa <<< room
    let biased := if fraction < 1 <<< 52 then 0 else (exponent - room + 1075).toNat
    signBit negative + biased <<< 52 + fraction % (1 <<< 52)
where
  signBit (negative : Bool) : Nat := if negative then 1 <<< 63 else 0

/-- The float of a shape whose mantissa is below `2 ^ 53` and whose exponent a float can have. -/
def toFloat (shape : FloatShape) : Float := Float.ofBits (UInt64.ofNat shape.toBits)

/-- Whether the shape is a whole number, that is, whether all bits behind the point are zero. -/
def isWhole : FloatShape → Bool
  | finite _ mantissa exponent => 0 ≤ exponent || mantissa % (1 <<< (-exponent).toNat) = 0
  | _ => false

/-- Whether the shape is an odd whole number. Above `2 ^ 53` no float is odd, and the exponents of
those are above zero. -/
def isOdd : FloatShape → Bool
  | finite _ mantissa exponent =>
    let below := 1 <<< (-exponent).toNat
    exponent ≤ 0 && mantissa % below = 0 && mantissa / below % 2 = 1
  | _ => false

/-- What is left of `a` when `b` is taken away from it as often as it goes, toward zero. The rest
has the sign of `a`, and is exact: it needs no more bits than `a` or `b` has. -/
def rem (a b : FloatShape) : FloatShape :=
  match a, b with
  | finite negative m p, finite _ n q =>
    if n = 0 then nan
    else
      let least := min p q
      finite negative ((m <<< (p - least).toNat) % (n <<< (q - least).toNat)) least
  | finite .., infinity _ => a
  | _, _ => nan

end FloatShape

end ThreeAddress
