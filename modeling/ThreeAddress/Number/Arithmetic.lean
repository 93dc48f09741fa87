import ThreeAddress.Diagnostic
import ThreeAddress.Number

/-!
# Arithmetic

The operators on numbers. Two integers give an integer, by the exact result where it fits into 64
bits and by a fault where it does not; only `/` leaves the integers. A float on either side makes
floats of both, and a float result that is infinite or `NaN` is a fault. So every operation gives
a finite number or says why it does not.

Division by zero is looked for before anything else. `%` takes the sign of its right operand, and
`>>` rounds down, as floors do. The operators on bits are for integers alone.
-/

set_option autoImplicit false

namespace ThreeAddress

namespace Number

/-! ### Results -/

/-- The integer `n`, if it fits. -/
def exact (operator : String) (n : Int) : Except EvalFault Number :=
  if leastInt ≤ n ∧ n ≤ greatestInt then .ok (int (Int64.ofInt n))
  else .error (.integerOverflow operator)

/-- The float `x`, if it is a number of the real line. -/
def finite (operator : String) (x : Float) : Except EvalFault Number :=
  if x.isFinite then .ok (float x) else .error (.nonFiniteResult operator)

/-! ### Integers -/

/-- Raises an integer to a power that is not negative. From the sixty-fourth power on only
`0`, `1` and `-1` stay in range, and their powers are known without multiplying. -/
def intPower (base : Int) (exponent : Nat) : Except EvalFault Number :=
  if exponent < 64 then exact "**" (Int.pow base exponent)
  else if base = 0 ∨ base = 1 then exact "**" base
  else if base = -1 then exact "**" (if exponent % 2 = 0 then 1 else -1)
  else .error (.integerOverflow "**")

/-- Shifts to the left, that is, multiplies by a power of two. From a shift by 64 on only zero
stays in range. -/
def intShiftLeft (a count : Int) : Except EvalFault Number :=
  if count < 0 then .error .negativeShift
  else if a = 0 then exact "<<" 0
  else if count < 64 then exact "<<" (a <<< count.toNat)
  else .error (.integerOverflow "<<")

/-- Shifts to the right, that is, divides by a power of two and rounds down. All shifts from 63 on
leave only the sign. -/
def intShiftRight (a count : Int) : Except EvalFault Number :=
  if count < 0 then .error .negativeShift
  else exact ">>" (a >>> min count.toNat 63)

/-! ### Floats -/

/-- The rest of a division that rounds down: what is left toward zero, moved by `b` when its sign is
not that of `b`. A rest of zero is not moved, so it keeps the sign of `a`. -/
def floatModulo (a b : Float) : Float :=
  let rest := ((FloatShape.ofFloat a).rem (FloatShape.ofFloat b)).toFloat
  if rest != 0 && decide (rest < 0) != decide (b < 0) then rest + b else rest

/-- A float to the power of a float. The zeroth power of everything is one, and so is every power of
one. The other powers of zero, as far as they are finite, are zero, and only an odd one keeps its
sign. -/
def power (base exponent : Float) : Float :=
  if exponent == 0 || base == 1 then 1
  else if exponent.isNaN then exponent
  else if base == 0 && 0 < exponent then
    if (FloatShape.ofFloat exponent).isOdd then base else 0
  else base.pow exponent

/-- Raises a float to a power. Zero has no negative powers, and a negative base no powers but the
whole ones. -/
def floatPower (base exponent : Float) : Except EvalFault Number :=
  if base == 0 && exponent < 0 then .error (.divisionByZero "division")
  else if base < 0 && !(FloatShape.ofFloat exponent).isWhole then .error .complexResult
  else finite "**" (power base exponent)

/-! ### The operators -/

/-- Carries out a sign. That of a float is not looked at, as the negative of a finite float is
finite. -/
def unary (op : UnOp) (a : Number) : Except EvalFault Number :=
  match op, a with
  | .pos, a => .ok a
  | .neg, int n => exact "-" (-n.toInt)
  | .neg, float x => .ok (float (-x))

/-- Carries out `+`, `-` or `*`, given as an operation on integers and one on floats. -/
def arithmetic (op : BinOp) (onInts : Int → Int → Int) (onFloats : Float → Float → Float)
    (a b : Number) : Except EvalFault Number :=
  match a, b with
  | int m, int n => exact op.symbol (onInts m.toInt n.toInt)
  | _, _ => finite op.symbol (onFloats a.toFloat b.toFloat)

/-- Carries out an operator on bits, given as an operation on integers. -/
def onBits (op : BinOp) (onInts : Int64 → Int64 → Except EvalFault Number) (a b : Number) :
    Except EvalFault Number :=
  match a, b with
  | int m, int n => onInts m n
  | _, _ => .error (.floatBitwise op)

/-- Carries out a binary operator. A divisor of zero is refused for floats too, before there could
be an infinity. -/
def binary (op : BinOp) (a b : Number) : Except EvalFault Number :=
  match op with
  | .add => arithmetic op (· + ·) (· + ·) a b
  | .sub => arithmetic op (· - ·) (· - ·) a b
  | .mul => arithmetic op (· * ·) (· * ·) a b
  | .div =>
    if b.isZero then .error (.divisionByZero "division")
    else finite op.symbol (a.toFloat / b.toFloat)
  | .mod =>
    if b.isZero then .error (.divisionByZero "modulo")
    else
      match a, b with
      | int m, int n => exact op.symbol (m.toInt.fmod n.toInt)
      | _, _ => finite op.symbol (floatModulo a.toFloat b.toFloat)
  | .exp =>
    match a, b with
    | int m, int n =>
      -- a negative power of an integer is no integer, so both become floats
      if 0 ≤ n.toInt then intPower m.toInt n.toInt.toNat
      else floatPower a.toFloat b.toFloat
    | _, _ => floatPower a.toFloat b.toFloat
  | .bitAnd => onBits op (fun m n => .ok (int (m &&& n))) a b
  | .bitOr => onBits op (fun m n => .ok (int (m ||| n))) a b
  | .bitXor => onBits op (fun m n => .ok (int (m ^^^ n))) a b
  | .shiftLeft => onBits op (fun m n => intShiftLeft m.toInt n.toInt) a b
  | .shiftRight => onBits op (fun m n => intShiftRight m.toInt n.toInt) a b

end Number

end ThreeAddress
