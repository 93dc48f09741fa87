import ThreeAddress.Proofs.Doubles

/-!
# Numbers: what an operator can tell apart

The operators on numbers, seen from outside. Folding trades `a + 0` and `a * 1` for `a`, which is
right up to the sign of a zero, so what has to be known of an operator is

* that it gives a finite number if it gives one (`isFinite_of_binary`, `isFinite_of_unary`);
* that it leaves `a` as it was when zero is added or one is multiplied (`binary_add_zero`,
  `binary_mul_one`);
* that it cannot tell numbers apart that are `Alike` (`Alike.binary`, `Alike.unary`).

`==` on numbers is that of the program: an integer is never equal to a float, and floats compare as
floats do.
-/

set_option autoImplicit false

namespace ThreeAddress

/-- Two outcomes of one kind: the same error, or results that stand in `R` to each other. The errors
are compared as they are, and there is no third case. -/
inductive SameOutcome {ε α β : Type} (R : α → β → Prop) : Except ε α → Except ε β → Prop
  | error (e : ε) : SameOutcome R (.error e) (.error e)
  | ok {a : α} {b : β} (h : R a b) : SameOutcome R (.ok a) (.ok b)

namespace Number

instance : BEq Number where
  beq
    | int m, int n => m == n
    | float x, float y => x == y
    | _, _ => false

/-- The same integer, or floats that are equal up to the sign of zero. An integer and a float are
never alike, even if they are equal as numbers: the operators treat them differently, and so does
what is written of them. -/
inductive Alike : Number → Number → Prop
  | int (n : Int64) : Alike (int n) (int n)
  | float {x y : Float} (h : Double.Alike x y) : Alike (float x) (float y)

theorem Alike.refl : ∀ a : Number, Alike a a
  | .int n => .int n
  | .float x => .float (.refl x)

theorem Alike.symm {a b : Number} (h : Alike a b) : Alike b a := by
  cases h with
  | int n => exact .int n
  | float h => exact .float h.symm

theorem Alike.trans {a b c : Number} (h : Alike a b) (h' : Alike b c) : Alike a c := by
  cases h with
  | int n => exact h'
  | float h =>
    cases h' with
    | float h' => exact .float (h.trans h')

theorem Alike.isFinite_eq {a b : Number} (h : Alike a b) : a.isFinite = b.isFinite := by
  cases h with
  | int n => rfl
  | float h => exact h.isFinite_eq

/-- What is alike is equal, if it is finite: only `NaN` is alike to itself and not equal to it. -/
theorem Alike.beq {a b : Number} (h : Alike a b) (ha : a.isFinite) : (a == b) = true := by
  cases h with
  | int n => exact beq_self_eq_true n
  | float h => exact h.beq ha

theorem Alike.toFloat {a b : Number} (h : Alike a b) : Double.Alike a.toFloat b.toFloat := by
  cases h with
  | int n => exact .refl _
  | float h => exact h

theorem Alike.isZero_eq {a b : Number} (h : Alike a b) : a.isZero = b.isZero := by
  cases h with
  | int n => rfl
  | float h => exact h.beq_zero_eq

/-- Only a zero can be alike to another number. -/
theorem Alike.eq_of_not_zero {a b : Number} (h : Alike a b) (ha : a.isZero = false) : a = b := by
  cases h with
  | int n => rfl
  | float h => rw [h.eq_of_not_zero ha]

/-! ## Results are finite

An integer always is, and a float result that is not is a fault. The lemmas follow the definitions
from inside to outside: how a result is made, the helpers that make it, and the operators. -/

/-- If there is a result, it is finite. A fault is no result. -/
def FiniteResult (outcome : Except EvalFault Number) : Prop :=
  ∀ c, outcome = .ok c → c.isFinite

theorem finiteResult_error (fault : EvalFault) : FiniteResult (.error fault) := by
  intro c h
  cases h

theorem finiteResult_int (n : Int64) : FiniteResult (.ok (int n)) := by
  intro c h
  cases h
  rfl

theorem finiteResult_exact (operator : String) (n : Int) : FiniteResult (exact operator n) := by
  unfold exact
  split
  · exact finiteResult_int _
  · exact finiteResult_error _

theorem finiteResult_finite (operator : String) (x : Float) :
    FiniteResult (finite operator x) := by
  unfold finite
  split
  next hx => intro c h; cases h; exact hx
  next => exact finiteResult_error _

theorem finiteResult_ite {p : Prop} [Decidable p] {outcome other : Except EvalFault Number}
    (h : FiniteResult outcome) (h' : FiniteResult other) :
    FiniteResult (if p then outcome else other) := by
  split
  · exact h
  · exact h'

theorem finiteResult_intPower (base : Int) (exponent : Nat) :
    FiniteResult (intPower base exponent) :=
  finiteResult_ite (finiteResult_exact _ _) <| finiteResult_ite (finiteResult_exact _ _) <|
    finiteResult_ite (finiteResult_exact _ _) (finiteResult_error _)

theorem finiteResult_intShiftLeft (a count : Int) : FiniteResult (intShiftLeft a count) :=
  finiteResult_ite (finiteResult_error _) <| finiteResult_ite (finiteResult_exact _ _) <|
    finiteResult_ite (finiteResult_exact _ _) (finiteResult_error _)

theorem finiteResult_intShiftRight (a count : Int) : FiniteResult (intShiftRight a count) :=
  finiteResult_ite (finiteResult_error _) (finiteResult_exact _ _)

theorem finiteResult_floatPower (base exponent : Float) :
    FiniteResult (floatPower base exponent) :=
  finiteResult_ite (finiteResult_error _) <| finiteResult_ite (finiteResult_error _)
    (finiteResult_finite _ _)

theorem finiteResult_arithmetic (op : BinOp) (onInts : Int → Int → Int)
    (onFloats : Float → Float → Float) (a b : Number) :
    FiniteResult (arithmetic op onInts onFloats a b) := by
  unfold arithmetic
  split
  · exact finiteResult_exact _ _
  · exact finiteResult_finite _ _

theorem finiteResult_onBits (op : BinOp) {onInts : Int64 → Int64 → Except EvalFault Number}
    (h : ∀ m n, FiniteResult (onInts m n)) (a b : Number) :
    FiniteResult (onBits op onInts a b) := by
  unfold onBits
  split
  · exact h _ _
  · exact finiteResult_error _

/-- Nothing is asked of the operands. -/
theorem finiteResult_binary (op : BinOp) (a b : Number) : FiniteResult (binary op a b) := by
  -- operators of one family share a helper, and with it the lemma
  cases op with
  | add | sub | mul => exact finiteResult_arithmetic _ _ _ a b
  | div => exact finiteResult_ite (finiteResult_error _) (finiteResult_finite _ _)
  | mod =>
    apply finiteResult_ite (finiteResult_error _)
    split
    · exact finiteResult_exact _ _
    · exact finiteResult_finite _ _
  | exp =>
    simp only [binary]
    split
    · exact finiteResult_ite (finiteResult_intPower _ _) (finiteResult_floatPower _ _)
    · exact finiteResult_floatPower _ _
  | bitAnd | bitOr | bitXor => exact finiteResult_onBits _ (fun _ _ => finiteResult_int _) a b
  | shiftLeft => exact finiteResult_onBits _ (fun _ _ => finiteResult_intShiftLeft _ _) a b
  | shiftRight => exact finiteResult_onBits _ (fun _ _ => finiteResult_intShiftRight _ _) a b

theorem isFinite_of_binary {op : BinOp} {a b c : Number} (h : binary op a b = .ok c) :
    c.isFinite :=
  finiteResult_binary op a b c h

/-- A sign makes nothing infinite. -/
theorem isFinite_of_unary {op : UnOp} {a c : Number} (h : unary op a = .ok c)
    (ha : a.isFinite) : c.isFinite := by
  cases op with
  | pos => cases h; exact ha
  | neg =>
    cases a with
    | int n => exact finiteResult_exact _ _ c h
    | float x =>
      cases h
      exact (Double.isFinite_neg x).trans ha

/-! ## Zero added, one multiplied

What folding drops. Integers come out of the bounds check as they went in; for floats these are the
two facts on rounding. -/

/-- An integer that a number holds fits. -/
theorem exact_toInt (operator : String) (n : Int64) : exact operator n.toInt = .ok (int n) := by
  have hfits : leastInt ≤ n.toInt ∧ n.toInt ≤ greatestInt := ⟨n.minValue_le_toInt, n.toInt_le⟩
  rw [exact, if_pos hfits, Int64.ofInt_toInt]

/-- Adding zero gives the number, or the other zero if it is one. -/
theorem binary_add_zero {a : Number} (ha : a.isFinite) :
    ∃ c, binary .add a (int 0) = .ok c ∧ Alike c a := by
  cases a with
  | int n =>
    refine ⟨int n, ?_, .int n⟩
    show exact "+" (n.toInt + (0 : Int64).toInt) = _
    rw [show (0 : Int64).toInt = 0 from rfl, Int.add_zero]
    exact exact_toInt "+" n
  | float x =>
    have halike := Double.add_zero_alike ha
    have hfinite : (x + 0).isFinite = true := halike.isFinite_eq.trans ha
    exact ⟨float (x + 0), if_pos hfinite, .float halike⟩

/-- Multiplying by one gives the number itself, and even a zero keeps its sign. -/
theorem binary_mul_one {a : Number} (ha : a.isFinite) : binary .mul a (int 1) = .ok a := by
  cases a with
  | int n =>
    show exact "*" (n.toInt * (1 : Int64).toInt) = _
    rw [show (1 : Int64).toInt = 1 from rfl, Int.mul_one]
    exact exact_toInt "*" n
  | float x =>
    show finite "*" (x * 1) = _
    rw [Double.mul_one ha]
    exact if_pos ha

/-! ## Operators do not tell apart what is alike

Alike integers are the same. So all there is to show is about operators that have a float on one
side or on both, and so compute with floats. -/

theorem sameOutcome_refl (outcome : Except EvalFault Number) :
    SameOutcome Alike outcome outcome := by
  cases outcome with
  | error fault => exact .error fault
  | ok c => exact .ok (.refl c)

theorem Alike.unary (op : UnOp) {a b : Number} (h : Alike a b) :
    SameOutcome Alike (unary op a) (unary op b) := by
  cases h with
  | int n => exact sameOutcome_refl _
  | float h =>
    cases op with
    | pos => exact .ok (.float h)
    | neg => exact .ok (.float h.neg)

/-- Both results are finite or neither is, so the check comes out alike. -/
theorem Alike.finite (operator : String) {x y : Float} (h : Double.Alike x y) :
    SameOutcome Alike (finite operator x) (finite operator y) := by
  unfold Number.finite
  rw [h.isFinite_eq]
  split
  · exact .ok (.float h)
  · exact .error _

theorem Alike.floatPower {x x' y y' : Float} (hx : Double.Alike x x') (hy : Double.Alike y y') :
    SameOutcome Alike (floatPower x y) (floatPower x' y') := by
  unfold Number.floatPower
  rw [← hx.beq_zero_eq, ← hy.lt_zero_eq, ← hx.lt_zero_eq, ← hy.isWhole_eq]
  split
  · exact .error _
  next hzero =>
    split
    · exact .error _
    · exact Alike.finite "**" (hx.power hy hzero)

/-- What a binary operator comes to if a side of it is a float. Two integers are left out, and with
them all that would depend on being exact. -/
def inexact (op : BinOp) (a b : Number) : Except EvalFault Number :=
  match op with
  | .add => finite "+" (a.toFloat + b.toFloat)
  | .sub => finite "-" (a.toFloat - b.toFloat)
  | .mul => finite "*" (a.toFloat * b.toFloat)
  | .div => binary .div a b
  | .mod =>
    if b.isZero then .error (.divisionByZero "modulo")
    else finite "%" (floatModulo a.toFloat b.toFloat)
  | .exp => floatPower a.toFloat b.toFloat
  | op => .error (.floatBitwise op)

theorem binary_float_left (op : BinOp) (x : Float) (b : Number) :
    binary op (float x) b = inexact op (float x) b := by
  cases op <;> rfl

theorem binary_float_right (op : BinOp) (a : Number) (y : Float) :
    binary op a (float y) = inexact op a (float y) := by
  cases a <;> cases op <;> rfl

/-- A division and a rest refuse every zero, so the divisors that come through are the same. -/
theorem Alike.inexact (op : BinOp) {a a' b b' : Number} (ha : Alike a a') (hb : Alike b b') :
    SameOutcome Alike (inexact op a b) (inexact op a' b') := by
  cases op with
  | add => exact Alike.finite "+" (ha.toFloat.add hb.toFloat)
  | sub => exact Alike.finite "-" (ha.toFloat.sub hb.toFloat)
  | mul => exact Alike.finite "*" (ha.toFloat.mul hb.toFloat)
  | exp => exact Alike.floatPower ha.toFloat hb.toFloat
  | div =>
    simp only [Number.inexact, Number.binary]
    rw [← hb.isZero_eq]
    split
    · exact .error _
    next hzero =>
      obtain rfl := hb.eq_of_not_zero (by simpa using hzero)
      exact Alike.finite "/" (ha.toFloat.div b.toFloat)
  | mod =>
    simp only [Number.inexact]
    rw [← hb.isZero_eq]
    split
    · exact .error _
    next hzero =>
      obtain rfl := hb.eq_of_not_zero (by simpa using hzero)
      exact Alike.finite "%" (ha.toFloat.floatModulo b.toFloat)
  | _ => exact .error _

/-- With two integers there is nothing to show; in all other cases an operator is computed on
floats. -/
theorem Alike.binary (op : BinOp) {a a' b b' : Number} (ha : Alike a a') (hb : Alike b b') :
    SameOutcome Alike (binary op a b) (binary op a' b') := by
  cases ha with
  | float hx =>
    rw [binary_float_left, binary_float_left]
    exact Alike.inexact op (.float hx) hb
  | int m =>
    cases hb with
    | int n => exact sameOutcome_refl _
    | float hy =>
      rw [binary_float_right, binary_float_right]
      exact Alike.inexact op (.int m) (.float hy)

end Number

end ThreeAddress
