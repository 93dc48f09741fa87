import Mathlib
import ThreeAddress.Number.Arithmetic

/-!
# Doubles: zeros, and what leaves a double alone

Arithmetic on doubles is computed by taking them apart, computing on the parts, and putting the
result together. Here is the little of its theory that folding rests on:

* a float taken apart and put together is itself (`packed_unpacked`);
* for a finite `x`, `x + 0` is `x` or another zero (`add_zero_alike`), `x * 1` is `x` (`mul_one`),
  and `-x` is finite (`isFinite_neg`);
* an operation does not tell two zeros apart, except by the sign of a zero that it gives
  (`Alike.add` and those after it).

`Alike` is equality up to the sign of zero. On floats that are numbers it is what `==` decides, but
it also holds of `NaN` and itself, so it is an equivalence.
-/

set_option autoImplicit false

namespace ThreeAddress
namespace Double

open Float.Model Float.Model.UnpackedFloat

/-! ## Taking apart and putting together

The 64 bits of a float are three fields: sign, exponent and mantissa. Taking a float apart reads
them, with the leading bit of the mantissa put in where it is not written; putting parts together
rounds them and leaves that bit out again. For parts that come from a float there is nothing to
round. -/

/-- The parts of a float. -/
def unpacked (x : Float) : UnpackedFloat := x.toModel.unpack

/-- The float of these parts. -/
def packed (u : UnpackedFloat) : Float := .ofModel (.pack u)

/-- The 64 bits are the three fields, one after the other. -/
theorem packComponents_fields (b : BitVec Format.binary64.numBits) :
    packComponents .binary64 (Sign.ofBitVec (unpackSign b)) (unpackExponent b) (unpackMantissa b)
      = b := by
  have hsign : (Sign.ofBitVec (unpackSign b)).toBitVec = unpackSign b := by
    generalize unpackSign b = v
    revert v
    decide
  rw [packComponents, hsign]
  apply BitVec.eq_of_getLsbD_eq
  intro i hi
  replace hi : i < 64 := hi
  simp only [unpackSign, unpackExponent, unpackMantissa, BitVec.getLsbD_append]
  by_cases hmantissa : i < 52
  · simp [hmantissa]
  · by_cases hexponent : i < 63
    · have : i - 52 < 11 := by omega
      simp [hmantissa, this]
      grind
    · obtain rfl : i = 63 := by omega
      simp
      exact BitVec.getLsbD_eq_getElem hi

/-- The mantissa with its leading bit, which is not among the 52 that are stored. -/
theorem toNat_implicit (m : BitVec 52) : (1#1 ++ m).toNat = 2 ^ 52 + m.toNat := by
  rw [BitVec.toNat_append, ← Nat.shiftLeft_add_eq_or_of_lt m.isLt]
  simp

theorem log2_implicit (m : BitVec 52) : (2 ^ 52 + m.toNat).log2 = 52 := by
  have hm := m.isLt
  exact (Nat.log2_eq_iff (by omega)).mpr ⟨by omega, by omega⟩

theorem log2_subnormal {m : BitVec 52} (h : m ≠ 0) : m.toNat.log2 < 52 :=
  (Nat.log2_lt (by simpa [← BitVec.toNat_inj] using h)).mpr m.isLt

/-- Valid bits come back. The cases are those of taking apart: the two kinds of value with the
greatest exponent, the two with the least, and the rest. -/
theorem pack_unpack (b : BitVec Format.binary64.numBits) (valid : Format.binary64.Valid b) :
    UnpackedFloat.pack .binary64 (UnpackedFloat.unpack .binary64 b) = b := by
  have hfields := packComponents_fields b
  have hmantissa : (unpackMantissa b).toNat < 2 ^ 52 := (unpackMantissa b).isLt
  have hexponent : (unpackExponent b).toNat < 2 ^ 11 := (unpackExponent b).isLt
  have hbias : Format.binary64.exponentBias = 1023 := rfl
  -- `split` follows the definition: first the greatest exponent, then the least
  rw [UnpackedFloat.unpack]
  split
  next htop =>
    split
    next hzero => rw [htop, hzero] at hfields; exact hfields
    next hnan => exact (valid.eq_packedNaN htop hnan).symm
  next htop =>
    split
    next hbottom =>
      split
      next hzero => rw [hbottom, hzero] at hfields; exact hfields
      next hsubnormal =>
        have hlog := log2_subnormal hsubnormal
        rw [UnpackedFloat.pack, hbottom]
        rw [if_neg (by rw [hbias]; decide), if_neg (by simp [Format.mantissaBits]; omega)]
        rw [hbottom] at hfields
        simpa using hfields
    next hbottom =>
      have hbelow : (unpackExponent b).toNat + 1 < 2 ^ 11 := by
        have : (unpackExponent b).toNat ≠ 2 ^ 11 - 1 := fun h =>
          htop (by rw [← BitVec.toNat_inj, h]; rfl)
        omega
      have hbiased : (((unpackExponent b).toNat : Int)
          - (↑Format.binary64.exponentBias + (52 : Nat)) + ↑Format.binary64.exponentBias
            + (52 : Nat)).toNat = (unpackExponent b).toNat := by omega
      rw [UnpackedFloat.pack, toNat_implicit, log2_implicit]
      dsimp only
      rw [hbiased, if_neg (by omega), if_pos (by rfl)]
      refine Eq.trans ?_ hfields
      congr 1
      · simp
      · rw [← BitVec.toNat_inj]
        simp
        omega

/-- A float is determined by its parts. All that is proved by computing on parts comes back to
floats by this. -/
@[simp] theorem packed_unpacked (x : Float) : packed (unpacked x) = x := by
  obtain ⟨⟨bits, valid⟩⟩ := x
  simp only [packed, unpacked, Float.Model.pack, Float.Model.unpack]
  congr
  exact pack_unpack bits.toBitVec valid

@[simp] theorem unpacked_packed_zero (s : Sign) : unpacked (packed (.zero s)) = .zero s := by
  cases s <;> rfl

/-! ## Zeros

There are two zeros, which `==` takes for the same and a division does not. Folding may turn one
into the other, so everything that it relies on is stated up to that. -/

theorem unpacked_zero : unpacked 0 = .zero .positive := rfl

/-- Equality with zero is decided on the parts, where both zeros are alike and nothing else is. -/
theorem beq_zero_iff {x : Float} : (x == 0) = true ↔ ∃ s, unpacked x = .zero s := by
  show (unpacked x).beq (.zero .positive) = true ↔ _
  cases unpacked x with
  | zero s => simp [UnpackedFloat.beq, UnpackedFloat.compare]
  | notANumber => simp [UnpackedFloat.beq, UnpackedFloat.compare]
  | infinity s => cases s <;> simp [UnpackedFloat.beq, UnpackedFloat.compare]
  | finite s m e h => cases s <;> simp [UnpackedFloat.beq, UnpackedFloat.compare]

/-- There are two zeros. -/
theorem eq_of_beq_zero {x : Float} (h : (x == 0) = true) : ∃ s, x = packed (.zero s) := by
  obtain ⟨s, hs⟩ := beq_zero_iff.mp h
  exact ⟨s, by rw [← hs, packed_unpacked]⟩

@[simp] theorem packed_zero_beq_zero (s : Sign) : (packed (.zero s) == 0) = true :=
  beq_zero_iff.mpr ⟨s, unpacked_packed_zero s⟩

/-- Equal, or zero both. Apart from `NaN` it could be defined as `==`; as an inductive type it gives
the two cases that a proof needs. -/
inductive Alike : Float → Float → Prop
  | refl (x : Float) : Alike x x
  | zeros (s t : Sign) : Alike (packed (.zero s)) (packed (.zero t))

theorem Alike.of_beq_zero {x y : Float} (hx : (x == 0) = true) (hy : (y == 0) = true) :
    Alike x y := by
  obtain ⟨s, rfl⟩ := eq_of_beq_zero hx
  obtain ⟨t, rfl⟩ := eq_of_beq_zero hy
  exact .zeros s t

theorem Alike.symm {x y : Float} (h : Alike x y) : Alike y x := by
  cases h with
  | refl => exact .refl _
  | zeros s t => exact .zeros t s

theorem Alike.trans {x y z : Float} (h : Alike x y) (h' : Alike y z) : Alike x z := by
  cases h with
  | refl => exact h'
  | zeros s t =>
    -- `z` is alike to a zero, and only a zero is
    have hz : (z == 0) = true := by
      generalize hy : packed (.zero t) = y at h'
      cases h' with
      | refl => exact hy ▸ packed_zero_beq_zero t
      | zeros _ u => exact packed_zero_beq_zero u
    exact .of_beq_zero (packed_zero_beq_zero s) hz

theorem Alike.isFinite_eq {x y : Float} (h : Alike x y) : x.isFinite = y.isFinite := by
  cases h with
  | refl => rfl
  | zeros s t => cases s <;> cases t <;> rfl

theorem Alike.beq_zero_eq {x y : Float} (h : Alike x y) : (x == 0) = (y == 0) := by
  cases h with
  | refl => rfl
  | zeros s t => simp

theorem Alike.eq_of_not_zero {x y : Float} (h : Alike x y) (hx : (x == 0) = false) : x = y := by
  cases h with
  | refl => rfl
  | zeros s t => simp at hx

/-- A finite float is a zero, or has a sign, a mantissa and an exponent. -/
theorem isFinite_cases {x : Float} (hx : x.isFinite) :
    (∃ s, unpacked x = .zero s) ∨ ∃ s m e hm, unpacked x = .finite s m e hm := by
  replace hx : (unpacked x).isFinite = true := hx
  cases hu : unpacked x with
  | notANumber | infinity => rw [hu] at hx; exact absurd hx (by simp [UnpackedFloat.isFinite])
  | zero s => exact .inl ⟨s, rfl⟩
  | finite s m e hm => exact .inr ⟨s, m, e, hm, rfl⟩

/-- Of finite floats, `==` says no less than `Alike`. -/
theorem Alike.beq {x y : Float} (h : Alike x y) (hx : x.isFinite) : (x == y) = true := by
  cases h with
  | zeros s t => cases s <;> cases t <;> rfl
  | refl =>
    show (unpacked x).beq (unpacked x) = true
    rcases isFinite_cases hx with ⟨s, hu⟩ | ⟨s, m, e, hm, hu⟩
    · simp [hu, UnpackedFloat.beq, UnpackedFloat.compare]
    · cases s <;> simp [hu, UnpackedFloat.beq, UnpackedFloat.compare]

/-! ## Operations that do not tell zeros apart

`+`, `-`, `*` and `/` are computed on the parts. What is to be known of such an operation is what it
does to a zero on either side: the sign of the zero has no part in the result, or the result is a
zero too. -/

/-- A float computed from the parts of two. -/
def computed (op : UnpackedFloat → UnpackedFloat → UnpackedFloat) (x y : Float) : Float :=
  packed (op (unpacked x) (unpacked y))

/-- A zero on the left counts as a zero, whatever its sign. -/
def BlindLeft (op : UnpackedFloat → UnpackedFloat → UnpackedFloat) : Prop :=
  ∀ s t v, Alike (packed (op (.zero s) v)) (packed (op (.zero t) v))

@[inherit_doc BlindLeft]
def BlindRight (op : UnpackedFloat → UnpackedFloat → UnpackedFloat) : Prop :=
  ∀ u s t, Alike (packed (op u (.zero s))) (packed (op u (.zero t)))

section

variable {op : UnpackedFloat → UnpackedFloat → UnpackedFloat} {x x' y y' : Float}

theorem BlindLeft.alike (h : BlindLeft op) (hx : Alike x x') :
    Alike (computed op x y) (computed op x' y) := by
  cases hx with
  | refl => exact .refl _
  | zeros s t => simpa [computed] using h s t (unpacked y)

theorem BlindRight.alike (h : BlindRight op) (hy : Alike y y') :
    Alike (computed op x y) (computed op x y') := by
  cases hy with
  | refl => exact .refl _
  | zeros s t => simpa [computed] using h (unpacked x) s t

theorem Alike.computed (h : BlindLeft op ∧ BlindRight op) (hx : Alike x x') (hy : Alike y y') :
    Alike (computed op x y) (computed op x' y') :=
  (h.1.alike hx).trans (h.2.alike hy)

end

/-! One lemma for each operation, by cases on the side that is not the zero. A sum and a difference
of two zeros are zeros, and so is a product with anything finite; with anything else the sign of the
zero does not come into the result, as it is rounded or infinite or `NaN`. -/

theorem blind_add : BlindLeft (.add .binary64) ∧ BlindRight (.add .binary64) := by
  constructor
  · intro s t v
    cases v with
    | zero u => simp only [UnpackedFloat.add]; split <;> split <;> exact .zeros _ _
    | _ => exact .refl _
  · intro u s t
    cases u with
    | zero v => simp only [UnpackedFloat.add]; split <;> split <;> exact .zeros _ _
    | _ => exact .refl _

theorem blind_sub : BlindLeft (.sub .binary64) ∧ BlindRight (.sub .binary64) := by
  constructor
  · intro s t v
    cases v with
    | zero u => simp only [UnpackedFloat.sub]; split <;> split <;> exact .zeros _ _
    | _ => exact .refl _
  · intro u s t
    cases u with
    | zero v => simp only [UnpackedFloat.sub]; split <;> split <;> exact .zeros _ _
    | _ => exact .refl _

theorem blind_mul : BlindLeft (.mul .binary64) ∧ BlindRight (.mul .binary64) := by
  constructor
  · intro s t v
    cases v with
    | zero | finite => exact .zeros _ _
    | _ => exact .refl _
  · intro u s t
    cases u with
    | zero | finite => exact .zeros _ _
    | _ => exact .refl _

-- what is divided by a zero is infinite, by the sign of that zero
theorem blindLeft_div : BlindLeft (.div .binary64) := by
  intro s t v
  cases v with
  | infinity | finite => exact .zeros _ _
  | _ => exact .refl _

theorem Alike.add {x x' y y' : Float} (hx : Alike x x') (hy : Alike y y') :
    Alike (x + y) (x' + y') :=
  .computed blind_add hx hy

theorem Alike.sub {x x' y y' : Float} (hx : Alike x x') (hy : Alike y y') :
    Alike (x - y) (x' - y') :=
  .computed blind_sub hx hy

theorem Alike.mul {x x' y y' : Float} (hx : Alike x x') (hy : Alike y y') :
    Alike (x * y) (x' * y') :=
  .computed blind_mul hx hy

theorem Alike.div {x x' : Float} (y : Float) (hx : Alike x x') : Alike (x / y) (x' / y) :=
  blindLeft_div.alike hx

theorem Alike.neg {x y : Float} (h : Alike x y) : Alike (-x) (-y) := by
  cases h with
  | refl => exact .refl _
  | zeros s t =>
    show Alike (packed (unpacked (packed (.zero s))).neg) (packed (unpacked (packed (.zero t))).neg)
    simpa [UnpackedFloat.neg] using .zeros (-s) (-t)

/-! ### The rest of a division, and powers

These are computed from the shape of a float, or by cases on what is a zero. -/

theorem ofFloat_packed_zero (s : Sign) :
    FloatShape.ofFloat (packed (.zero s))
      = .finite (s == .negative) 0 FloatShape.leastExponent := by
  cases s <;> decide

theorem toFloat_finite_zero (negative : Bool) (e : Int) :
    ((FloatShape.finite negative 0 e).toFloat == 0) = true := by
  simp only [FloatShape.toFloat, FloatShape.toBits]
  cases negative <;> rfl

/-- What is left of a zero is a zero, or does not hang on its sign. -/
theorem rem_packed_zero_alike (s t : Sign) (b : FloatShape) :
    Alike ((FloatShape.ofFloat (packed (.zero s))).rem b).toFloat
      ((FloatShape.ofFloat (packed (.zero t))).rem b).toFloat := by
  rw [ofFloat_packed_zero, ofFloat_packed_zero]
  cases b with
  | nan => exact .refl _
  | infinity => exact .of_beq_zero (toFloat_finite_zero _ _) (toFloat_finite_zero _ _)
  | finite negative n q =>
    simp only [FloatShape.rem, Nat.zero_shiftLeft, Nat.zero_mod]
    split
    · exact .refl _
    · exact .of_beq_zero (toFloat_finite_zero _ _) (toFloat_finite_zero _ _)

/-- The rest may be a zero of either sign. It is moved to the sign of the divisor only if it is
none. -/
theorem Alike.floatModulo {x x' : Float} (b : Float) (hx : Alike x x') :
    Alike (Number.floatModulo x b) (Number.floatModulo x' b) := by
  cases hx with
  | refl => exact .refl _
  | zeros s t =>
    have hrest := rem_packed_zero_alike s t (FloatShape.ofFloat b)
    unfold Number.floatModulo
    generalize ((FloatShape.ofFloat (packed (.zero s))).rem _).toFloat = r at *
    generalize ((FloatShape.ofFloat (packed (.zero t))).rem _).toFloat = r' at *
    cases hrest with
    | refl => exact .refl _
    | zeros => simpa [bne] using .zeros _ _

theorem lt_iff {x y : Float} : x < y ↔ (unpacked x).lt (unpacked y) = true := decide_eq_true_iff

theorem packed_zero_lt_zero (s : Sign) : ¬ packed (.zero s) < 0 := by
  cases s <;> decide

theorem Alike.lt_zero_eq {x y : Float} (h : Alike x y) : decide (x < 0) = decide (y < 0) := by
  cases h with
  | refl => rfl
  | zeros s t => simp [packed_zero_lt_zero]

theorem Alike.isWhole_eq {x y : Float} (h : Alike x y) :
    (FloatShape.ofFloat x).isWhole = (FloatShape.ofFloat y).isWhole := by
  cases h with
  | refl => rfl
  | zeros s t => simp [ofFloat_packed_zero, FloatShape.isWhole]

theorem packed_zero_beq_one (s : Sign) : (packed (.zero s) == 1) = false := by
  cases s <;> rfl

/-- A float that is a number and no zero has a sign that comparing with zero finds. -/
theorem lt_zero_or_zero_lt {y : Float} (hnan : y.isNaN = false) (hzero : (y == 0) = false) :
    y < 0 ∨ 0 < y := by
  rw [lt_iff, lt_iff, unpacked_zero]
  replace hnan : (unpacked y).isNaN = false := hnan
  have hzero : ∀ s, unpacked y ≠ .zero s := fun s hs => by
    rw [beq_zero_iff.mpr ⟨s, hs⟩] at hzero
    exact absurd hzero (by decide)
  cases hu : unpacked y with
  | notANumber => rw [hu] at hnan; exact absurd hnan (by simp [UnpackedFloat.isNaN])
  | zero s => exact absurd hu (hzero s)
  | infinity s => cases s <;> simp [UnpackedFloat.lt, UnpackedFloat.compare]
  | finite s m e h => cases s <;> simp [UnpackedFloat.lt, UnpackedFloat.compare]

/-- Powers of the two zeros, but for the negative ones, which are infinite. The exponents are gone
through as the definition does: zero, `NaN`, and what is positive. -/
theorem power_packed_zero_alike (s t : Sign) {y : Float} (hneg : ¬ y < 0) :
    Alike (Number.power (packed (.zero s)) y) (Number.power (packed (.zero t)) y) := by
  unfold Number.power
  rw [packed_zero_beq_one, packed_zero_beq_one, packed_zero_beq_zero, packed_zero_beq_zero]
  cases hzero : y == 0 with
  | true =>
    simp only [Bool.true_or, if_true]
    exact .refl 1
  | false =>
    cases hnan : y.isNaN with
    | true =>
      simp only [Bool.or_false, Bool.false_eq_true, if_true, if_false]
      exact .refl y
    | false =>
      have hpos : 0 < y := (lt_zero_or_zero_lt hnan hzero).resolve_left hneg
      simp only [hpos, Bool.or_false, Bool.and_self, decide_true, Bool.false_eq_true, if_true,
        if_false]
      split
      · exact .zeros s t
      · exact .refl 0

/-- Powers are alike where they are not refused. Zero to a negative power is, as its sign would
decide between two infinities. -/
theorem Alike.power {x x' y y' : Float} (hx : Alike x x') (hy : Alike y y')
    (hneg : ¬ (x == 0 && y < 0) = true) : Alike (Number.power x y) (Number.power x' y') := by
  cases hy with
  | zeros s t => simpa [Number.power] using .refl 1
  | refl =>
    cases hx with
    | refl => exact .refl _
    | zeros s t => exact power_packed_zero_alike s t (by simpa using hneg)

/-! ## What leaves a float alone

Adding zero needs no rounding at all, since the sum of a finite float and zero is computed as the
float. A product is rounded, also one by one, and that this changes nothing is a fact on rounding:
the mantissa was shortened before, and asks for the exponent that it has. -/

/-- Only a zero can change when zero is added: the sum of two zeros is positive. -/
theorem add_zero_alike {x : Float} (hx : x.isFinite) : Alike (x + 0) x := by
  show Alike (packed (.add .binary64 (unpacked x) (.zero .positive))) x
  rcases isFinite_cases hx with ⟨s, hu⟩ | ⟨s, m, e, hm, hu⟩
  · rw [hu, ← packed_unpacked x, hu]
    simp only [UnpackedFloat.add]
    split <;> exact .zeros _ _
  · rw [hu, ← packed_unpacked x, hu]
    exact .refl _

/-- The parts of a float are such that rounding them again changes nothing: the exponent is the one
that a mantissa of this length asks for. -/
theorem targetExponent_unpack (b : BitVec Format.binary64.numBits) {s : Sign} {m : Nat} {e : Int}
    {hm : 0 < m} (h : UnpackedFloat.unpack .binary64 b = .finite s m e hm) :
    Format.binary64.targetExponent (totalExponent m e) = e := by
  have htarget (t : Int) : Format.binary64.targetExponent t = max (t - 53) (-1074) := rfl
  have hbias : (Format.binary64.exponentBias : Int) = 1023 := rfl
  rw [htarget, totalExponent]
  rw [UnpackedFloat.unpack] at h
  -- infinities and `NaN` are no finite parts; then subnormal floats, and the others
  split at h
  · split at h <;> cases h
  · split at h
    · split at h
      · cases h
      next hbottom hsubnormal =>
        have hlog := log2_subnormal hsubnormal
        have : (unpackExponent b).toNat = 0 := by rw [hbottom]; rfl
        simp only [UnpackedFloat.finite.injEq] at h
        obtain ⟨-, rfl, rfl⟩ := h
        rw [hbias]
        omega
    next hbottom =>
      have : (unpackExponent b).toNat ≠ 0 := by simpa [← BitVec.toNat_inj] using hbottom
      simp only [UnpackedFloat.finite.injEq] at h
      obtain ⟨-, rfl, rfl⟩ := h
      rw [toNat_implicit, log2_implicit, hbias]
      omega

/-- Shifting out zeros loses nothing. No bit that is lost is one, so rounding has nothing to decide
by. -/
theorem shiftRight_exact (m k : Nat) :
    (⟨m * 2 ^ k, false, false⟩ : ExtendedMantissa) >>> k = ⟨m, false, false⟩ := by
  show Nat.repeat ExtendedMantissa.shiftRightOne k _ = _
  induction k generalizing m with
  | zero => simp [Nat.repeat]
  | succ k ih =>
    rw [Nat.pow_succ', ← Nat.mul_assoc, Nat.repeat, ih]
    simp [ExtendedMantissa.shiftRightOne]

theorem log2_mul_two_pow {m : Nat} (hm : 0 < m) (k : Nat) : (m * 2 ^ k).log2 = m.log2 + k := by
  have hpos : 0 < 2 ^ k := Nat.two_pow_pos k
  rw [Nat.log2_eq_iff (Nat.ne_of_gt (Nat.mul_pos hm hpos)), Nat.pow_add, Nat.add_right_comm,
    Nat.pow_add]
  exact ⟨Nat.mul_le_mul_right _ (Nat.log2_self_le (Nat.ne_of_gt hm)),
    Nat.mul_lt_mul_of_pos_right Nat.lt_log2_self hpos⟩

/-- Rounding parts that were only written with `k` more zeros gives the parts back. Rounding goes
twice over a mantissa, as the first time may make it longer by a bit. Here the first time gives the
parts back, and the second leaves them. -/
theorem roundWithAccuracy_exact (s : Sign) {m : Nat} {e : Int} (hm : 0 < m) (k : Nat)
    (h : Format.binary64.targetExponent (totalExponent m e) = e) :
    roundWithAccuracy .binary64 s (m * 2 ^ k) (e - k) .exact = .finite s m e hm := by
  have htotal : totalExponent (m * 2 ^ k) (e - k) = totalExponent m e := by
    rw [totalExponent, totalExponent, log2_mul_two_pow hm]
    omega
  have hfirst : shiftToTargetExponent .binary64 (m * 2 ^ k) (e - k) .exact
      = (⟨m, false, false⟩, e) := by
    rw [shiftToTargetExponent, htotal, h, shiftToExponent]
    rw [show (e - (e - k)).toNat = k by omega]
    simp [ExtendedMantissa.ofMantissaAndAccuracy, shiftRight_exact]
  have hsecond : shiftToTargetExponent .binary64 m e .exact = (⟨m, false, false⟩, e) := by
    rw [shiftToTargetExponent, h, shiftToExponent]
    simpa [ExtendedMantissa.ofMantissaAndAccuracy] using shiftRight_exact m 0
  simp only [roundWithAccuracy, hfirst, ExtendedMantissa.roundedMantissa,
    ExtendedMantissa.accuracy, Accuracy.roundToNearestEven, hsecond]
  rw [dif_neg (Nat.ne_of_gt hm)]

/-- One has the mantissa `2 ^ 52`, so the product is the mantissa with 52 more zeros. -/
theorem mul_one {x : Float} (hx : x.isFinite) : x * 1 = x := by
  show packed (.mul .binary64 (unpacked x) (.finite .positive (2 ^ 52) (-52) (by decide))) = x
  rcases isFinite_cases hx with ⟨s, hu⟩ | ⟨s, m, e, hm, hu⟩
  · rw [hu, ← packed_unpacked x, hu]
    cases s <;> rfl
  · have hsign : s * .positive = s := by cases s <;> rfl
    have htarget := targetExponent_unpack _ hu
    rw [hu, UnpackedFloat.mul, hsign, ← Int.sub_eq_add_neg]
    rw [show (52 : Int) = (52 : Nat) from rfl, roundWithAccuracy_exact s hm 52 htarget, ← hu]
    exact packed_unpacked x

/-- Whether a float is finite can be seen from its exponent alone: it is not the greatest. -/
theorem isFinite_unpack (b : BitVec Format.binary64.numBits) :
    (UnpackedFloat.unpack .binary64 b).isFinite = decide (unpackExponent b ≠ -1#_) := by
  rw [UnpackedFloat.unpack]
  split
  next htop => rw [htop]; split <;> rfl
  next htop =>
    rw [decide_eq_true htop]
    split
    · split <;> rfl
    · rfl

theorem unpackExponent_pack_neg (u : UnpackedFloat) :
    unpackExponent (UnpackedFloat.pack .binary64 u.neg)
      = unpackExponent (UnpackedFloat.pack .binary64 u) := by
  cases u with
  | notANumber => rfl
  | infinity s => simp [UnpackedFloat.neg, UnpackedFloat.pack, packedInfinity]
  | zero s => simp [UnpackedFloat.neg, UnpackedFloat.pack, packedZero]
  | finite s m e hm =>
    simp only [UnpackedFloat.neg, UnpackedFloat.pack, packedInfinity]
    split
    · simp
    · split <;> simp

/-- Only the sign is turned, and being finite is a matter of the exponent. -/
theorem isFinite_neg (x : Float) : (-x).isFinite = x.isFinite := by
  have hx : unpacked (packed (unpacked x)) = unpacked x := by rw [packed_unpacked]
  show (unpacked (packed (unpacked x).neg)).isFinite = (unpacked x).isFinite
  rw [← hx]
  show (UnpackedFloat.unpack .binary64 (UnpackedFloat.pack .binary64 _)).isFinite
    = (UnpackedFloat.unpack .binary64 (UnpackedFloat.pack .binary64 _)).isFinite
  rw [isFinite_unpack, isFinite_unpack, unpackExponent_pack_neg, hx]

end Double
end ThreeAddress
