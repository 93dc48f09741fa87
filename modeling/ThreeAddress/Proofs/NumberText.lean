import ThreeAddress.Proofs.Doubles
import ThreeAddress.Proofs.ShortestDecimal

/-!
# The text of a number

Different finite numbers are written differently (`Number.text_injective`).

For floats (`Layout.floatText_injective`) this is a matter of reading back. What is written stands
for a number that is read back as the float, and no number is read back as two. Floats are told from
integers by the point or the `e` in their text.
-/

set_option autoImplicit false

namespace ThreeAddress

/-! ## The shapes of finite floats

The program takes the bits of a float apart with shifts and remainders. A float is determined by its
bits, and these by the parts, unless the exponent is that of infinities and `NaN`. -/

namespace FloatShape

open Decimal (Regular)

/-- The bits of a finite float. Both are conditions on a natural number, so that all that follows is
arithmetic. -/
structure FiniteBits (bits : Nat) : Prop where
  lt : bits < 2 ^ 64
  biased : bits / 2 ^ 52 % 2 ^ 11 ≠ 2047

theorem finiteBits_toBits {x : Float} (hx : x.isFinite) : FiniteBits x.toBits.toNat := by
  refine ⟨x.toBits.toNat_lt, ?_⟩
  intro htop
  have hexponent : @Float.Model.UnpackedFloat.unpackExponent .binary64 x.toBits.toBitVec
      = -1#_ := by
    rw [← BitVec.toNat_inj]
    show x.toBits.toNat >>> 52 % 2 ^ 11 = _
    rw [Nat.shiftRight_eq_div_pow, htop]
    rfl
  have hfinite := Double.isFinite_unpack x.toBits.toBitVec
  rw [decide_eq_false (not_not_intro hexponent)] at hfinite
  exact absurd (hfinite.symm.trans hx) (by decide)

theorem ofBits_of_finiteBits {bits : Nat} (h : FiniteBits bits) :
    ofBits bits =
      if bits / 2 ^ 52 % 2 ^ 11 = 0 then
        finite (bits / 2 ^ 63 = 1) (bits % 2 ^ 52) (-1074)
      else
        finite (bits / 2 ^ 63 = 1) (2 ^ 52 + bits % 2 ^ 52)
          ((bits / 2 ^ 52 % 2 ^ 11 : Nat) - 1075) := by
  have hsign : bits / 2 ^ 63 % 2 = bits / 2 ^ 63 := by
    have := h.lt
    omega
  rw [ofBits, Nat.shiftRight_eq_div_pow, Nat.shiftRight_eq_div_pow, hsign]
  exact if_neg h.biased

/-- The parts of a finite float: a zero, or regular ones. A zero has the exponent of the smallest
floats. -/
theorem ofFloat_cases {x : Float} (hx : x.isFinite) : ∃ negative m q,
    ofFloat x = finite negative m q ∧ (m = 0 ∧ q = -1074 ∨ Regular m q) := by
  have hbits := finiteBits_toBits hx
  rw [ofFloat, ofBits_of_finiteBits hbits]
  split
  · refine ⟨_, _, _, rfl, ?_⟩
    rcases Nat.eq_zero_or_pos (x.toBits.toNat % 2 ^ 52) with hzero | hpos
    · exact .inl ⟨hzero, rfl⟩
    · exact .inr ⟨hpos, by omega, by omega, .inl rfl⟩
  · exact ⟨_, _, _, rfl, .inr ⟨by omega, by omega, by omega, .inr (by omega)⟩⟩

theorem toBits_injective {x y : Float} (h : x.toBits = y.toBits) : x = y := by
  obtain ⟨⟨bits, valid⟩⟩ := x
  obtain ⟨⟨bits', valid'⟩⟩ := y
  obtain rfl : bits = bits' := h
  rfl

/-- A finite float is known by its parts. -/
theorem ofFloat_injective {x y : Float} (hx : x.isFinite) (hy : y.isFinite)
    (h : ofFloat x = ofFloat y) : x = y := by
  have hbits := finiteBits_toBits hx
  have hbits' := finiteBits_toBits hy
  rw [ofFloat, ofFloat, ofBits_of_finiteBits hbits, ofBits_of_finiteBits hbits'] at h
  have hlt := hbits.lt
  have hlt' := hbits'.lt
  apply toBits_injective
  rw [← UInt64.toNat_inj]
  -- by whether the exponents are the least; with two different kinds the mantissas differ
  split at h <;> split at h
  all_goals
    simp only [finite.injEq, decide_eq_decide] at h
    omega

end FloatShape

/-! ## The text of a finite float

The text stands for a number, and this number is read back as the float. So nothing has to be known
of the digits that were chosen, except that they were tested. -/

namespace Layout

open Decimal FloatShape

/-- The text of a finite float is a sign and a number, which is zero or read back as the float. -/
theorem floatText_textOf (layout : Layout) {x : Float} (hx : x.isFinite) :
    ∃ negative m q cs v, ofFloat x = finite negative m q ∧
      (layout.floatText x).toList = (if negative then ['-'] else []) ++ cs ∧ TextOf cs v ∧
      (m = 0 ∧ q = -1074 ∧ v = 0 ∨ Regular m q ∧ ReadsBack m q v) := by
  obtain ⟨negative, m, q, hshape, hparts⟩ := ofFloat_cases hx
  have hsign : (floatText.signText negative).toList = if negative then ['-'] else [] := by
    cases negative <;> rfl
  rw [floatText, hshape]
  rcases hparts with ⟨rfl, rfl⟩ | hregular
  · refine ⟨negative, 0, -1074, ['0', '.', '0'], 0, rfl, ?_, ?_, .inl ⟨rfl, rfl, rfl⟩⟩
    · show (floatText.signText negative ++ "0.0").toList = _
      rw [String.toList_append, hsign]
      rfl
    · have h := TextOf.point (isDigit_replicate_zero 1) (isDigit_replicate_zero 1) (by decide)
      rwa [show Token.digitsValue _ = 0 from rfl, Nat.cast_zero, zero_mul] at h
  · refine ⟨negative, m, q, _, _, rfl, ?_, textOf_decimalText layout (shortest layout.tie m q),
      .inr ⟨hregular, shortest_readsBack layout.tie hregular⟩⟩
    obtain ⟨n, rfl⟩ := Nat.exists_eq_add_one.mpr hregular.pos
    show (floatText.signText negative ++ layout.decimalText _).toList = _
    rw [String.toList_append, hsign]

/-- Different finite floats are written differently. A zero is not read back as anything else, since
what is read back as a positive float is positive. -/
theorem floatText_injective (layout : Layout) {x y : Float} (hx : x.isFinite) (hy : y.isFinite)
    (h : layout.floatText x = layout.floatText y) : x = y := by
  obtain ⟨negative, m, q, cs, v, hshape, htext, htextOf, hparts⟩ := layout.floatText_textOf hx
  obtain ⟨negative', m', q', cs', v', hshape', htext', htextOf', hparts'⟩ :=
    layout.floatText_textOf hy
  rw [← h, htext] at htext'
  obtain ⟨hsign, rfl⟩ : negative = negative' ∧ cs = cs' := by
    obtain ⟨c, rest, rfl, hc⟩ := htextOf.exists_digit
    obtain ⟨c', rest', rfl, hc'⟩ := htextOf'.exists_digit
    -- what follows the sign begins with a digit, so the minus is the sign
    cases negative <;> cases negative'
    · exact ⟨rfl, htext'⟩
    · exact absurd (List.cons.inj htext').1 (ne_of_isDigit hc rfl)
    · exact absurd (List.cons.inj htext').1.symm (ne_of_isDigit hc' rfl)
    · exact ⟨rfl, List.tail_eq_of_cons_eq htext'⟩
  obtain rfl : v = v' := htextOf.denoted.symm.trans htextOf'.denoted
  have hsame : m = m' ∧ q = q' := by
    rcases hparts with ⟨rfl, rfl, rfl⟩ | ⟨hregular, hback⟩
    · rcases hparts' with ⟨rfl, rfl, -⟩ | ⟨hregular', hback'⟩
      · exact ⟨rfl, rfl⟩
      · exact absurd (hback'.pos hregular'.pos) (lt_irrefl 0)
    · rcases hparts' with ⟨-, -, rfl⟩ | ⟨hregular', hback'⟩
      · exact absurd (hback.pos hregular.pos) (lt_irrefl 0)
      · exact eq_of_readsBack hregular hregular' hback hback'
  apply ofFloat_injective hx hy
  rw [hshape, hshape', hsign, hsame.1, hsame.2]

end Layout

/-! ## The text of a number

Integers are written without point and power, and floats with at least one of these. -/

namespace Number

open Decimal

/-- A number is written as digits and what follows them, and perhaps a minus before that. So no
number is written like a name, and a minus in front of a digit is a part of the number. -/
theorem text_begins {n : Number} (hn : n.isFinite) :
    ∃ (negative : Bool) (c : Char) (rest : List Char),
      n.text.toList = (if negative then ['-'] else []) ++ c :: rest ∧ c.isDigit ∧ ' ' ∉ rest := by
  cases n with
  | int n =>
    have hdigits (k : Nat) : ∃ c rest, Nat.toDigits 10 k = c :: rest ∧ c.isDigit ∧ ' ' ∉ rest := by
      obtain ⟨c, rest, hcs⟩ := List.exists_cons_of_ne_nil (Nat.toDigits_ne_nil (b := 10) (n := k))
      have hmem := isDigit_toDigits k
      rw [hcs, List.forall_mem_cons] at hmem
      exact ⟨c, rest, hcs, hmem.1, fun hblank => absurd (hmem.2 _ hblank) (by decide)⟩
    have htext := toList_wholeText n.toInt
    rw [text, intText, htext]
    cases n.toInt with
    | ofNat k =>
      obtain ⟨c, rest, hcs, hc, hrest⟩ := hdigits k
      exact ⟨false, c, rest, hcs, hc, hrest⟩
    | negSucc k =>
      obtain ⟨c, rest, hcs, hc, hrest⟩ := hdigits (k + 1)
      exact ⟨true, c, rest, congrArg (List.cons '-') hcs, hc, hrest⟩
  | float x =>
    obtain ⟨negative, m, q, cs, v, -, htext, htextOf, -⟩ := layout.floatText_textOf hn
    obtain ⟨c, rest, rfl, hc⟩ := htextOf.exists_digit
    exact ⟨negative, c, rest, htext, hc, fun h => htextOf.blank_notMem (List.mem_cons_of_mem _ h)⟩

/-- An integer is the value of its text. -/
theorem intText_injective {m n : Int64} (h : intText m = intText n) : m = n := by
  rw [← Int64.toInt_inj, ← wholeValue_wholeText m.toInt, ← wholeValue_wholeText n.toInt]
  exact congrArg (wholeValue ·.toList) h

/-- A float is not written like an integer. -/
theorem intText_ne_floatText (n : Int64) {x : Float} (hx : x.isFinite) :
    intText n ≠ floatText x := by
  intro h
  obtain ⟨negative, m, q, cs, v, -, htext, htextOf, -⟩ := layout.floatText_textOf hx
  have hmem (c : Char) (hc : c ∈ cs) : c ∈ (intText n).toList := by
    rw [h, floatText, htext]
    exact List.mem_append_right _ hc
  rcases htextOf.mem_mark with hmark | hmark
  · exact absurd (isPower_wholeText n.toInt _ (hmem _ hmark)) (by decide)
  · exact absurd (isPower_wholeText n.toInt _ (hmem _ hmark)) (by decide)

/-- Different finite numbers are written differently. -/
theorem text_injective {a b : Number} (ha : a.isFinite) (hb : b.isFinite) (h : a.text = b.text) :
    a = b := by
  cases a with
  | int m =>
    cases b with
    | int n => exact congrArg int (intText_injective h)
    | float y => exact absurd h (intText_ne_floatText m hb)
  | float x =>
    cases b with
    | int n => exact absurd h.symm (intText_ne_floatText n ha)
    | float y => exact congrArg float (layout.floatText_injective ha hb h)

end Number

end ThreeAddress
