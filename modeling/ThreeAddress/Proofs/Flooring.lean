import Mathlib.Algebra.Order.Floor.Ring
import Mathlib.Data.Int.ModEq
import Mathlib.Data.Rat.Floor
import ThreeAddress.Proofs.Integers
import ThreeAddress.Proofs.Numbers

/-!
# Rests and shifts round down

Division of integers rounds down for `%` and for `>>`: what `%` leaves has the sign of the divisor,
and what `>>` gives is the floor of the quotient by a power of two. There is just one rest of that
kind (`FlooredRest.unique`), so it can be found in two ways: without bounds, as `fmod`, or on words,
where division rounds toward zero and a rest of the wrong sign is moved by the divisor. The two
signs are then opposite, and so the sum fits.

A machine shifts by less than 64. Beyond that every bit is the sign, and this is where the floor has
arrived too.
-/

set_option autoImplicit false

namespace ThreeAddress

namespace Number

/-! ## Rests

Such a rest is described by what is true of it, and there is one. The two ways to compute it
therefore need not be compared step by step: each of them gives a rest of this kind. -/

/-- What is left of `a` when multiples of `b` are taken out, on the side of zero where `b` is. The
sign is that of the divisor, not that of the dividend. -/
structure FlooredRest (a b rest : Int) : Prop where
  modEq : rest ≡ a [ZMOD b]
  of_pos : 0 < b → 0 ≤ rest ∧ rest < b
  of_neg : b < 0 → b < rest ∧ rest ≤ 0

/-- Two of them differ by a multiple of the divisor, and by less than the divisor. -/
theorem FlooredRest.unique {a b rest rest' : Int} (hb : b ≠ 0) (h : FlooredRest a b rest)
    (h' : FlooredRest a b rest') : rest = rest' := by
  have hdvd : b ∣ rest' - rest := Int.modEq_iff_dvd.mp (h.modEq.trans h'.modEq.symm)
  have hnear : (rest' - rest).natAbs < b.natAbs := by
    rcases lt_or_gt_of_ne hb with hneg | hpos
    · have := h.of_neg hneg
      have := h'.of_neg hneg
      omega
    · have := h.of_pos hpos
      have := h'.of_pos hpos
      omega
  have hzero := Int.eq_zero_of_dvd_of_natAbs_lt_natAbs hdvd hnear
  omega

/-- Division that rounds down leaves such a rest. -/
theorem flooredRest_fmod {a b : Int} (hb : b ≠ 0) : FlooredRest a b (a.fmod b) := by
  have hleast := Int.emod_nonneg a hb
  have hgreatest := Int.emod_lt a hb
  refine ⟨?_, fun hpos => ?_, fun hneg => ?_⟩
  · rw [Int.modEq_iff_dvd, Int.fmod_def]
    exact ⟨a.fdiv b, by omega⟩
  · exact ⟨Int.fmod_nonneg_of_pos a hpos, Int.fmod_lt_of_pos a hpos⟩
  · rw [Int.fmod_eq_emod]
    split
    next h =>
      have hdvd : b ∣ a := h.resolve_left (by omega)
      rw [Int.emod_eq_zero_of_dvd hdvd]
      omega
    next h =>
      have hrest : a % b ≠ 0 := fun hzero => h (.inr (Int.dvd_of_emod_eq_zero hzero))
      omega

/-! ### Rests of words

The program computes with words and corrects the sign afterwards. What could overflow is the
correction, and that has operands of opposite signs. -/

/-- A rest on the other side of zero than the divisor. A rest of zero strays to neither side. -/
def Strays (rest b : Int64) : Prop :=
  rest ≠ 0 ∧ ¬(rest < 0 ↔ b < 0)

instance (rest b : Int64) : Decidable (Strays rest b) :=
  inferInstanceAs (Decidable (_ ∧ _))

/-- The rest of a division of words. The machine rounds toward zero, and where this leaves a rest on
the other side of zero, the divisor brings it back. -/
def wordModulo (a b : Int64) : Int64 :=
  if Strays (a % b) b then a % b + b else a % b

theorem strays_iff {rest b : Int64} :
    Strays rest b ↔ (rest.toInt < 0 ∧ 0 ≤ b.toInt) ∨ (0 < rest.toInt ∧ b.toInt < 0) := by
  rw [Strays, ne_eq, ← Int64.toInt_inj, Int64.lt_iff_toInt_lt, Int64.lt_iff_toInt_lt,
    Int64.toInt_zero]
  omega

/-- Numbers of opposite signs have a sum between them. -/
theorem Strays.sum_fits {rest b : Int64} (h : Strays rest b) :
    -2 ^ 63 ≤ rest.toInt + b.toInt ∧ rest.toInt + b.toInt ≤ 2 ^ 63 - 1 := by
  have := strays_iff.mp h
  have := rest.le_toInt
  have := rest.toInt_lt
  have := b.le_toInt
  have := b.toInt_lt
  omega

theorem Strays.toInt_add {rest b : Int64} (h : Strays rest b) :
    (rest + b).toInt = rest.toInt + b.toInt := by
  obtain ⟨hleast, hgreatest⟩ := h.sum_fits
  rw [Int64.toInt_add]
  exact Int.bmod_eq_of_le (by omega) (by omega)

/-- With the correction made, or none needed, the rest is on the right side and still less than the
divisor. -/
theorem flooredRest_wordModulo {a b : Int64} (hb : b.toInt ≠ 0) :
    FlooredRest a.toInt b.toInt (wordModulo a b).toInt := by
  have hmod : (a % b).toInt ≡ a.toInt [ZMOD b.toInt] := by
    rw [Int64.toInt_mod, Int.modEq_iff_dvd, Int.tmod_def]
    exact ⟨a.toInt.tdiv b.toInt, by omega⟩
  -- rounding toward zero, the rest is less than the divisor in size, with any sign
  have hnear : (a % b).toInt.natAbs < b.toInt.natAbs := by
    rw [Int64.toInt_mod, Int.natAbs_tmod]
    exact Nat.mod_lt _ (Int.natAbs_pos.mpr hb)
  rw [wordModulo]
  split
  next hstrays =>
    rw [hstrays.toInt_add]
    have hsides := strays_iff.mp hstrays
    exact ⟨Int.add_modEq_right.trans hmod, by omega, by omega⟩
  next hstays =>
    rw [strays_iff] at hstays
    exact ⟨hmod, by omega, by omega⟩

/-- The rest that is computed without bounds is the one of words, so it fits. -/
theorem fmod_eq_wordModulo {a b : Int64} (hb : b.toInt ≠ 0) :
    a.toInt.fmod b.toInt = (wordModulo a b).toInt :=
  (flooredRest_fmod hb).unique hb (flooredRest_wordModulo hb)

/-! ## Shifts to the right

Below 64 the machine shifts as is wanted. From there on the quotient is less than one in size, and
its floor is zero or minus one. -/

/-- A power of two above `a` leaves only its sign. -/
theorem ediv_eq_sign {a b : Int} (hleast : -b ≤ a) (hgreatest : a < b) :
    a / b = if a < 0 then -1 else 0 := by
  split
  next h =>
    rw [Int.ediv_eq_iff_of_pos (by omega)]
    omega
  next h => exact Int.ediv_eq_zero_of_lt (by omega) hgreatest

/-- All powers of two from `2 ^ 63` on are above all words. -/
theorem ediv_two_pow_eq_sign (a : Int64) {n : Nat} (h : 63 ≤ n) :
    a.toInt / 2 ^ n = if a.toInt < 0 then -1 else 0 := by
  have hpow : (2 : Int) ^ 63 ≤ 2 ^ n := pow_le_pow_right₀ (by decide) h
  have := a.le_toInt
  have := a.toInt_lt
  exact ediv_eq_sign (by omega) (by omega)

/-- A word shifted to the right, by as much as one likes: a machine shift below 64, and the sign
alone from there on. -/
def wordShiftRight (a count : Int64) : Int64 :=
  if count < 64 then a >>> count else if a < 0 then -1 else 0

/-- Both branches give the floor of the quotient. -/
theorem toInt_wordShiftRight (a : Int64) {count : Int64} (h : 0 ≤ count.toInt) :
    (wordShiftRight a count).toInt = a.toInt / 2 ^ count.toInt.toNat := by
  have hlimit : count < 64 ↔ count.toInt < 64 := Int64.lt_iff_toInt_lt
  rw [wordShiftRight]
  split
  next hbelow => exact toInt_shiftRight a h (hlimit.mp hbelow)
  next hbeyond =>
    rw [hlimit] at hbeyond
    rw [ediv_two_pow_eq_sign a (by omega)]
    simp only [apply_ite Int64.toInt, Int64.lt_iff_toInt_lt]
    rfl

/-- The program shifts by 63 at most, which makes no difference for words. -/
theorem shiftRight_min (a : Int64) (n : Nat) : a.toInt >>> min n 63 = a.toInt / 2 ^ n := by
  rw [Int.shiftRight_eq_div_pow, Nat.cast_pow, Nat.cast_ofNat]
  rcases Nat.le_total n 63 with hbelow | hbeyond
  · rw [Nat.min_eq_left hbelow]
  · rw [Nat.min_eq_right hbeyond, ediv_two_pow_eq_sign a hbeyond,
      ediv_two_pow_eq_sign a (Nat.le_refl 63)]

theorem intShiftRight_eq_word (a : Int64) {count : Int64} (h : 0 ≤ count.toInt) :
    intShiftRight a.toInt count.toInt = .ok (int (wordShiftRight a count)) := by
  rw [intShiftRight, if_neg (by omega), shiftRight_min, ← toInt_wordShiftRight a h, exact_toInt]

/-! ## The operators -/

theorem binary_mod {a b : Int64} (hb : b.toInt ≠ 0) :
    binary .mod (int a) (int b) = .ok (int (wordModulo a b)) := by
  have hzero : ¬b = 0 := fun h => hb (by rw [h]; rfl)
  simp only [binary, isZero, hzero, decide_false, Bool.false_eq_true, if_false]
  rw [fmod_eq_wordModulo hb, exact_toInt]

/-- `%` and `>>` round down, for all words. Where `%` moves the rest of the machine by the divisor,
nothing overflows. -/
theorem modulo_and_shiftRight_floored (a b : Int64) :
    (b.toInt ≠ 0 → ∃ r : Int64, binary .mod (int a) (int b) = .ok (int r) ∧
      r.toInt ≡ a.toInt [ZMOD b.toInt] ∧
      (0 < b.toInt → 0 ≤ r.toInt ∧ r.toInt < b.toInt) ∧
      (b.toInt < 0 → b.toInt < r.toInt ∧ r.toInt ≤ 0) ∧
      r = if Strays (a % b) b then a % b + b else a % b) ∧
    (Strays (a % b) b →
      -2 ^ 63 ≤ (a % b).toInt + b.toInt ∧ (a % b).toInt + b.toInt ≤ 2 ^ 63 - 1) ∧
    (b.toInt = 0 → binary .mod (int a) (int b) = .error (.divisionByZero "modulo")) ∧
    (0 ≤ b.toInt → ∃ r : Int64, binary .shiftRight (int a) (int b) = .ok (int r) ∧
      r.toInt = ⌊(a.toInt : ℚ) / 2 ^ b.toInt.toNat⌋) ∧
    (b.toInt < 0 → binary .shiftRight (int a) (int b) = .error .negativeShift) := by
  refine ⟨fun hb => ?_, Strays.sum_fits, fun hb => ?_, fun hb => ?_, fun hb => if_pos hb⟩
  · obtain ⟨hmod, hpos, hneg⟩ := flooredRest_wordModulo (a := a) hb
    exact ⟨wordModulo a b, binary_mod hb, hmod, hpos, hneg, rfl⟩
  · have hzero : b = 0 := Int64.toInt_inj.mp hb
    rw [hzero]
    rfl
  · refine ⟨wordShiftRight a b, intShiftRight_eq_word a hb, ?_⟩
    rw [toInt_wordShiftRight a hb]
    exact_mod_cast (Rat.floor_intCast_div_natCast a.toInt (2 ^ b.toInt.toNat)).symm

/-- At the edges: the least integer by `-1`, whose quotient does not fit but whose rest does; rests
that are moved in either direction; and a shift by more than all the bits there are. -/
theorem modulo_and_shiftRight_floored_edges :
    (∃ r : Int64, binary .mod (int Int64.minValue) (int (-1)) = .ok (int r) ∧ -1 < r.toInt ∧
      r.toInt ≤ 0) ∧
    (∃ r : Int64, binary .mod (int (-7)) (int 3) = .ok (int r) ∧ 0 ≤ r.toInt ∧ r.toInt < 3) ∧
    (-2 ^ 63 ≤ (Int64.maxValue % Int64.minValue).toInt + Int64.minValue.toInt) ∧
    binary .mod (int 7) (int 0) = .error (.divisionByZero "modulo") ∧
    (∃ r : Int64, binary .shiftRight (int (-7)) (int Int64.maxValue) = .ok (int r) ∧
      r.toInt = ⌊((-7 : Int) : ℚ) / 2 ^ (2 ^ 63 - 1)⌋) ∧
    binary .shiftRight (int 7) (int (-1)) = .error .negativeShift := by
  refine ⟨?_, ?_, ?_, ?_, ?_, ?_⟩
  · obtain ⟨r, hr, -, -, hneg, -⟩ :=
      (modulo_and_shiftRight_floored Int64.minValue (-1)).1 (by decide)
    exact ⟨r, hr, hneg (by decide)⟩
  · obtain ⟨r, hr, -, hpos, -, -⟩ := (modulo_and_shiftRight_floored (-7) 3).1 (by decide)
    exact ⟨r, hr, hpos (by decide)⟩
  · exact ((modulo_and_shiftRight_floored Int64.maxValue Int64.minValue).2.1 (by decide)).1
  · exact (modulo_and_shiftRight_floored 7 0).2.2.1 (by decide)
  · exact (modulo_and_shiftRight_floored (-7) Int64.maxValue).2.2.2.1 (by decide)
  · exact (modulo_and_shiftRight_floored 7 (-1)).2.2.2.2 (by decide)

end Number

end ThreeAddress
