import Mathlib.Algebra.Order.Ring.Int
import Mathlib.Tactic.NormNum
import Mathlib.Tactic.Positivity
import ThreeAddress.Number.Arithmetic

/-!
# Integers: exact or reported

What the operators that stay among the integers give is measured here against arithmetic without
bounds. There is a result just if 64 bits hold the exact one, and then it is that one; otherwise the
fault says that it does not fit (`ExactOrReported`). So nothing wraps around, and nothing that fits
is refused.

For `+`, `-` and `*` this is how `exact` is made. Powers and shifts from 64 on are never carried
out, and there it has to be seen that all they leave out is out of range: a base other than `0`, `1`
and `-1` at least doubles from power to power.
-/

set_option autoImplicit false

namespace ThreeAddress

namespace Number

/-- The outcome is the integer `n` if 64 bits hold it, and otherwise the fault that they do not. -/
inductive ExactOrReported (operator : String) (n : Int) : Except EvalFault Number → Prop
  | fits {r : Int64} (h : r.toInt = n) : ExactOrReported operator n (.ok (int r))
  | overflows (h : n < -2 ^ 63 ∨ 2 ^ 63 - 1 < n) :
      ExactOrReported operator n (.error (.integerOverflow operator))

theorem exactOrReported_exact (operator : String) (n : Int) :
    ExactOrReported operator n (exact operator n) := by
  have hleast : leastInt = -2 ^ 63 := by decide
  have hgreatest : greatestInt = 2 ^ 63 - 1 := by decide
  rw [exact, hleast, hgreatest]
  split
  next h => exact .fits (Int64.toInt_ofInt_of_le h.1 (by omega))
  next h => exact .overflows (by omega)

/-! ## Powers

From the exponent 64 on nothing is multiplied out. For the bases `0`, `1` and `-1` the power is
known, and for all others it is out of range. -/

/-- What is at least doubled 64 times does not fit. -/
theorem out_of_range_of_natAbs {n : Int} (h : 2 ^ 64 ≤ n.natAbs) :
    n < -2 ^ 63 ∨ 2 ^ 63 - 1 < n := by
  omega

theorem pow_out_of_range {base : Int} {exponent : Nat} (hbase : 2 ≤ base.natAbs)
    (hexponent : 64 ≤ exponent) : base ^ exponent < -2 ^ 63 ∨ 2 ^ 63 - 1 < base ^ exponent := by
  apply out_of_range_of_natAbs
  calc 2 ^ 64 ≤ 2 ^ exponent := Nat.pow_le_pow_right (by decide) hexponent
    _ ≤ base.natAbs ^ exponent := Nat.pow_le_pow_left hbase exponent
    _ = (base ^ exponent).natAbs := (Int.natAbs_pow base exponent).symm

theorem exactOrReported_intPower (base : Int) (exponent : Nat) :
    ExactOrReported "**" (base ^ exponent) (intPower base exponent) := by
  unfold intPower
  split
  next => exact exactOrReported_exact "**" (base ^ exponent)
  next hlarge =>
    have hpositive : exponent ≠ 0 := by omega
    split
    next hfixed =>
      have hpow : base ^ exponent = base := by
        rcases hfixed with rfl | rfl
        · exact zero_pow hpositive
        · exact one_pow exponent
      rw [hpow]
      exact exactOrReported_exact "**" base
    next hfixed =>
      split
      next hminus =>
        have hpow : base ^ exponent = if exponent % 2 = 0 then 1 else -1 := by
          simp only [hminus, neg_one_pow_eq_ite, Nat.even_iff]
        rw [hpow]
        exact exactOrReported_exact "**" _
      next hminus =>
        apply ExactOrReported.overflows
        exact pow_out_of_range (by omega) (by omega)

/-! ## Shifts to the left

A shift is a multiplication by a power of two, which is out of range from 64 on for every operand
but zero. -/

theorem exactOrReported_intShiftLeft {a count : Int} (h : 0 ≤ count) :
    ExactOrReported "<<" (a * 2 ^ count.toNat) (intShiftLeft a count) := by
  rw [intShiftLeft, if_neg (by omega)]
  split
  next hzero =>
    rw [hzero, Int.zero_mul]
    exact exactOrReported_exact "<<" 0
  next hzero =>
    split
    next =>
      rw [Int.shiftLeft_eq]
      exact exactOrReported_exact "<<" _
    next hlarge =>
      apply ExactOrReported.overflows
      apply out_of_range_of_natAbs
      rw [Int.natAbs_mul, Int.natAbs_pow]
      calc 2 ^ 64 ≤ 2 ^ count.toNat := Nat.pow_le_pow_right (by decide) (by omega)
        _ ≤ a.natAbs * 2 ^ count.toNat := Nat.le_mul_of_pos_left _ (by omega)

/-! ### Shifts of words

The exact product is what the shift is defined by. It need not be computed: a machine word, where
the bits that do not fit fall off, says by itself whether any did. -/

/-- A word is shifted by the count itself, as long as that is below 64. -/
theorem toNat_smod_count {count : Int64} (h : 0 ≤ count.toInt) (h' : count.toInt < 64) :
    (count.toBitVec.smod 64).toNat = count.toInt.toNat := by
  have hsmod : (count.toBitVec.smod 64).toInt = count.toInt := by
    rw [BitVec.toInt_smod, Int64.toInt_toBitVec]
    exact Int.fmod_eq_of_lt h h'
  rw [BitVec.toInt_eq_toNat_cond] at hsmod
  split at hsmod <;> omega

theorem toInt_shiftLeft (a : Int64) {count : Int64} (h : 0 ≤ count.toInt)
    (h' : count.toInt < 64) :
    (a <<< count).toInt = (a.toInt * 2 ^ count.toInt.toNat).bmod (2 ^ 64) := by
  rw [← Int64.toInt_toBitVec, Int64.toBitVec_shiftLeft, BitVec.shiftLeft_eq', toNat_smod_count h h',
    BitVec.toInt_shiftLeft, Nat.shiftLeft_eq, Nat.cast_mul, ← Int.bmod_mul_bmod,
    ← BitVec.toInt_eq_toNat_bmod, Int64.toInt_toBitVec]
  norm_cast

theorem toInt_shiftRight (a : Int64) {count : Int64} (h : 0 ≤ count.toInt)
    (h' : count.toInt < 64) :
    (a >>> count).toInt = a.toInt / 2 ^ count.toInt.toNat := by
  rw [← Int64.toInt_toBitVec, Int64.toBitVec_shiftRight, BitVec.sshiftRight_eq',
    toNat_smod_count h h', BitVec.toInt_sshiftRight, Int64.toInt_toBitVec,
    Int.shiftRight_eq_div_pow]
  norm_cast

/-- A word that was shifted and shifted back is what it was just if no bits were lost. The lost
bits make a multiple of `2 ^ 64`, which would be missing as one of `2 ^ (64 - count)`. -/
theorem shiftLeft_shiftRight_eq_iff (a : Int64) {count : Int64} (h : 0 ≤ count.toInt)
    (h' : count.toInt < 64) :
    (a <<< count) >>> count = a ↔ (a <<< count).toInt = a.toInt * 2 ^ count.toInt.toNat := by
  have hpos : (0 : Int) < 2 ^ count.toInt.toNat := by positivity
  rw [← Int64.toInt_inj, toInt_shiftRight _ h h']
  constructor
  · intro hback
    -- what was lost is a multiple of `2 ^ 64`, and so of the power that was shifted by
    have hlost := Int.bmod_add_bdiv (a.toInt * 2 ^ count.toInt.toNat) (2 ^ 64)
    rw [← toInt_shiftLeft a h h'] at hlost
    have hdvd : (2 : Int) ^ count.toInt.toNat ∣ (a <<< count).toInt := by
      rw [← eq_sub_iff_add_eq] at hlost
      rw [hlost]
      apply Int.dvd_sub (Int.dvd_mul_left _ _)
      apply Dvd.dvd.mul_right
      rw [Nat.cast_pow]
      exact pow_dvd_pow 2 (by omega)
    rw [← hback, Int.ediv_mul_cancel hdvd]
  · intro hexact
    rw [hexact, Int.mul_ediv_cancel _ hpos.ne']

/-- The shift that a machine can do. From 64 on it is not tried, and below that the shifted word is
the result if shifting it back gives the operand again. -/
def wordShiftLeft (a count : Int64) : Except EvalFault Number :=
  if a = 0 then .ok (int 0)
  else if count < 64 ∧ (a <<< count) >>> count = a then .ok (int (a <<< count))
  else .error (.integerOverflow "<<")

/-- Below 64 the test by shifting back finds out just what is in range. -/
theorem intShiftLeft_of_lt (a : Int64) {count : Int64} (h : 0 ≤ count.toInt)
    (h' : count.toInt < 64) :
    intShiftLeft a.toInt count.toInt =
      if (a <<< count) >>> count = a then .ok (int (a <<< count))
      else .error (.integerOverflow "<<") := by
  have houtcome := exactOrReported_intShiftLeft (a := a.toInt) h
  simp only [shiftLeft_shiftRight_eq_iff a h h']
  generalize intShiftLeft a.toInt count.toInt = outcome at houtcome
  cases houtcome with
  | @fits r hr =>
    -- the result is in range, so no bits were lost
    have hword : a <<< count = r := by
      rw [← Int64.toInt_inj, toInt_shiftLeft a h h', ← hr]
      exact Int.bmod_eq_of_le r.le_toInt r.toInt_lt
    rw [hword, if_pos hr]
  | overflows hrange =>
    have hleast := (a <<< count).le_toInt
    have hgreatest := (a <<< count).toInt_lt
    rw [if_neg (by omega)]

theorem intShiftLeft_eq_word (a : Int64) {count : Int64} (h : 0 ≤ count.toInt) :
    intShiftLeft a.toInt count.toInt = wordShiftLeft a count := by
  have hlimit : count < 64 ↔ count.toInt < 64 := Int64.lt_iff_toInt_lt
  have hzero : a = 0 ↔ a.toInt = 0 := Int64.toInt_inj.symm
  rw [wordShiftLeft]
  split
  next ha =>
    rw [ha, intShiftLeft, if_neg (by omega)]
    rfl
  next ha =>
    by_cases h' : count.toInt < 64
    · simp only [intShiftLeft_of_lt a h h', hlimit.mpr h', true_and]
    · rw [if_neg (fun hback => h' (hlimit.mp hback.1)), intShiftLeft, if_neg (by omega),
        if_neg (fun hzero' => ha (hzero.mpr hzero')), if_neg h']

/-! ## The operators

Each of the conjuncts is one of the lemmas above, with the operator unfolded to the function that
carries it out. -/

/-- The operators that stay among the integers give the exact result or say that it does not fit.
For shifts to the left this is also what a machine comes to that shifts a word and shifts it back to
see whether it has lost anything. -/
theorem integer_results_exact (a b : Int64) :
    ExactOrReported "+" (a.toInt + b.toInt) (binary .add (int a) (int b)) ∧
    ExactOrReported "-" (a.toInt - b.toInt) (binary .sub (int a) (int b)) ∧
    ExactOrReported "*" (a.toInt * b.toInt) (binary .mul (int a) (int b)) ∧
    (0 ≤ b.toInt →
      ExactOrReported "**" (a.toInt ^ b.toInt.toNat) (binary .exp (int a) (int b)) ∧
      ExactOrReported "<<" (a.toInt * 2 ^ b.toInt.toNat) (binary .shiftLeft (int a) (int b))) ∧
    (b.toInt < 0 → binary .shiftLeft (int a) (int b) = .error .negativeShift) ∧
    ExactOrReported "-" (-a.toInt) (unary .neg (int a)) ∧
    (0 ≤ b.toInt → binary .shiftLeft (int a) (int b) = wordShiftLeft a b) := by
  refine ⟨exactOrReported_exact "+" _, exactOrReported_exact "-" _, exactOrReported_exact "*" _,
    ?_, ?_, exactOrReported_exact "-" _, intShiftLeft_eq_word a⟩
  · intro hb
    refine ⟨?_, exactOrReported_intShiftLeft hb⟩
    simp only [binary, if_pos hb]
    exact exactOrReported_intPower _ _
  · intro hb
    exact if_pos hb

/-- At the edges: the least integer is reached by a shift and has no negative, of the greatest power
of `-1` only the parity counts, and a word that is shifted by 64 is not its own result, though a
machine that takes the count modulo 64 would find it unchanged. -/
theorem integer_results_exact_edges :
    ExactOrReported "<<" (-2 ^ 63) (binary .shiftLeft (int (-1)) (int 63)) ∧
    ExactOrReported "**" ((-1) ^ (2 ^ 63 - 1)) (binary .exp (int (-1)) (int Int64.maxValue)) ∧
    binary .shiftLeft (int 1) (int (-1)) = .error .negativeShift ∧
    ExactOrReported "-" (2 ^ 63) (unary .neg (int Int64.minValue)) ∧
    binary .shiftLeft (int 1) (int 64) = .error (.integerOverflow "<<") :=
  ⟨((integer_results_exact (-1) 63).2.2.2.1 (by decide)).2,
    ((integer_results_exact (-1) Int64.maxValue).2.2.2.1 (by decide)).1,
    (integer_results_exact 1 (-1)).2.2.2.2.1 (by decide),
    (integer_results_exact Int64.minValue 0).2.2.2.2.2.1,
    (integer_results_exact 1 64).2.2.2.2.2.2 (by decide)⟩

end Number

end ThreeAddress
