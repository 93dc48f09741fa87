import ThreeAddress.Proofs.DecimalText

/-!
# The shortest decimal is read back

The decimal that is chosen for a float lies among the numbers that are read back as it
(`Decimal.shortest_readsBack`), and no number is read back as two floats
(`Decimal.eq_of_readsBack`).

That a decimal is found at all is the fact on the number of digits: with seventeen of them the
steps of the decimal grid are shorter than what is read back as one float is wide (`step_lt`). Then
one of the two points of the grid next to the float is read back as it (`onGrid?_isSome`).
-/

set_option autoImplicit false

namespace ThreeAddress
namespace Decimal

/-! ## Powers, and the grids they make

A float is a point of a binary grid and a decimal a point of a decimal one. The program compares
them with whole numbers only; here these are given their meaning as rationals, and all that follows
is arithmetic with rationals. -/

/-- A power with an exponent of any sign is a fraction of two whole numbers. -/
theorem power_spec {base : Nat} (hbase : 0 < base) (exponent : Int) :
    0 < (power base exponent).1 ∧ 0 < (power base exponent).2 ∧
      ((power base exponent).1 : ℚ) = (base : ℚ) ^ exponent * (power base exponent).2 := by
  rw [power]
  split
  next h =>
    obtain ⟨n, rfl⟩ := Int.eq_ofNat_of_zero_le h
    exact ⟨Nat.pow_pos hbase, Nat.one_pos, by simp⟩
  next h =>
    obtain ⟨n, rfl⟩ : ∃ n : Nat, exponent = -n := ⟨(-exponent).toNat, by omega⟩
    have hne : (base : ℚ) ≠ 0 := by exact_mod_cast hbase.ne'
    refine ⟨Nat.one_pos, Nat.pow_pos hbase, ?_⟩
    simp [hne]

/-- Both numbers of a `quarterStep` are lengths in one unit: that of a quarter step of the binary
grid, and that of a step of the decimal grid. So multiples of them are compared as the numbers are
that they stand for. -/
theorem quarterStep_spec (q k : Int) (n d : Nat) :
    ∃ unit : ℚ, 0 < unit ∧ ((n * (quarterStep q k).1 : Nat) : ℚ) = n * 2 ^ (q - 2) * unit ∧
      ((d * (quarterStep q k).2 : Nat) : ℚ) = value ⟨d, k⟩ * unit := by
  obtain ⟨-, hperTwos, htwos⟩ := power_spec Nat.two_pos (q - 2)
  obtain ⟨-, hperTens, htens⟩ := power_spec (show 0 < 10 by decide) k
  refine ⟨(power 2 (q - 2)).2 * (power 10 k).2, by positivity, ?_, ?_⟩
  · simp only [quarterStep, Nat.cast_mul, htwos]
    push_cast
    ring
  · simp only [quarterStep, Nat.cast_mul, htens, value]
    push_cast
    ring

section

variable (q k : Int) (n d : Nat)

/-! Comparisons of whole numbers, as the program makes them, are comparisons of the numbers that
they stand for. -/

theorem quarterStep_le_iff :
    n * (quarterStep q k).1 ≤ d * (quarterStep q k).2 ↔
      (n * 2 ^ (q - 2) : ℚ) ≤ value ⟨d, k⟩ := by
  obtain ⟨unit, hunit, hsteps, hper⟩ := quarterStep_spec q k n d
  rw [← Nat.cast_le (α := ℚ), hsteps, hper, mul_le_mul_iff_left₀ hunit]

theorem le_quarterStep_iff :
    d * (quarterStep q k).2 ≤ n * (quarterStep q k).1 ↔
      value ⟨d, k⟩ ≤ (n * 2 ^ (q - 2) : ℚ) := by
  obtain ⟨unit, hunit, hsteps, hper⟩ := quarterStep_spec q k n d
  rw [← Nat.cast_le (α := ℚ), hsteps, hper, mul_le_mul_iff_left₀ hunit]

theorem quarterStep_lt_iff :
    n * (quarterStep q k).1 < d * (quarterStep q k).2 ↔
      (n * 2 ^ (q - 2) : ℚ) < value ⟨d, k⟩ := by
  rw [← not_le, le_quarterStep_iff, not_le]

theorem lt_quarterStep_iff :
    d * (quarterStep q k).2 < n * (quarterStep q k).1 ↔
      value ⟨d, k⟩ < (n * 2 ^ (q - 2) : ℚ) := by
  rw [← not_le, quarterStep_le_iff, not_le]

end

/-! ## What is read back as a float

Reading rounds to the nearest float, and to the even one if there are two. So a float has an
interval around it: half a step up, and half a step down or, below a power of two, half of the
shorter step that comes before it. The ends belong to it if the mantissa is even. -/

/-- Quarters of a step of the binary grid from `m * 2 ^ q` down to where the numbers begin that are
read back as it. There it is one, because the floats below are twice as close. -/
def quartersBelow (m : Nat) (q : Int) : Nat :=
  if m = 1 <<< 52 && FloatShape.leastExponent < q then 1 else 2

/-- The least number that is read back as `m * 2 ^ q`, if its ends are. -/
def low (m : Nat) (q : Int) : ℚ := (4 * m - quartersBelow m q) * 2 ^ (q - 2)

/-- The greatest number that is read back as `m * 2 ^ q`, if its ends are. -/
def high (m : Nat) (q : Int) : ℚ := (4 * m + 2) * 2 ^ (q - 2)

/-- The number is read back as `m * 2 ^ q`. The interval is closed for an even mantissa and open for
an odd one, which is why the last field is strict. -/
structure ReadsBack (m : Nat) (q : Int) (v : ℚ) : Prop where
  low_le : low m q ≤ v
  le_high : v ≤ high m q
  strict : m % 2 = 1 → low m q < v ∧ v < high m q

theorem ReadsBack.of_lt {m : Nat} {q : Int} {v : ℚ} (hlow : low m q < v) (hhigh : v < high m q) :
    ReadsBack m q v :=
  ⟨hlow.le, hhigh.le, fun _ => ⟨hlow, hhigh⟩⟩

theorem quartersBelow_pos (m : Nat) (q : Int) : 0 < quartersBelow m q := by
  rw [quartersBelow]
  split <;> decide

theorem quartersBelow_le (m : Nat) (q : Int) : quartersBelow m q ≤ 2 := by
  rw [quartersBelow]
  split <;> decide

/-- The test of a point of the decimal grid, on whole numbers. -/
def testsBack (m : Nat) (q k : Int) (d : Nat) : Bool :=
  let (steps, per) := quarterStep q k
  let low := (4 * m - quartersBelow m q) * steps
  let high := (4 * m + 2) * steps
  if m % 2 = 0 then low ≤ d * per && d * per ≤ high else low < d * per && d * per < high

theorem testsBack_iff {m : Nat} (hm : 0 < m) (q k : Int) (d : Nat) :
    testsBack m q k d ↔ ReadsBack m q (value ⟨d, k⟩) := by
  have hlow : ((4 * m - quartersBelow m q : Nat) : ℚ) * 2 ^ (q - 2) = low m q := by
    have hbelow : quartersBelow m q ≤ 4 * m := by
      have := quartersBelow_le m q
      omega
    rw [low, Nat.cast_sub hbelow]
    push_cast
    rfl
  have hhigh : ((4 * m + 2 : Nat) : ℚ) * 2 ^ (q - 2) = high m q := by
    rw [high]
    push_cast
    rfl
  -- the two branches of the test are the two kinds of interval
  rw [testsBack]
  dsimp only
  split
  next heven =>
    rw [Bool.and_eq_true, decide_eq_true_eq, decide_eq_true_eq, quarterStep_le_iff,
      le_quarterStep_iff, hlow, hhigh]
    constructor
    · rintro ⟨hl, hh⟩
      exact ⟨hl, hh, fun hodd => absurd hodd (by omega)⟩
    · rintro ⟨hl, hh, -⟩
      exact ⟨hl, hh⟩
  next hodd =>
    rw [Bool.and_eq_true, decide_eq_true_eq, decide_eq_true_eq, quarterStep_lt_iff,
      lt_quarterStep_iff, hlow, hhigh]
    constructor
    · rintro ⟨hl, hh⟩
      exact ⟨hl.le, hh.le, fun _ => ⟨hl, hh⟩⟩
    · rintro ⟨-, -, hstrict⟩
      exact hstrict (by omega)

theorem two_zpow_eq (q : Int) : (2 : ℚ) ^ q = 4 * 2 ^ (q - 2) := by
  rw [zpow_sub₀ two_ne_zero]
  ring

theorem two_zpow_pos (q : Int) : (0 : ℚ) < 2 ^ q := by positivity

/-- The last point of the decimal grid that is not above `m * 2 ^ q`. -/
def gridFloor (m : Nat) (q k : Int) : Nat := 4 * m * (quarterStep q k).1 / (quarterStep q k).2

/-- The two points next to the number are tested, and when both are read back, some rule picks one.
Which rule it is does not matter, for either point is read back. -/
theorem onGrid?_eq (tie : Tie) (m : Nat) (q k : Int) : ∃ up : Bool, onGrid? tie m q k =
    match testsBack m q k (gridFloor m q k), testsBack m q k (gridFloor m q k + 1) with
    | true, true => some ⟨if up then gridFloor m q k + 1 else gridFloor m q k, k⟩
    | true, false => some ⟨gridFloor m q k, k⟩
    | false, true => some ⟨gridFloor m q k + 1, k⟩
    | false, false => none :=
  ⟨_, rfl⟩

/-- The point below is not above the number, and the next one is. -/
theorem gridFloor_le (m : Nat) (q k : Int) : value ⟨gridFloor m q k, k⟩ ≤ m * 2 ^ q := by
  have h := (le_quarterStep_iff q k (4 * m) (gridFloor m q k)).mp (Nat.div_mul_le_self _ _)
  rw [two_zpow_eq]
  push_cast at h
  linarith

theorem lt_gridFloor (m : Nat) (q k : Int) : m * 2 ^ q < value ⟨gridFloor m q k + 1, k⟩ := by
  have hper : 0 < (quarterStep q k).2 :=
    Nat.mul_pos (power_spec Nat.two_pos (q - 2)).2.1 (power_spec (show 0 < 10 by decide) k).1
  have h := (quarterStep_lt_iff q k (4 * m) (gridFloor m q k + 1)).mp
    (Nat.mul_comm _ (quarterStep q k).2 ▸ Nat.lt_mul_div_succ _ hper)
  rw [two_zpow_eq]
  push_cast at h
  linarith

theorem low_lt (m : Nat) (q : Int) : low m q < m * 2 ^ q := by
  have hbelow : (0 : ℚ) < quartersBelow m q := by exact_mod_cast quartersBelow_pos m q
  have hpos := mul_pos hbelow (two_zpow_pos (q - 2))
  rw [low, two_zpow_eq q]
  linarith

theorem lt_high (m : Nat) (q : Int) : m * 2 ^ q < high m q := by
  have hpos := two_zpow_pos (q - 2)
  rw [high, two_zpow_eq q]
  linarith

section

variable {m : Nat} (hm : 0 < m) {tie : Tie} {q k : Int}

include hm

theorem onGrid?_readsBack {d : Decimal} (h : onGrid? tie m q k = some d) :
    ReadsBack m q d.value := by
  obtain ⟨up, heq⟩ := onGrid?_eq tie m q k
  rw [heq] at h
  split at h
  next hf hn =>
    cases h
    cases up with
    | true => exact (testsBack_iff hm q k _).mp hn
    | false => exact (testsBack_iff hm q k _).mp hf
  next hf _ =>
    cases h
    exact (testsBack_iff hm q k _).mp hf
  next _ hn =>
    cases h
    exact (testsBack_iff hm q k _).mp hn
  next => cases h

/-- Where the steps of the decimal grid are shorter than what is read back as `m * 2 ^ q` is wide,
one of the points next to the number is read back. If neither were, the interval would fit between
two neighbouring points of the grid. -/
theorem onGrid?_isSome (hstep : (10 : ℚ) ^ k < high m q - low m q) :
    (onGrid? tie m q k).isSome := by
  have hle := gridFloor_le m q k
  have hlt := lt_gridFloor m q k
  have hgap : value ⟨gridFloor m q k + 1, k⟩ = value ⟨gridFloor m q k, k⟩ + 10 ^ k := by
    simp only [value]
    push_cast
    ring
  obtain ⟨up, heq⟩ := onGrid?_eq tie m q k
  rw [heq]
  split
  · rfl
  · rfl
  · rfl
  next hf hn =>
    have hfloor : value ⟨gridFloor m q k, k⟩ ≤ low m q := by
      by_contra h
      have hback := (testsBack_iff hm q k _).mpr
        (.of_lt (not_le.mp h) (hle.trans_lt (lt_high m q)))
      simp [hback] at hf
    have hnext : high m q ≤ value ⟨gridFloor m q k + 1, k⟩ := by
      by_contra h
      have hback := (testsBack_iff hm q k _).mpr (.of_lt ((low_lt m q).trans hlt) (not_le.mp h))
      simp [hback] at hn
    linarith

end

/-! ## The decimal that is chosen

More and more digits are tried, and the first count for which a point is read back is taken. So
there are two things to show: that what is taken is read back, which is how it was tested, and that
something is taken. -/

/-- The parts of a positive float: its mantissa has the leading bit, unless it is among the smallest
floats. These are the parts that a float has when it is taken apart. -/
structure Regular (m : Nat) (q : Int) : Prop where
  pos : 0 < m
  lt : m < 2 ^ 53
  least : -1074 ≤ q
  leading : q = -1074 ∨ 2 ^ 52 ≤ m

theorem pow_digitCount_le {n : Nat} (hn : 0 < n) : 10 ^ (digitCount n - 1) ≤ n := by
  rcases Nat.eq_zero_or_pos (digitCount n - 1) with hzero | hpos
  · rw [hzero]
    exact hn
  · by_contra h
    have hle : digitCount n ≤ digitCount n - 1 :=
      (Nat.length_toDigits_le_iff (by decide) hpos).mpr (not_le.mp h)
    omega

/-- The decimal places that are tried show the smallest float. -/
theorem pow_leadingPlaces_le : (10 : ℚ) ^ (-leadingPlaces : Int) ≤ 2 ^ (-1074 : Int) := by
  have hpow : 2 ^ 1074 ≤ 10 ^ leadingPlaces := by decide +kernel
  rw [zpow_neg, zpow_neg]
  apply inv_anti₀ (by positivity)
  exact_mod_cast hpow

theorem gridFloor_pos {m : Nat} {q : Int} (h : Regular m q) :
    0 < gridFloor m q (-leadingPlaces) := by
  rw [Nat.pos_iff_ne_zero]
  intro hzero
  have hlt := lt_gridFloor m q (-leadingPlaces)
  have hm : (1 : ℚ) ≤ m := by exact_mod_cast h.pos
  have hq : (2 : ℚ) ^ (-1074 : Int) ≤ 2 ^ q := zpow_le_zpow_right₀ one_le_two h.least
  have hone := pow_leadingPlaces_le
  have hnumber : (2 : ℚ) ^ (-1074 : Int) ≤ m * 2 ^ q := by
    rw [← one_mul ((2 : ℚ) ^ (-1074 : Int))]
    exact mul_le_mul hm hq (by positivity) (by positivity)
  simp only [hzero, value, Nat.zero_add, Nat.cast_one, one_mul] at hlt
  linarith

/-- The leading exponent is no greater than that of the number. -/
theorem pow_leadingExponent_le {m : Nat} {q : Int} (h : Regular m q) :
    (10 : ℚ) ^ leadingExponent m q ≤ m * 2 ^ q := by
  set n := gridFloor m q (-leadingPlaces) with hn
  have hcount : (10 : ℚ) ^ (digitCount n - 1) ≤ n := by
    exact_mod_cast pow_digitCount_le (gridFloor_pos h)
  have hexponent : leadingExponent m q = ((digitCount n - 1 : Nat) : Int) + (-leadingPlaces) := by
    have hlength : 0 < digitCount n := Nat.length_toDigits_pos
    show (digitCount n : Int) - 1 - leadingPlaces = _
    omega
  calc (10 : ℚ) ^ leadingExponent m q
      = 10 ^ (digitCount n - 1) * 10 ^ (-leadingPlaces : Int) := by
        rw [hexponent, zpow_add₀ (by norm_num), zpow_natCast]
    _ ≤ n * 10 ^ (-leadingPlaces : Int) := by gcongr
    _ ≤ m * 2 ^ q := gridFloor_le m q (-leadingPlaces)

/-- Seventeen digits are enough: where the mantissa is `2 ^ 52`, less is read back as the float, but
its digits stand for more. -/
theorem step_lt {m : Nat} {q : Int} (h : Regular m q) :
    (10 : ℚ) ^ (leadingExponent m q - 16) < high m q - low m q := by
  have hquarter := two_zpow_pos (q - 2)
  -- `4 * m` is less than `2 ^ 55` in general, and `2 ^ 54` where the interval is the narrow one
  have hm : (4 * m : ℚ) < (quartersBelow m q + 2) * 10 ^ 16 := by
    have hlt := h.lt
    have : 4 * m < (quartersBelow m q + 2) * 10 ^ 16 := by
      rw [quartersBelow]
      split
      next hpower =>
        rw [Bool.and_eq_true, decide_eq_true_eq] at hpower
        omega
      next => omega
    exact_mod_cast this
  calc (10 : ℚ) ^ (leadingExponent m q - 16)
      = 10 ^ leadingExponent m q / 10 ^ 16 := by
        rw [zpow_sub₀ (by norm_num)]
        rfl
    _ ≤ m * 2 ^ q / 10 ^ 16 := by
        have := pow_leadingExponent_le h
        gcongr
    _ = 4 * m / 10 ^ 16 * 2 ^ (q - 2) := by
        rw [two_zpow_eq]
        ring
    _ < (quartersBelow m q + 2) * 2 ^ (q - 2) := by
        have := (div_lt_iff₀ (by norm_num)).mpr hm
        gcongr
    _ = high m q - low m q := by
        rw [high, low]
        ring

theorem value_trimZeros (fuel : Nat) (d : Decimal) : (trimZeros fuel d).value = d.value := by
  induction fuel generalizing d with
  | zero => rfl
  | succ fuel ih =>
    rw [trimZeros]
    split
    next h =>
      rw [Bool.and_eq_true, decide_eq_true_eq, decide_eq_true_eq] at h
      have hdigits : (d.digits : ℚ) = (d.digits / 10 : Nat) * 10 := by
        have : d.digits = d.digits / 10 * 10 := by omega
        exact_mod_cast this
      rw [ih, value, value, hdigits, zpow_add_one₀ (by norm_num)]
      ring
    next => rfl

/-- The shortest decimal is read back as the float it is made for. Trailing zeros are taken off in
the end, and that does not change the value. -/
theorem shortest_readsBack (tie : Tie) {m : Nat} {q : Int} (h : Regular m q) :
    ReadsBack m q (shortest tie m q).value := by
  have hsome : ((List.range mostDigits).findSome? fun (more : Nat) =>
      onGrid? tie m q (leadingExponent m q - more)).isSome := by
    rw [List.findSome?_isSome_iff]
    exact ⟨16, by decide, onGrid?_isSome h.pos (step_lt h)⟩
  obtain ⟨d, hd⟩ := Option.isSome_iff_exists.mp hsome
  obtain ⟨more, -, hgrid⟩ := List.exists_of_findSome?_eq_some hd
  simp only [shortest, hd, Option.getD_some, value_trimZeros]
  exact onGrid?_readsBack h.pos hgrid

/-! ## No number is read back as two floats

The intervals of two floats do not overlap: that of the greater begins where that of the lesser ends
or later, and if both end there, only one of them has that end. So if the decimal of a float is read
back at all, it is as this float. -/

/-- What is read back as a positive float is positive. -/
theorem ReadsBack.pos {m : Nat} {q : Int} {v : ℚ} (hm : 0 < m) (h : ReadsBack m q v) : 0 < v := by
  have hlow : 0 < low m q := by
    have hbelow : (quartersBelow m q : ℚ) ≤ 2 := by exact_mod_cast quartersBelow_le m q
    have hone : (1 : ℚ) ≤ m := by exact_mod_cast hm
    exact mul_pos (by linarith) (two_zpow_pos _)
  exact hlow.trans_le h.low_le

/-- A float with a greater exponent has its leading bit, and steps that are twice as long at least.
So what is read back as it begins no sooner than here, behind all mantissas at the exponent `q`. -/
theorem le_low_of_exponent_lt {m : Nat} {q q' : Int} (h : Regular m q') (hq : q < q')
    (hleast : -1074 ≤ q) : (2 ^ 55 - 2 : ℚ) * 2 ^ (q - 2) ≤ low m q' := by
  have hbelow : 2 ^ 54 - 1 + quartersBelow m q' ≤ 4 * m := by
    have hleading := h.leading
    rw [quartersBelow]
    split
    next => omega
    next hother =>
      -- there are two quarters below every mantissa but the least, and that has one
      have hpower : m ≠ 1 <<< 52 := by
        rintro rfl
        rw [Bool.and_eq_true, decide_eq_true_eq, decide_eq_true_eq] at hother
        exact hother ⟨rfl, lt_of_le_of_lt hleast hq⟩
      omega
  have hquarters : (2 ^ 54 - 1 : ℚ) ≤ 4 * m - quartersBelow m q' := by
    have : ((2 ^ 54 - 1 + quartersBelow m q' : Nat) : ℚ) ≤ (4 * m : Nat) := by
      exact_mod_cast hbelow
    push_cast at this
    linarith
  have hsteps : (2 : ℚ) * 2 ^ (q - 2) ≤ 2 ^ (q' - 2) := by
    rw [← zpow_one_add₀ two_ne_zero]
    exact zpow_le_zpow_right₀ one_le_two (by omega)
  calc (2 ^ 55 - 2 : ℚ) * 2 ^ (q - 2) = (2 ^ 54 - 1) * (2 * 2 ^ (q - 2)) := by ring
    _ ≤ (2 ^ 54 - 1) * 2 ^ (q' - 2) := by gcongr
    _ ≤ low m q' := by
      rw [low]
      gcongr

/-- Of two floats, what is read back as the lesser lies below what is read back as the greater. The
two meet in a point at most, and then one of the mantissas is odd. -/
theorem high_le_low {m m' : Nat} {q q' : Int} (h : Regular m q) (h' : Regular m' q')
    (hlt : q < q' ∨ q = q' ∧ m < m') :
    high m q < low m' q' ∨ high m q ≤ low m' q' ∧ (m % 2 = 1 ∨ m' % 2 = 1) := by
  have hquarter := two_zpow_pos (q - 2)
  have hless := h.lt
  -- either the exponent is greater, or it is the same and the mantissa is greater
  rcases hlt with hq | ⟨rfl, hm⟩
  · have hlow := le_low_of_exponent_lt h' hq h.least
    by_cases hlast : m = 2 ^ 53 - 1
    · refine .inr ⟨le_trans ?_ hlow, .inl (by omega)⟩
      rw [high, hlast]
      gcongr
      norm_num
    · refine .inl (lt_of_lt_of_le ?_ hlow)
      have hm : (m : ℚ) + 2 ≤ 2 ^ 53 := by
        have : m + 2 ≤ 2 ^ 53 := by omega
        exact_mod_cast this
      rw [high]
      gcongr
      linarith
  · have hbelow : (quartersBelow m' q : ℚ) ≤ 2 := by exact_mod_cast quartersBelow_le m' q
    rw [high, low]
    by_cases hnext : m' = m + 1
    · -- half a step above the one and half a step below the other is the same point
      refine .inr ⟨?_, by omega⟩
      subst hnext
      gcongr
      push_cast
      linarith
    · left
      have : (m : ℚ) + 2 ≤ m' := by exact_mod_cast (by omega : m + 2 ≤ m')
      gcongr
      linarith

theorem not_readsBack_of_lt {m m' : Nat} {q q' : Int} {v : ℚ} (h : Regular m q)
    (h' : Regular m' q') (hlt : q < q' ∨ q = q' ∧ m < m') (hback : ReadsBack m q v) :
    ¬ ReadsBack m' q' v := by
  intro hback'
  have hhigh := hback.le_high
  have hlow := hback'.low_le
  rcases high_le_low h h' hlt with hless | ⟨hle, hodd | hodd⟩
  · linarith
  · have := (hback.strict hodd).2
    linarith
  · have := (hback'.strict hodd).1
    linarith

/-- Were the floats different, one would be less than the other. -/
theorem eq_of_readsBack {m m' : Nat} {q q' : Int} {v : ℚ} (h : Regular m q) (h' : Regular m' q')
    (hback : ReadsBack m q v) (hback' : ReadsBack m' q' v) : m = m' ∧ q = q' := by
  by_contra hne
  have hlt : (q < q' ∨ q = q' ∧ m < m') ∨ (q' < q ∨ q' = q ∧ m' < m) := by omega
  rcases hlt with hlt | hlt
  · exact not_readsBack_of_lt h h' hlt hback hback'
  · exact not_readsBack_of_lt h' h hlt hback' hback

end Decimal

end ThreeAddress
