import Mathlib
import ThreeAddress.Grammar
import ThreeAddress.Proofs.Scanning

/-!
# The text of a decimal

A text of digits, with a point or a power of ten, stands for a number (`Decimal.denoted`), and the
text of a decimal stands for that decimal, in any layout (`Decimal.textOf_decimalText`).
-/

set_option autoImplicit false

namespace ThreeAddress
namespace Decimal

open Token (digitsValue)

/-! ## What a text stands for

The meaning of a text is given without any layout, by how a text of this kind is read: digits,
digits behind a point, and a power of ten. That texts of a layout stand for their decimals is a
theorem then. -/

def value (d : Decimal) : ℚ := d.digits * 10 ^ d.scale

/-- The whole number with this sign and these digits. -/
def wholeValue : List Char → Int
  | '-' :: digits => -digitsValue digits
  | '+' :: digits => digitsValue digits
  | digits => digitsValue digits

/-- The digits behind a point, if there is one. -/
def fractionOf : List Char → List Char
  | '.' :: rest => rest.takeWhile Char.isDigit
  | _ => []

/-- The power of ten behind an `e`, if there is one. -/
def powerOf (cs : List Char) : Int :=
  match cs.dropWhile (· ≠ 'e') with
  | _ :: power => wholeValue power
  | [] => 0

/-- The number that a text stands for: digits, perhaps more of them behind a point, perhaps a power
of ten behind an `e`. It is total; for other texts it says something of no use. -/
def denoted (cs : List Char) : ℚ :=
  let whole := cs.takeWhile Char.isDigit
  let fraction := fractionOf (cs.dropWhile Char.isDigit)
  digitsValue (whole ++ fraction) * 10 ^ (powerOf cs - fraction.length)

section

variable {whole fraction power : List Char}

/-- Digits are taken up to the first character that is none. -/
theorem takeWhile_digits {c : Char} (hwhole : ∀ d ∈ whole, d.isDigit) (hc : c.isDigit = false)
    (rest : List Char) : (whole ++ c :: rest).takeWhile Char.isDigit = whole :=
  takeWhile_append_of_stop hwhole (by simpa using hc)

theorem dropWhile_digits {c : Char} (hwhole : ∀ d ∈ whole, d.isDigit) (hc : c.isDigit = false)
    (rest : List Char) : (whole ++ c :: rest).dropWhile Char.isDigit = c :: rest :=
  dropWhile_append_of_stop hwhole (by simpa using hc)

/-- Digits with a point among them: the digits behind it count as a negative power of ten. -/
theorem denoted_point (hwhole : ∀ d ∈ whole, d.isDigit) (hfraction : ∀ d ∈ fraction, d.isDigit) :
    denoted (whole ++ '.' :: fraction) =
      digitsValue (whole ++ fraction) * 10 ^ (-fraction.length : Int) := by
  have hpower : powerOf (whole ++ '.' :: fraction) = 0 := by
    have hdrop : (whole ++ '.' :: fraction).dropWhile (· ≠ 'e') = [] := by
      rw [List.dropWhile_eq_nil_iff]
      intro c hc
      rcases List.mem_append.mp hc with hc | hc
      · simpa using ne_of_isDigit (hwhole c hc) (d := 'e') rfl
      · rcases List.mem_cons.mp hc with rfl | hc
        · decide
        · simpa using ne_of_isDigit (hfraction c hc) (d := 'e') rfl
    rw [powerOf, hdrop]
  rw [denoted, takeWhile_digits hwhole (by decide), dropWhile_digits hwhole (by decide), hpower]
  simp [fractionOf, List.takeWhile_eq_self_iff.mpr hfraction]

/-- The power begins behind the first `e`, and there is none before. -/
theorem powerOf_append {cs : List Char} (h : ∀ c ∈ cs, c ≠ 'e') (power : List Char) :
    powerOf (cs ++ 'e' :: power) = wholeValue power := by
  rw [powerOf, List.dropWhile_append_of_pos (by simpa using h),
    List.dropWhile_cons_of_neg (by decide)]

theorem denoted_power (hwhole : ∀ d ∈ whole, d.isDigit) :
    denoted (whole ++ 'e' :: power) = digitsValue whole * 10 ^ wholeValue power := by
  rw [denoted, takeWhile_digits hwhole (by decide), dropWhile_digits hwhole (by decide),
    powerOf_append fun c hc => ne_of_isDigit (hwhole c hc) rfl]
  simp [fractionOf]

theorem denoted_point_power (hwhole : ∀ d ∈ whole, d.isDigit)
    (hfraction : ∀ d ∈ fraction, d.isDigit) :
    denoted (whole ++ '.' :: (fraction ++ 'e' :: power)) =
      digitsValue (whole ++ fraction) * 10 ^ (wholeValue power - fraction.length) := by
  have hpower : powerOf (whole ++ '.' :: (fraction ++ 'e' :: power)) = wholeValue power := by
    rw [← List.cons_append, ← List.append_assoc]
    apply powerOf_append
    intro c hc
    rcases List.mem_append.mp hc with hc | hc
    · exact ne_of_isDigit (hwhole c hc) rfl
    · rcases List.mem_cons.mp hc with rfl | hc
      · decide
      · exact ne_of_isDigit (hfraction c hc) rfl
  rw [denoted, takeWhile_digits hwhole (by decide), dropWhile_digits hwhole (by decide), hpower,
    fractionOf, takeWhile_digits hfraction (by decide)]

end

/-! ### Digits and zeros -/

theorem digitsValue_append (cs ds : List Char) :
    digitsValue (cs ++ ds) = Nat.ofDigitChars 10 ds (digitsValue cs) :=
  Nat.ofDigitChars_append 0

theorem digitsValue_toDigits (n : Nat) : digitsValue (Nat.toDigits 10 n) = n :=
  Nat.ofDigitChars_toDigits (by decide) (by decide)

theorem isDigit_toDigits (n : Nat) : ∀ c ∈ Nat.toDigits 10 n, c.isDigit :=
  fun _ hc => Nat.isDigit_of_mem_toDigits (by decide) (by decide) hc

theorem isDigit_replicate_zero (n : Nat) : ∀ c ∈ List.replicate n '0', c.isDigit := by
  intro c hc
  rw [List.eq_of_mem_replicate hc]
  decide

theorem ofDigitChars_zeros (n start : Nat) :
    Nat.ofDigitChars 10 (List.replicate n '0') start = start * 10 ^ n := by
  induction n generalizing start with
  | zero => simp
  | succ n ih =>
    rw [List.replicate_succ, Nat.ofDigitChars_cons, ih, Nat.pow_succ']
    simp only [Nat.sub_self, Nat.add_zero]
    ring

/-- Zeros behind the digits are a power of ten, and zeros before them are nothing. -/
theorem digitsValue_append_zeros (cs : List Char) (n : Nat) :
    digitsValue (cs ++ List.replicate n '0') = digitsValue cs * 10 ^ n := by
  rw [digitsValue_append, ofDigitChars_zeros]

theorem digitsValue_zeros_append (n : Nat) (cs : List Char) :
    digitsValue (List.replicate n '0' ++ cs) = digitsValue cs := by
  rw [digitsValue_append, digitsValue, ofDigitChars_zeros, Nat.zero_mul]
  rfl

theorem toList_wholeText (n : Int) :
    (Layout.wholeText n).toList =
      match n with
      | .ofNat n => Nat.toDigits 10 n
      | .negSucc n => '-' :: Nat.toDigits 10 (n + 1) := by
  cases n with
  | ofNat n => exact Nat.toList_repr
  | negSucc n =>
    rw [Layout.wholeText, String.toList_append, Nat.toList_repr]
    rfl

theorem wholeValue_digits {cs : List Char} (h : ∀ c ∈ cs, c.isDigit) :
    wholeValue cs = digitsValue cs := by
  rw [wholeValue.eq_def]
  split
  · exact absurd (h _ List.mem_cons_self) (by decide)
  · exact absurd (h _ List.mem_cons_self) (by decide)
  · rfl

theorem wholeValue_wholeText (n : Int) : wholeValue (Layout.wholeText n).toList = n := by
  rw [toList_wholeText]
  cases n with
  | ofNat n => rw [wholeValue_digits (isDigit_toDigits n), digitsValue_toDigits]; rfl
  | negSucc n => simp only [wholeValue, digitsValue_toDigits]; omega

/-! ### The text of a decimal -/

/-- The text spells the number: digits, and behind them more digits after a point, a power of ten,
or both. The value is an index, so a proof that some text spells some decimal is a calculation with
this value. -/
inductive TextOf : List Char → ℚ → Prop
  | point {whole fraction : List Char} (hwhole : ∀ c ∈ whole, c.isDigit)
      (hfraction : ∀ c ∈ fraction, c.isDigit) (hne : whole ≠ []) :
      TextOf (whole ++ '.' :: fraction)
        (digitsValue (whole ++ fraction) * 10 ^ (-fraction.length : Int))
  | power {whole power : List Char} (hwhole : ∀ c ∈ whole, c.isDigit)
      (hpower : ∀ c ∈ power, c.isDigit ∨ c = '-' ∨ c = '+') (hne : whole ≠ []) :
      TextOf (whole ++ 'e' :: power) (digitsValue whole * 10 ^ wholeValue power)
  | pointPower {whole fraction power : List Char} (hwhole : ∀ c ∈ whole, c.isDigit)
      (hfraction : ∀ c ∈ fraction, c.isDigit)
      (hpower : ∀ c ∈ power, c.isDigit ∨ c = '-' ∨ c = '+') (hne : whole ≠ []) :
      TextOf (whole ++ '.' :: (fraction ++ 'e' :: power))
        (digitsValue (whole ++ fraction) * 10 ^ (wholeValue power - fraction.length))

theorem TextOf.denoted {cs : List Char} {v : ℚ} (h : TextOf cs v) : denoted cs = v := by
  cases h with
  | point hwhole hfraction hne => exact denoted_point hwhole hfraction
  | power hwhole hpower hne => exact denoted_power hwhole
  | pointPower hwhole hfraction hpower hne => exact denoted_point_power hwhole hfraction

/-- The text begins with a digit. There is always a digit before the point, also of a number below
one. -/
theorem TextOf.exists_digit {cs : List Char} {v : ℚ} (h : TextOf cs v) :
    ∃ c rest, cs = c :: rest ∧ c.isDigit := by
  have hfirst {whole rest : List Char} (hwhole : ∀ c ∈ whole, c.isDigit) (hne : whole ≠ []) :
      ∃ c rest', whole ++ rest = c :: rest' ∧ c.isDigit := by
    obtain ⟨c, more, rfl⟩ := List.exists_cons_of_ne_nil hne
    exact ⟨c, more ++ rest, rfl, hwhole c List.mem_cons_self⟩
  cases h with
  | point hwhole hfraction hne => exact hfirst hwhole hne
  | power hwhole hpower hne => exact hfirst hwhole hne
  | pointPower hwhole hfraction hpower hne => exact hfirst hwhole hne

/-- The text shows that it is not that of an integer. -/
theorem TextOf.mem_mark {cs : List Char} {v : ℚ} (h : TextOf cs v) : '.' ∈ cs ∨ 'e' ∈ cs := by
  cases h <;> simp

theorem TextOf.blank_notMem {cs : List Char} {v : ℚ} (h : TextOf cs v) : ' ' ∉ cs := by
  have hdigits {ds : List Char} (hds : ∀ c ∈ ds, c.isDigit) : ' ' ∉ ds :=
    fun hmem => absurd (hds _ hmem) (by decide)
  have hpowers {ds : List Char} (hds : ∀ c ∈ ds, c.isDigit ∨ c = '-' ∨ c = '+') : ' ' ∉ ds :=
    fun hmem => absurd (hds _ hmem) (by decide)
  cases h with
  | point hwhole hfraction hne => simp [hdigits hwhole, hdigits hfraction]
  | power hwhole hpower hne => simp [hdigits hwhole, hpowers hpower]
  | pointPower hwhole hfraction hpower hne =>
    simp [hdigits hwhole, hdigits hfraction, hpowers hpower]

theorem isPower_wholeText (n : Int) :
    ∀ c ∈ (Layout.wholeText n).toList, c.isDigit ∨ c = '-' ∨ c = '+' := by
  intro c hc
  rw [toList_wholeText] at hc
  cases n with
  | ofNat n => exact .inl (isDigit_toDigits n c hc)
  | negSucc n =>
    rcases List.mem_cons.mp hc with rfl | hc
    · exact .inr (.inl rfl)
    · exact .inl (isDigit_toDigits _ c hc)

/-- The power of ten of a text, with a sign where the layout wants one. Only a power that is not
negative can have a plus. -/
def powerText (layout : Layout) (power : Int) : List Char :=
  (if layout.plusSign && 0 ≤ power then ['+'] else []) ++ (Layout.wholeText power).toList

theorem isPower_powerText (layout : Layout) (power : Int) :
    ∀ c ∈ powerText layout power, c.isDigit ∨ c = '-' ∨ c = '+' := by
  intro c hc
  rw [powerText] at hc
  rcases List.mem_append.mp hc with hc | hc
  · split at hc
    · exact .inr (.inr (List.mem_singleton.mp hc))
    · cases hc
  · exact isPower_wholeText power c hc

theorem wholeValue_powerText (layout : Layout) (power : Int) :
    wholeValue (powerText layout power) = power := by
  rw [powerText]
  split
  next h =>
    rw [Bool.and_eq_true, decide_eq_true_eq] at h
    obtain ⟨n, rfl⟩ := Int.eq_ofNat_of_zero_le h.2
    have htext : (Layout.wholeText n).toList = Nat.toDigits 10 n := toList_wholeText (.ofNat n)
    rw [htext]
    show ((digitsValue (Nat.toDigits 10 n) : Nat) : Int) = n
    rw [digitsValue_toDigits]
  next => exact wholeValue_wholeText power

section

variable {digits : List Char} (hdigits : ∀ c ∈ digits, c.isDigit)

include hdigits

theorem isDigit_take (n : Nat) : ∀ c ∈ digits.take n, c.isDigit :=
  fun c hc => hdigits c (List.mem_of_mem_take hc)

theorem isDigit_drop (n : Nat) : ∀ c ∈ digits.drop n, c.isDigit :=
  fun c hc => hdigits c (List.mem_of_mem_drop hc)

/-- A whole number, with zeros behind its digits. -/
theorem textOf_whole (hne : digits ≠ []) (n : Nat) :
    TextOf (digits ++ List.replicate n '0' ++ ['.', '0'])
      (digitsValue digits * 10 ^ (n : Int)) := by
  have hwhole : ∀ c ∈ digits ++ List.replicate n '0', c.isDigit := by
    intro c hc
    exact (List.mem_append.mp hc).elim (hdigits c) (isDigit_replicate_zero n c)
  have h := TextOf.point hwhole (isDigit_replicate_zero 1) (by simp [hne])
  rw [digitsValue_append_zeros, digitsValue_append_zeros] at h
  simpa using h

/-- A point behind the first digits. -/
theorem textOf_mixed (hne : digits ≠ []) {whole : Nat} (hwhole : 0 < whole) :
    TextOf (digits.take whole ++ '.' :: digits.drop whole)
      (digitsValue digits * 10 ^ (-(digits.length - whole : Nat) : Int)) := by
  have h := TextOf.point (isDigit_take hdigits whole) (isDigit_drop hdigits whole)
    (by simp [hne, hwhole.ne'])
  rwa [List.take_append_drop, List.length_drop] at h

/-- A number below one. -/
theorem textOf_small (n : Nat) :
    TextOf ('0' :: '.' :: (List.replicate n '0' ++ digits))
      (digitsValue digits * 10 ^ (-(n + digits.length : Nat) : Int)) := by
  have hfraction : ∀ c ∈ List.replicate n '0' ++ digits, c.isDigit := by
    intro c hc
    exact (List.mem_append.mp hc).elim (isDigit_replicate_zero n c) (hdigits c)
  have h := TextOf.point (isDigit_replicate_zero 1) hfraction (by simp)
  rwa [digitsValue_zeros_append, digitsValue_zeros_append, List.length_append,
    List.length_replicate] at h

/-- A digit, the others behind a point, and a power of ten. -/
theorem textOf_scientific (hne : digits ≠ []) {power : List Char}
    (hpower : ∀ c ∈ power, c.isDigit ∨ c = '-' ∨ c = '+') :
    TextOf (digits.take 1 ++ (if digits.length ≤ 1 then [] else '.' :: digits.drop 1) ++
        'e' :: power)
      (digitsValue digits * 10 ^ (wholeValue power - (digits.length - 1 : Nat))) := by
  split
  next hone =>
    obtain ⟨c, rfl⟩ := List.length_eq_one_iff.mp
      (Nat.le_antisymm hone (List.length_pos_of_ne_nil hne))
    simpa using TextOf.power hdigits hpower hne
  next hmore =>
    have h := TextOf.pointPower (isDigit_take hdigits 1) (isDigit_drop hdigits 1) hpower
      (by simp [hne])
    rw [List.take_append_drop, List.length_drop] at h
    simpa using h

end

/-- Each of the four layouts of the digits spells the decimal. They differ in where the point stands
and in what is put in for places without digits. -/
theorem textOf_decimalText (layout : Layout) (d : Decimal) :
    TextOf (layout.decimalText d).toList d.value := by
  have hdigits := isDigit_toDigits d.digits
  have hvalue := digitsValue_toDigits d.digits
  have hlength : 0 < (Nat.toDigits 10 d.digits).length := Nat.length_toDigits_pos
  rw [value, ← hvalue, Layout.decimalText]
  generalize Nat.toDigits 10 d.digits = digits at hdigits hlength
  have hne : digits ≠ [] := List.ne_nil_of_length_pos hlength
  dsimp only
  generalize hleading : d.scale + digits.length - 1 = leading
  -- written out or with a power of ten; and written out, by where the point comes to stand
  split
  · split
    next hscale =>
      obtain ⟨n, hn⟩ := Int.eq_ofNat_of_zero_le hscale
      simpa [hn, Layout.zeros] using textOf_whole hdigits hne n
    next hscale =>
      split
      next hwhole =>
        have h := textOf_mixed hdigits hne (Nat.succ_pos leading.toNat)
        rw [show (-((digits.length - (leading.toNat + 1) : Nat) : Int)) = d.scale by omega] at h
        simpa using h
      next hsmall =>
        have h := textOf_small hdigits (-leading - 1).toNat
        rw [show (-(((-leading - 1).toNat + digits.length : Nat) : Int)) = d.scale by omega] at h
        simpa [Layout.zeros] using h
  · have hpower : (if layout.plusSign && 0 ≤ leading then "+" else "").toList ++
        (Layout.wholeText leading).toList = powerText layout leading := by
      rw [powerText]
      split <;> rfl
    have h := textOf_scientific hdigits hne (isPower_powerText layout leading)
    rw [wholeValue_powerText,
      show leading - ((digits.length - 1 : Nat) : Int) = d.scale by omega] at h
    simp only [String.toList_append, String.toList_ofList, List.append_assoc, hpower]
    split at h
    next hone => simpa [hone] using h
    next hmore => simpa [hmore] using h

end Decimal

end ThreeAddress
