import Mathlib.Data.List.TakeWhile
import ThreeAddress.Token.Scan

/-!
# How a text is cut

What names are, and where tokens stand: each has a character, and they stand one behind the other,
so a range picks out the tokens between two of them.

A token is the longest that its first characters can begin. So what a word is cut into depends on
what stands behind it, and the lemmas about single words ask that this goes on with none of them
(`EndsWord`).
-/

set_option autoImplicit false

namespace ThreeAddress

/-! ## Names

A name is spelled with letters, digits and underscores of the basic alphabet, the first of them no
digit. What a letter is said to be by Unicode does not matter. -/

/-- The spelling of a name: a letter or an underscore, and then also digits. -/
def IsName : List Char → Prop
  | [] => False
  | c :: rest => isNameStart c ∧ ∀ d ∈ rest, isNameRest d

instance : DecidablePred IsName
  | [] => inferInstanceAs (Decidable False)
  | c :: rest =>
    have := List.decidableBAll (fun d => isNameRest d = true) rest
    inferInstanceAs (Decidable (isNameStart c ∧ ∀ d ∈ rest, isNameRest d))

theorem isNameRest_of_isNameStart {c : Char} (h : isNameStart c) : isNameRest c := by
  simp only [isNameStart, isNameRest, Char.isAlphanum, Bool.or_eq_true, decide_eq_true_eq] at h ⊢
  rcases h with h | h
  · exact .inl (.inl h)
  · exact .inr h

theorem isNameStart_iff {c : Char} :
    isNameStart c ↔ ('A' ≤ c ∧ c ≤ 'Z') ∨ ('a' ≤ c ∧ c ≤ 'z') ∨ c = '_' := by
  have halpha : c.isAlpha = (decide ('A'.val ≤ c.val ∧ c.val ≤ 'Z'.val) ||
      (decide ('a'.val ≤ c.val) && decide (c.val ≤ 'z'.val))) := rfl
  simp only [isNameStart, halpha, Bool.or_eq_true, Bool.and_eq_true, decide_eq_true_iff,
    Char.le_def, or_assoc]

theorem isDigit_of_isNameStart {c : Char} (h : isNameStart c) : c.isDigit = false := by
  rw [Bool.eq_false_iff]
  intro hdigit
  simp only [Char.isDigit, Bool.and_eq_true, decide_eq_true_eq, UInt32.le_iff_toNat_le, ge_iff_le]
    at hdigit
  simp only [isNameStart_iff, Char.le_def, UInt32.le_iff_toNat_le] at h
  -- digits come before all letters and the underscore in the order of code points
  rcases h with h | h | rfl
  · have hnine : '9'.val.toNat < 'A'.val.toNat := by decide
    omega
  · have hnine : '9'.val.toNat < 'a'.val.toNat := by decide
    omega
  · revert hdigit
    decide

theorem IsName.isNameRest {cs : List Char} (h : IsName cs) {c : Char} (hc : c ∈ cs) :
    isNameRest c := by
  cases cs with
  | nil => exact h.elim
  | cons d rest =>
    rcases List.mem_cons.mp hc with rfl | hc
    · exact isNameRest_of_isNameStart h.1
    · exact h.2 c hc

theorem IsName.concat {cs : List Char} (h : IsName cs) {c : Char}
    (hc : ThreeAddress.isNameRest c) : IsName (cs ++ [c]) := by
  cases cs with
  | nil => exact h.elim
  | cons d rest =>
    refine ⟨h.1, ?_⟩
    intro e he
    rcases List.mem_append.mp he with he | he
    · exact h.2 e he
    · rw [List.mem_singleton.mp he]
      exact hc

/-! ## Where tokens stand

`scanFrom` goes through the characters one at a time and counts down those that the last token has
taken. So a proof is by induction on the characters, and where nothing is to be skipped there is a
token. -/

/-- The range holds all of the other. -/
def Span.Covers (outer inner : Span) : Prop :=
  outer.start ≤ inner.start ∧ inner.stop ≤ outer.stop

instance (outer inner : Span) : Decidable (outer.Covers inner) :=
  inferInstanceAs (Decidable (_ ∧ _))

namespace Token

namespace InRow

variable {tokens pre core post : List Token} {first last t : Token}

end InRow

end Token

/-! ## Single tokens

What the longest token at a place is depends on the text behind it as well. The lemmas take the word
and the rest apart and ask of the rest that its first character does not go on with the word. -/

/-- A text that may stand behind a word without being taken for a part of it. A point would make a
float of an integer, and so it does not end one. -/
def EndsWord (rest : List Char) : Prop := ∀ c ∈ rest.head?, isNameRest c = false ∧ c ≠ '.'

theorem endsWord_nil : EndsWord [] := by
  intro c hc
  cases hc

theorem endsWord_cons {c : Char} (h : isNameRest c = false ∧ c ≠ '.') (rest : List Char) :
    EndsWord (c :: rest) := by
  intro d hd
  obtain rfl : c = d := Option.some.inj hd
  exact h

/-- The characters of a class are taken up to the end of the word, if the next one is not of the
class. -/
theorem takeWhile_append_of_stop {p : Char → Bool} {word rest : List Char}
    (hword : ∀ c ∈ word, p c) (hrest : ∀ c ∈ rest.head?, p c = false) :
    (word ++ rest).takeWhile p = word := by
  rw [List.takeWhile_append_of_pos hword]
  cases rest with
  | nil => rw [List.takeWhile_nil, List.append_nil]
  | cons c rest => rw [List.takeWhile_cons_of_neg (by simpa using hrest c rfl), List.append_nil]

theorem dropWhile_append_of_stop {p : Char → Bool} {word rest : List Char}
    (hword : ∀ c ∈ word, p c) (hrest : ∀ c ∈ rest.head?, p c = false) :
    (word ++ rest).dropWhile p = rest := by
  rw [List.dropWhile_append_of_pos hword]
  cases rest with
  | nil => rfl
  | cons c rest => rw [List.dropWhile_cons_of_neg (by simpa using hrest c rfl)]

theorem EndsWord.not_isNameRest {rest : List Char} (h : EndsWord rest) :
    ∀ c ∈ rest.head?, isNameRest c = false :=
  fun c hc => (h c hc).1

theorem EndsWord.not_isDigit {rest : List Char} (h : EndsWord rest) :
    ∀ c ∈ rest.head?, c.isDigit = false := by
  intro c hc
  have hrest := h.not_isNameRest c hc
  simp only [isNameRest, Char.isAlphanum, Bool.or_eq_false_iff] at hrest
  exact hrest.1.2

/-- A class of characters without line ends. A class is given by its test, which need only be tried
on the two characters. -/
theorem isLineEnd_eq_false {c : Char} (p : Char → Bool) (hfeed : p '\n' = false)
    (hreturn : p '\r' = false) (h : p c) : isLineEnd c = false := by
  rw [Bool.eq_false_iff]
  intro hend
  simp only [isLineEnd, Bool.or_eq_true, decide_eq_true_eq] at hend
  rcases hend with rfl | rfl
  · exact absurd h (by rw [hfeed]; decide)
  · exact absurd h (by rw [hreturn]; decide)

/-- A class of characters without blanks. -/
theorem isBlank_eq_false {c : Char} (p : Char → Bool) (hspace : p ' ' = false)
    (htab : p '\t' = false) (hfeed : p '\x0c' = false) (h : p c) : isBlank c = false := by
  rw [Bool.eq_false_iff]
  intro hblank
  simp only [isBlank, Bool.or_eq_true, decide_eq_true_eq] at hblank
  rcases hblank with (rfl | rfl) | rfl
  · exact absurd h (by rw [hspace]; decide)
  · exact absurd h (by rw [htab]; decide)
  · exact absurd h (by rw [hfeed]; decide)

theorem isLineEnd_of_isNameStart {c : Char} (h : isNameStart c) : isLineEnd c = false :=
  isLineEnd_eq_false isNameStart (by decide) (by decide) h

theorem isBlank_of_isNameStart {c : Char} (h : isNameStart c) : isBlank c = false :=
  isBlank_eq_false isNameStart (by decide) (by decide) (by decide) h

theorem isLineEnd_of_isDigit {c : Char} (h : c.isDigit) : isLineEnd c = false :=
  isLineEnd_eq_false Char.isDigit (by decide) (by decide) h

theorem isBlank_of_isDigit {c : Char} (h : c.isDigit) : isBlank c = false :=
  isBlank_eq_false Char.isDigit (by decide) (by decide) (by decide) h

theorem ne_of_isDigit {c d : Char} (hc : c.isDigit) (hd : d.isDigit = false) : c ≠ d := by
  rintro rfl
  rw [hd] at hc
  cases hc

theorem isNameStart_of_isDigit {c : Char} (h : c.isDigit) : isNameStart c = false := by
  rw [Bool.eq_false_iff]
  intro hstart
  rw [isDigit_of_isNameStart hstart] at h
  cases h

namespace TokenKind

variable {c : Char} {word digits' fraction rest : List Char}

theorem munch_name (hc : isNameStart c) (hword : ∀ d ∈ word, isNameRest d)
    (hrest : EndsWord rest) : munch c (word ++ rest) = (name, word.length) := by
  rw [munch, isLineEnd_of_isNameStart hc, isBlank_of_isNameStart hc, if_neg Bool.false_ne_true,
    if_neg Bool.false_ne_true, if_pos hc, takeWhile_append_of_stop hword hrest.not_isNameRest]

/-- A token that begins with a digit is an integer or a float. -/
theorem munch_of_isDigit (hc : c.isDigit) (hdrop : rest.dropWhile Char.isDigit = fraction)
    (hint : ∀ more, fraction ≠ '.' :: more) : munch c rest = (int, digits rest) := by
  simp only [munch, isLineEnd_of_isDigit hc, isBlank_of_isDigit hc, isNameStart_of_isDigit hc, hc,
    hdrop, Bool.false_eq_true, if_false, if_true]

theorem munch_of_isDigit_point (hc : c.isDigit)
    (hdrop : rest.dropWhile Char.isDigit = '.' :: fraction) :
    munch c rest = (float, digits rest + 1 + digits fraction) := by
  simp only [munch, isLineEnd_of_isDigit hc, isBlank_of_isDigit hc, isNameStart_of_isDigit hc, hc,
    hdrop, Bool.false_eq_true, if_false, if_true]

/-- Digits with no point behind them are an integer, and all of them are taken. -/
theorem munch_int (hc : c.isDigit) (hword : ∀ d ∈ word, d.isDigit) (hrest : EndsWord rest) :
    munch c (word ++ rest) = (int, word.length) := by
  have hpoint : ∀ more, rest ≠ '.' :: more := by
    rintro more rfl
    exact (hrest '.' rfl).2 rfl
  rw [munch_of_isDigit hc (dropWhile_append_of_stop hword hrest.not_isDigit) hpoint, digits,
    takeWhile_append_of_stop hword hrest.not_isDigit]

/-- Digits, a point and digits are a float; the digits behind the point may be missing. -/
theorem munch_point (hc : c.isDigit) (hdigits : ∀ d ∈ digits', d.isDigit)
    (hfraction : ∀ d ∈ fraction, d.isDigit) (hrest : EndsWord rest) :
    munch c (digits' ++ '.' :: fraction ++ rest) =
      (float, (digits' ++ '.' :: fraction).length) := by
  have hpoint : ∀ d ∈ ('.' :: (fraction ++ rest)).head?, d.isDigit = false := by
    intro d hd
    obtain rfl : '.' = d := Option.some.inj hd
    decide
  rw [List.append_assoc, List.cons_append,
    munch_of_isDigit_point hc (dropWhile_append_of_stop hdigits hpoint), digits, digits,
    takeWhile_append_of_stop hdigits hpoint, takeWhile_append_of_stop hfraction hrest.not_isDigit,
    List.length_append, List.length_cons, Nat.add_assoc, Nat.add_comm 1]

/-- A float whose text begins with its point. -/
theorem munch_bare_point (hfraction : ∀ d ∈ fraction, d.isDigit) (hne : fraction ≠ [])
    (hrest : EndsWord rest) : munch '.' (fraction ++ rest) = (float, fraction.length) := by
  have hdigits : digits (fraction ++ rest) = fraction.length := by
    rw [digits, takeWhile_append_of_stop hfraction hrest.not_isDigit]
  have hlength : fraction.length ≠ 0 := mt List.eq_nil_of_length_eq_zero hne
  show (if '.' = '.' && digits (fraction ++ rest) ≠ 0 then (float, digits (fraction ++ rest))
    else _) = _
  rw [hdigits, if_pos (by simpa using hlength)]

theorem kind_ne_float_of_mem_spellings {spelling : List Char × TokenKind}
    (h : spelling ∈ spellings) : spelling.2 ≠ float := by
  revert spelling
  decide

theorem isDigit_of_length_le_digits {cs : List Char} (h : cs.length ≤ digits cs) :
    ∀ d ∈ cs, d.isDigit := by
  have htake : cs.takeWhile Char.isDigit <+: cs := List.takeWhile_prefix Char.isDigit
  have heq := htake.eq_of_length (Nat.le_antisymm htake.length_le h)
  exact List.takeWhile_eq_self_iff.mp heq

/-- A text that is one float is so in front of what ends a word, too. It begins with a digit or with
its point. Both are taken apart as the definition does, and read again with the rest behind them. -/
theorem munch_float {more : Nat} (h : munch c word = (float, more)) (hmore : word.length ≤ more)
    (hrest : EndsWord rest) :
    munch c (word ++ rest) = (float, word.length) ∧ (c.isDigit ∨ c = '.') := by
  unfold munch at h
  split at h
  next => cases h
  split at h
  next => cases h
  split at h
  next => cases h
  split at h
  next hdigit =>
    split at h
    next fraction hdrop =>
      have hsplit : word = word.takeWhile Char.isDigit ++ '.' :: fraction := by
        rw [← hdrop, List.takeWhile_append_dropWhile]
      have hdigits : ∀ d ∈ word.takeWhile Char.isDigit, d.isDigit := by
        intro d hd
        exact List.mem_takeWhile_imp hd
      have hfraction : ∀ d ∈ fraction, d.isDigit := by
        apply isDigit_of_length_le_digits
        have hlength := congrArg List.length hsplit
        rw [List.length_append, List.length_cons] at hlength
        have hcount : digits word + 1 + digits fraction = more := (Prod.mk.inj h).2
        rw [digits] at hcount
        omega
      refine ⟨?_, .inl hdigit⟩
      rw [hsplit]
      exact munch_point hdigit hdigits hfraction hrest
    next => cases h
  split at h
  next hpoint =>
    simp only [Bool.and_eq_true, decide_eq_true_eq] at hpoint
    obtain ⟨rfl, hne⟩ := hpoint
    have hcount : digits word = more := (Prod.mk.inj h).2
    have hword := isDigit_of_length_le_digits (by rwa [hcount])
    refine ⟨munch_bare_point hword ?_ hrest, .inr rfl⟩
    rintro rfl
    exact hne rfl
  next =>
    -- no fixed spelling is a float, and neither is a symbol
    split at h
    next spelled kind hfind =>
      have hkind : kind = float := (Prod.mk.inj h).1
      exact (kind_ne_float_of_mem_spellings (List.mem_of_find?_eq_some hfind) hkind).elim
    next => cases h

theorem munch_openParen (rest : List Char) : munch '(' rest = (openParen, 0) := rfl

theorem munch_closeParen (rest : List Char) : munch ')' rest = (closeParen, 0) := rfl

theorem munch_assign (rest : List Char) : munch '=' (' ' :: rest) = (assign, 0) := rfl

theorem munch_blank (hc : isBlank c = false) (rest : List Char) :
    munch ' ' (c :: rest) = (whitespace, 0) := by
  have htake : (c :: rest).takeWhile isBlank = [] :=
    List.takeWhile_cons_of_neg (by rw [hc]; exact Bool.false_ne_true)
  show (whitespace, ((c :: rest).takeWhile isBlank).length) = _
  rw [htake]
  rfl

theorem munch_lineEnd (hc : isLineEnd c = false) (rest : List Char) :
    munch '\n' (c :: rest) = (newLine, 0) := by
  have htake : (c :: rest).takeWhile isLineEnd = [] :=
    List.takeWhile_cons_of_neg (by rw [hc]; exact Bool.false_ne_true)
  show (newLine, ((c :: rest).takeWhile isLineEnd).length) = _
  rw [htake]
  rfl

end TokenKind

/-! ## Words of a text

A text that is known from the left is scanned word by word. Each lemma gives the next token and the
place from which on the rest is scanned. -/

namespace Token

variable {c : Char} {word rest : List Char} {kind : TokenKind}

/-- Skipping characters is leaving them out. -/
theorem scanFrom_drop (offset skip : Nat) (cs : List Char) :
    scanFrom offset skip cs = scanFrom offset 0 (cs.drop skip) := by
  induction cs generalizing skip with
  | nil => rw [List.drop_nil]; rfl
  | cons c rest ih =>
    cases skip with
    | zero => rfl
    | succ skip => exact ih skip

theorem length_le_of_scanFrom_eq_nil {offset skip : Nat} {cs : List Char}
    (h : scanFrom offset skip cs = []) : cs.length ≤ skip := by
  rw [scanFrom_drop] at h
  cases hrest : cs.drop skip with
  | nil => exact List.drop_eq_nil_iff.mp hrest
  | cons c rest =>
    rw [hrest] at h
    cases h

/-- A word is cut off as its token. Its place is given by the offset and its bytes, and the rest is
scanned from where it stops. -/
theorem scanFrom_word (h : TokenKind.munch c (word ++ rest) = (kind, word.length)) (offset : Nat) :
    ∃ token stop, scanFrom offset 0 (c :: (word ++ rest)) = token :: scanFrom stop 0 rest ∧
      token.kind = kind ∧ token.lexeme = String.ofList (c :: word) := by
  let stop := offset + (String.ofList (c :: word)).utf8ByteSize
  refine ⟨⟨kind, String.ofList (c :: word), ⟨offset, stop⟩⟩, stop, ?_, rfl, rfl⟩
  rw [scanFrom, h]
  dsimp only
  rw [List.take_left, scanFrom_drop _ word.length, List.drop_left]

/-- A character that is a word for itself. -/
theorem scanFrom_mark (h : TokenKind.munch c rest = (kind, 0)) (offset : Nat) :
    ∃ token stop, scanFrom offset 0 (c :: rest) = token :: scanFrom stop 0 rest ∧
      token.kind = kind := by
  obtain ⟨token, stop, hscan, hkind, -⟩ := @scanFrom_word c [] rest kind h offset
  exact ⟨token, stop, hscan, hkind⟩

/-- A name is cut off as one token, if what stands behind it does not go on with it. -/
theorem scanFrom_name {cs : List Char} (h : IsName cs) (hrest : EndsWord rest) (offset : Nat) :
    ∃ token stop, scanFrom offset 0 (cs ++ rest) = token :: scanFrom stop 0 rest ∧
      token.kind = .name ∧ token.lexeme = String.ofList cs := by
  cases cs with
  | nil => exact h.elim
  | cons c word => exact scanFrom_word (TokenKind.munch_name h.1 h.2 hrest) offset

/-- A text that is cut into one float begins with this float wherever a word ends behind it. Then it
is a float in any such context, whatever it was made for. -/
theorem munch_of_scan_float {text : String} {token : Token} (hscan : scan text = [token])
    (hkind : token.kind = .float) (hrest : EndsWord rest) :
    ∃ c word, text.toList = c :: word ∧ (c.isDigit ∨ c = '.') ∧
      TokenKind.munch c (word ++ rest) = (.float, word.length) ∧
      token.lexeme = String.ofList (c :: word) := by
  rw [scan] at hscan
  cases hcs : text.toList with
  | nil =>
    rw [hcs] at hscan
    cases hscan
  | cons c word =>
    rw [hcs, scanFrom] at hscan
    cases hmunch : TokenKind.munch c word with
    | mk kind more =>
      rw [hmunch] at hscan
      obtain ⟨htoken, hend⟩ := List.cons.inj hscan
      obtain rfl : kind = .float := by rw [← hkind, ← htoken]
      have hmore := length_le_of_scanFrom_eq_nil hend
      obtain ⟨hword, hfirst⟩ := TokenKind.munch_float hmunch hmore hrest
      have hlexeme : String.ofList (c :: word.take more) = token.lexeme := by rw [← htoken]
      refine ⟨c, word, rfl, hfirst, hword, ?_⟩
      rw [← hlexeme, List.take_of_length_le hmore]

end Token

end ThreeAddress
