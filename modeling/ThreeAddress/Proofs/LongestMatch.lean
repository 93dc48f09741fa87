import Mathlib.Computability.Language
import ThreeAddress.Proofs.Scanning

/-!
# Longest match

Each kind of token has a pattern, a regular language, and scanning is said in terms of these alone:
a token is the longest beginning of the rest of the text that any pattern matches
(`TokenKind.IsLongest`). No two patterns match the same word, but for that of symbols, which matches
nearly every single character and comes last. So a longest word has one kind.

The scanner does not try all patterns. It looks at the first character, and that leaves at most a
few of them: the words of a pattern begin with one of its own characters. So the proof that it finds
the longest word has a case for each class of first characters, and in each the other patterns are
ruled out at once by `mem_starting`.

Patterns are languages in the sense of Mathlib, put together by union, concatenation and repetition
as they are written down for a generated scanner. The scanner here counts characters. Between the
two stands `Word`, which lists the words of a pattern by their first character.
-/

set_option autoImplicit false

open Computability

namespace ThreeAddress

/-! ## Patterns

Three small languages, and what it takes to be a word of them. Everything that a pattern is made of
reduces to these. -/

/-- The words of one character from a class. -/
def oneOf (p : Char → Prop) : Language Char := {cs | ∃ c, cs = [c] ∧ p c}

/-- The words of one or more characters from a class. -/
def someOf (p : Char → Prop) : Language Char := oneOf p * (oneOf p)∗

/-- The one word that is written so. -/
def spelled (text : String) : Language Char := {text.toList}

variable {p : Char → Prop} {c : Char} {cs u : List Char}

theorem mem_oneOf : cs ∈ oneOf p ↔ ∃ c, cs = [c] ∧ p c := Iff.rfl

theorem mem_spelled {text : String} : cs ∈ spelled text ↔ cs = text.toList := Iff.rfl

/-- Repeating a class of characters gives the words of these characters, the empty one among them.
Each word is split into its characters, which is the only way to split it. -/
theorem mem_oneOf_kstar : cs ∈ (oneOf p)∗ ↔ ∀ c ∈ cs, p c := by
  rw [Language.mem_kstar]
  constructor
  · rintro ⟨words, rfl, hwords⟩ c hc
    obtain ⟨word, hword, hc⟩ := List.mem_flatten.mp hc
    obtain ⟨d, rfl, hd⟩ := hwords word hword
    rwa [List.mem_singleton.mp hc]
  · intro h
    refine ⟨cs.map fun c => [c], ?_, ?_⟩
    · rw [← List.flatMap_def, List.flatMap_singleton']
    · intro word hword
      obtain ⟨c, hc, rfl⟩ := List.mem_map.mp hword
      exact ⟨c, rfl, h c hc⟩

/-- A word of a class followed by a language is a character and a word. This takes off the first
character, by which a pattern is told from others. -/
theorem mem_oneOf_mul {l : Language Char} : c :: u ∈ oneOf p * l ↔ p c ∧ u ∈ l := by
  rw [Language.mem_mul]
  constructor
  · rintro ⟨_, ⟨d, rfl, hd⟩, rest, hrest, heq⟩
    obtain ⟨rfl, rfl⟩ := List.cons.inj heq
    exact ⟨hd, hrest⟩
  · rintro ⟨hc, hu⟩
    exact ⟨[c], ⟨c, rfl, hc⟩, u, hu, rfl⟩

theorem mem_someOf_cons : c :: u ∈ someOf p ↔ p c ∧ ∀ d ∈ u, p d := by
  rw [someOf, mem_oneOf_mul, mem_oneOf_kstar]

theorem mem_someOf : cs ∈ someOf p ↔ cs ≠ [] ∧ ∀ c ∈ cs, p c := by
  cases cs with
  | nil =>
    simp only [ne_eq, not_true_eq_false, false_and, iff_false, someOf, Language.mem_mul]
    rintro ⟨_, ⟨d, rfl, -⟩, rest, -, heq⟩
    cases heq
  | cons c u => simp [mem_someOf_cons]

namespace TokenKind

/-- A digit from `0` to `9`. -/
def Digit (c : Char) : Prop := '0' ≤ c ∧ c ≤ '9'

/-- A letter from `a` to `z` or from `A` to `Z`. -/
def Letter (c : Char) : Prop := ('a' ≤ c ∧ c ≤ 'z') ∨ ('A' ≤ c ∧ c ≤ 'Z')

/-- The words that can be a token of this kind, if no longer word can be one.

The augmented operators are matched together with their `=`, and are a kind of their own. A number
with a point has digits to at least one side of it. -/
def pattern : TokenKind → Language Char
  | newLine => someOf (· ∈ ['\n', '\r'])
  | whitespace => someOf (· ∈ [' ', '\t', '\x0c'])
  | semicolon => spelled ";"
  | add => spelled "+"
  | sub => spelled "-"
  | mul => spelled "*"
  | div => spelled "/"
  | mod => spelled "%"
  | exp => spelled "**"
  | bitAnd => spelled "&"
  | bitOr => spelled "|"
  | bitXor => spelled "^"
  | bitLeft => spelled "<<"
  | bitRight => spelled ">>"
  | assign => spelled "="
  | compoundAssign =>
    (spelled "**" + spelled "<<" + spelled ">>" +
      oneOf (· ∈ ['-', '+', '*', '/', '%', '&', '|', '^'])) * spelled "="
  | name => oneOf (fun c => Letter c ∨ c = '_') * (oneOf fun c => Letter c ∨ Digit c ∨ c = '_')∗
  | openParen => spelled "("
  | closeParen => spelled ")"
  | int => someOf Digit
  | float => someOf Digit * spelled "." * (oneOf Digit)∗ + spelled "." * someOf Digit
  | symbol => oneOf (· ≠ '\n')

/-- The word is the longest beginning of the text that a pattern matches, and its kind is that of
the pattern. It is a symbol only if no other pattern matches any beginning of the text.

The last field is needed besides `kind_eq`: a word of one character may be the longest and match
both a symbol and another pattern, and then it has to be of the other kind. -/
structure IsLongest (kind : TokenKind) (word text : List Char) : Prop where
  isPrefix : word <+: text
  ne_nil : word ≠ []
  mem : word ∈ kind.pattern
  length_le : ∀ (other : TokenKind) u, u ∈ other.pattern → u <+: text → u.length ≤ word.length
  kind_eq : ∀ other : TokenKind, word ∈ other.pattern → other = kind ∨ other = symbol
  symbol_last : kind = symbol →
    ∀ (other : TokenKind) u, u ∈ other.pattern → u <+: text → u ≠ [] → other = symbol

/-! ## The first character of a word

From the patterns to the classes of characters that the scanner asks for. The classes are decidable
on characters; in the patterns they are propositions about their order. -/

theorem digit_iff : Digit c ↔ c.isDigit := by
  simp [Digit, Char.isDigit, Char.le_def]

theorem nameStart_iff : (Letter c ∨ c = '_') ↔ isNameStart c := by
  rw [isNameStart_iff, Letter, or_assoc, or_left_comm]

theorem nameRest_iff : (Letter c ∨ Digit c ∨ c = '_') ↔ isNameRest c := by
  rw [or_left_comm, nameStart_iff, digit_iff]
  simp [isNameStart, isNameRest, Char.isAlphanum, or_left_comm, or_assoc]

/-- What a word of a pattern is like, by its first character and what comes after that. The fixed
spellings have one case among them, in which the kind is looked up. -/
inductive Word : TokenKind → Char → List Char → Prop
  | newLine {c : Char} {u : List Char} (hc : isLineEnd c) (hu : ∀ d ∈ u, isLineEnd d) :
      Word newLine c u
  | whitespace {c : Char} {u : List Char} (hc : isBlank c) (hu : ∀ d ∈ u, isBlank d) :
      Word whitespace c u
  | name {c : Char} {u : List Char} (hc : isNameStart c) (hu : ∀ d ∈ u, isNameRest d) :
      Word name c u
  | int {c : Char} {u : List Char} (hc : c.isDigit) (hu : ∀ d ∈ u, d.isDigit) : Word int c u
  | point {c : Char} {whole fraction : List Char} (hc : c.isDigit) (hwhole : ∀ d ∈ whole, d.isDigit)
      (hfraction : ∀ d ∈ fraction, d.isDigit) : Word float c (whole ++ '.' :: fraction)
  | barePoint {u : List Char} (hne : u ≠ []) (hu : ∀ d ∈ u, d.isDigit) : Word float '.' u
  | fixed {kind : TokenKind} {c : Char} {u : List Char} (h : (c :: u, kind) ∈ spellings) :
      Word kind c u
  | symbol {c : Char} (hc : c ≠ '\n') : Word symbol c []

/-! The words of each pattern. All but two follow from the small languages directly: a float has two
forms, and of the augmented assignments there are as many as operators. -/

theorem mem_newLine : c :: u ∈ newLine.pattern ↔ isLineEnd c ∧ ∀ d ∈ u, isLineEnd d := by
  simp [pattern, mem_someOf_cons, isLineEnd]

theorem mem_whitespace : c :: u ∈ whitespace.pattern ↔ isBlank c ∧ ∀ d ∈ u, isBlank d := by
  simp [pattern, mem_someOf_cons, isBlank, or_assoc]

theorem mem_name : c :: u ∈ name.pattern ↔ isNameStart c ∧ ∀ d ∈ u, isNameRest d := by
  simp only [pattern, mem_oneOf_mul, mem_oneOf_kstar, nameStart_iff, nameRest_iff]

theorem mem_int : c :: u ∈ int.pattern ↔ c.isDigit ∧ ∀ d ∈ u, d.isDigit := by
  simp only [pattern, mem_someOf_cons, digit_iff]

theorem mem_symbol : c :: u ∈ symbol.pattern ↔ u = [] ∧ c ≠ '\n' := by
  rw [pattern, mem_oneOf]
  constructor
  · rintro ⟨d, heq, hd⟩
    obtain ⟨rfl, rfl⟩ := List.cons.inj heq
    exact ⟨rfl, hd⟩
  · rintro ⟨rfl, hc⟩
    exact ⟨c, rfl, hc⟩

/-- A number with a point, with digits before it or only behind. The two summands of the pattern are
the two forms of `Word`. -/
theorem mem_float : c :: u ∈ float.pattern ↔ Word float c u := by
  have hspelled : (c :: u, float) ∉ spellings := fun h => kind_ne_float_of_mem_spellings h rfl
  rw [pattern, Language.mem_add, mul_assoc, Language.mem_mul, Language.mem_mul]
  constructor
  · rintro (⟨whole, hwhole, rest, hrest, heq⟩ | ⟨_, rfl, digits, hdigits, heq⟩)
    · obtain ⟨_, rfl, fraction, hfraction, rfl⟩ := Language.mem_mul.mp hrest
      cases whole with
      | nil => exact ((mem_someOf.mp hwhole).1 rfl).elim
      | cons d whole =>
        obtain ⟨rfl, rfl⟩ := List.cons.inj heq
        simp only [mem_someOf_cons, mem_oneOf_kstar, digit_iff] at hwhole hfraction
        exact .point hwhole.1 hwhole.2 hfraction
    · obtain ⟨rfl, rfl⟩ := List.cons.inj heq
      simp only [mem_someOf, digit_iff] at hdigits
      exact .barePoint hdigits.1 hdigits.2
  · intro h
    cases h with
    | @point _ whole fraction hc hwhole hfraction =>
      simp only [← digit_iff] at hc hwhole hfraction
      exact .inl ⟨c :: whole, mem_someOf_cons.mpr ⟨hc, hwhole⟩, _,
        Language.append_mem_mul rfl (mem_oneOf_kstar.mpr hfraction), rfl⟩
    | barePoint hne hu =>
      simp only [← digit_iff] at hu
      exact .inr ⟨_, rfl, u, mem_someOf.mpr ⟨hne, hu⟩, rfl⟩
    | fixed h => exact (hspelled h).elim

/-- The operators that may stand right before `=`. -/
def assignable : List (List Char) :=
  [['*', '*'], ['<', '<'], ['>', '>'], ['-'], ['+'], ['*'], ['/'], ['%'], ['&'], ['|'], ['^']]

/-- An augmented assignment is one of the operators with `=` behind it. This turns a pattern into a
list, so that the list of fixed spellings can be compared with it. -/
theorem mem_compoundAssign :
    u ∈ compoundAssign.pattern ↔ ∃ op ∈ assignable, u = op ++ ['='] := by
  have hop : ∀ op, op ∈ spelled "**" + spelled "<<" + spelled ">>" +
      oneOf (· ∈ ['-', '+', '*', '/', '%', '&', '|', '^']) ↔ op ∈ assignable := by
    intro op
    simp only [Language.mem_add, mem_spelled, mem_oneOf, assignable, List.mem_cons,
      List.not_mem_nil, or_false, or_assoc]
    grind
  simp only [pattern, Language.mem_mul, hop, mem_spelled]
  constructor
  · rintro ⟨op, hop, _, rfl, rfl⟩
    exact ⟨op, hop, rfl⟩
  · rintro ⟨op, hop, rfl⟩
    exact ⟨op, hop, _, rfl, rfl⟩

/-- The fixed spellings are words of the patterns of their kinds. -/
theorem mem_of_mem_spellings {spelling : List Char × TokenKind} (h : spelling ∈ spellings) :
    spelling.1 ∈ spelling.2.pattern := by
  revert spelling
  simp only [spellings, List.forall_mem_cons]
  and_intros
  all_goals first | rfl | exact mem_compoundAssign.mpr (by decide) | exact List.forall_mem_nil _

/-- The words of a pattern that begin with this character. It is by this that the rest of the module
speaks of words only. -/
theorem mem_pattern_iff {kind : TokenKind} : c :: u ∈ kind.pattern ↔ Word kind c u := by
  constructor
  · intro h
    cases kind with
    | newLine => exact .newLine (mem_newLine.mp h).1 (mem_newLine.mp h).2
    | whitespace => exact .whitespace (mem_whitespace.mp h).1 (mem_whitespace.mp h).2
    | name => exact .name (mem_name.mp h).1 (mem_name.mp h).2
    | int => exact .int (mem_int.mp h).1 (mem_int.mp h).2
    | float => exact mem_float.mp h
    | symbol =>
      obtain ⟨rfl, hc⟩ := mem_symbol.mp h
      exact .symbol hc
    | compoundAssign =>
      obtain ⟨op, hop, heq⟩ := mem_compoundAssign.mp h
      have hall : ∀ op ∈ assignable, (op ++ ['='], compoundAssign) ∈ spellings := by decide
      exact .fixed (heq ▸ hall op hop)
    | _ =>
      obtain ⟨rfl, rfl⟩ := List.cons.inj (mem_spelled.mp h)
      exact .fixed (by decide)
  · intro h
    cases h with
    | newLine hc hu => exact mem_newLine.mpr ⟨hc, hu⟩
    | whitespace hc hu => exact mem_whitespace.mpr ⟨hc, hu⟩
    | name hc hu => exact mem_name.mpr ⟨hc, hu⟩
    | int hc hu => exact mem_int.mpr ⟨hc, hu⟩
    | point hc hwhole hfraction => exact mem_float.mpr (.point hc hwhole hfraction)
    | barePoint hne hu => exact mem_float.mpr (.barePoint hne hu)
    | symbol hc => exact mem_symbol.mpr ⟨rfl, hc⟩
    | fixed h => exact mem_of_mem_spellings h

/-! ## What begins with a character

The scanner branches on the first character. What it leaves out in a branch are words that cannot
begin there. -/

variable {kind other : TokenKind} {rest w : List Char}

/-- The kinds of the words that begin with this character, symbols aside. The order of the tests is
that of the scanner; the classes exclude each other, so it makes no difference. -/
def starting (c : Char) : List TokenKind :=
  if isLineEnd c then [newLine]
  else if isBlank c then [whitespace]
  else if isNameStart c then [name]
  else if c.isDigit then [int, float]
  else if c = '.' then [float]
  else spellings.map Prod.snd

theorem isBlank_of_isLineEnd (h : isLineEnd c) : isBlank c = false :=
  isBlank_eq_false isLineEnd (by decide) (by decide) (by decide) h

/-- The fixed spellings begin with characters that begin nothing else. They are finitely many, and
so it is decided. -/
theorem starting_of_mem_spellings (h : (c :: u, kind) ∈ spellings) :
    starting c = spellings.map Prod.snd := by
  have hall : ∀ s ∈ spellings, s.1.head?.all fun d =>
      !(isLineEnd d || isBlank d || isNameStart d || d.isDigit || d == '.') := by
    decide
  have hother := hall _ h
  simp only [List.head?_cons, Option.all_some, Bool.not_eq_true', Bool.or_eq_false_iff,
    beq_eq_false_iff_ne] at hother
  obtain ⟨⟨⟨⟨hend, hblank⟩, hname⟩, hdigit⟩, hpoint⟩ := hother
  simp [starting, hend, hblank, hname, hdigit, hpoint]

/-- A word is a symbol, or its kind is among those that begin with its first character. -/
theorem mem_starting (h : Word kind c u) : kind = symbol ∨ kind ∈ starting c := by
  cases h with
  | newLine hc => right; simp [starting, hc]
  | whitespace hc =>
    have hend : isLineEnd c = false := by
      rw [Bool.eq_false_iff]
      intro hend
      rw [isBlank_of_isLineEnd hend] at hc
      cases hc
    right
    simp [starting, hc, hend]
  | name hc => right; simp [starting, isLineEnd_of_isNameStart hc, isBlank_of_isNameStart hc, hc]
  | int hc | point hc =>
    right
    simp [starting, isLineEnd_of_isDigit hc, isBlank_of_isDigit hc, isNameStart_of_isDigit hc, hc]
  | barePoint => right; decide
  | fixed h =>
    right
    rw [starting_of_mem_spellings h]
    exact List.mem_map_of_mem h
  | symbol => exact .inl rfl

/-! ## The longest word

For each branch of the scanner: the word it takes, and that no other word at this place is longer.
Symbols need not be compared, as they have one character and every word has at least one. -/

/-- Only the words that begin with the first character of the text have to be looked at. `hothers`
says what is needed of each: that it is no longer, that it is of the same kind if it is the same
word, and that the word found is no symbol where there is another. -/
theorem isLongest_of_word (hword : Word kind c w) (hbegins : w <+: rest)
    (hothers : ∀ other u, Word other c u → u <+: rest → other ≠ symbol →
      u.length ≤ w.length ∧ (u = w → other = kind) ∧ kind ≠ symbol) :
    IsLongest kind (c :: w) (c :: rest) where
  isPrefix := List.cons_prefix_cons.mpr ⟨rfl, hbegins⟩
  ne_nil := List.cons_ne_nil c w
  mem := mem_pattern_iff.mpr hword
  length_le := by
    intro other u hu hle
    cases u with
    | nil => exact Nat.zero_le _
    | cons d u =>
      obtain ⟨rfl, hrest⟩ := List.cons_prefix_cons.mp hle
      by_cases hsymbol : other = symbol
      -- a symbol has one character, and so is never longer
      · obtain ⟨rfl, -⟩ := mem_symbol.mp (hsymbol ▸ hu)
        simp
      · have hlength := (hothers other u (mem_pattern_iff.mp hu) hrest hsymbol).1
        simpa using hlength
  kind_eq := by
    intro other hu
    by_cases hsymbol : other = symbol
    · exact .inr hsymbol
    · exact .inl ((hothers other w (mem_pattern_iff.mp hu) hbegins hsymbol).2.1 rfl)
  symbol_last := by
    intro hkind other u hu hle hne
    by_contra hsymbol
    cases u with
    | nil => exact hne rfl
    | cons d u =>
      obtain ⟨rfl, hrest⟩ := List.cons_prefix_cons.mp hle
      exact (hothers other u (mem_pattern_iff.mp hu) hrest hsymbol).2.2 hkind

/-- A beginning of the text that is made of a class of characters stops no later than the class
does. -/
theorem length_le_takeWhile {p : Char → Bool} (hbegins : u <+: rest) (hu : ∀ d ∈ u, p d) :
    u.length ≤ (rest.takeWhile p).length := by
  obtain ⟨more, rfl⟩ := hbegins
  rw [List.takeWhile_append_of_pos hu, List.length_append]
  exact Nat.le_add_right _ _

theorem take_length_takeWhile (p : Char → Bool) (cs : List Char) :
    cs.take (cs.takeWhile p).length = cs.takeWhile p :=
  (List.prefix_iff_eq_take.mp (List.takeWhile_prefix p)).symm

/-- A token that goes on as long as its class of characters does. So it is with line ends, blanks,
and names; `hkind` says that no other kind begins there. -/
theorem isLongest_takeWhile {p : Char → Bool} (hkind : starting c = [kind]) (hne : kind ≠ symbol)
    (hword : ∀ u, c :: u ∈ kind.pattern ↔ ∀ d ∈ u, p d) :
    IsLongest kind (c :: rest.takeWhile p) (c :: rest) := by
  apply isLongest_of_word _ (List.takeWhile_prefix p)
  · intro other u hu hbegins hsymbol
    have hother := (mem_starting hu).resolve_left hsymbol
    rw [hkind, List.mem_singleton] at hother
    subst hother
    exact ⟨length_le_takeWhile hbegins ((hword u).mp (mem_pattern_iff.mpr hu)), fun _ => rfl, hne⟩
  · apply mem_pattern_iff.mp
    rw [hword]
    intro d hd
    exact List.mem_takeWhile_imp hd

/-- A number whose first character is a digit has at most the digits that stand there, and behind a
point at most those that stand there. -/
theorem length_le_of_digits_point {whole fraction more : List Char}
    (hdrop : rest.dropWhile Char.isDigit = '.' :: more) (hwhole : ∀ d ∈ whole, d.isDigit)
    (hfraction : ∀ d ∈ fraction, d.isDigit) (hbegins : whole ++ '.' :: fraction <+: rest) :
    (whole ++ '.' :: fraction).length ≤ digits rest + 1 + digits more := by
  obtain ⟨after, rfl⟩ := hbegins
  have hpoint : ∀ d ∈ ('.' :: (fraction ++ after)).head?, d.isDigit = false := by
    intro d hd
    obtain rfl := Option.some.inj hd
    decide
  rw [List.append_assoc, List.cons_append] at hdrop ⊢
  rw [dropWhile_append_of_stop hwhole hpoint] at hdrop
  obtain rfl := (List.cons.inj hdrop).2
  have hlength := length_le_takeWhile (List.prefix_append fraction after) hfraction
  rw [digits, takeWhile_append_of_stop hwhole hpoint, digits, List.length_append, List.length_cons]
  omega

theorem starting_of_isDigit (hc : c.isDigit) : starting c = [int, float] := by
  simp [starting, isLineEnd_of_isDigit hc, isBlank_of_isDigit hc, isNameStart_of_isDigit hc, hc]

theorem float_of_isDigit (h : Word float c u) (hc : c.isDigit) :
    ∃ whole fraction, u = whole ++ '.' :: fraction ∧ (∀ d ∈ whole, d.isDigit) ∧
      ∀ d ∈ fraction, d.isDigit := by
  cases h with
  | point _ hwhole hfraction => exact ⟨_, _, rfl, hwhole, hfraction⟩
  | barePoint => exact absurd hc (by decide)
  | fixed h => exact (kind_ne_float_of_mem_spellings h rfl).elim

/-- An integer is the digits that stand there, unless a point comes behind them. Then it would be
shorter than the float. -/
theorem isLongest_int (hc : c.isDigit)
    (hint : ∀ more, rest.dropWhile Char.isDigit ≠ '.' :: more) :
    IsLongest int (c :: rest.takeWhile Char.isDigit) (c :: rest) := by
  apply isLongest_of_word (.int hc fun d hd => List.mem_takeWhile_imp hd) (List.takeWhile_prefix _)
  intro other u hu hbegins hsymbol
  have hother := (mem_starting hu).resolve_left hsymbol
  rw [starting_of_isDigit hc, List.mem_pair] at hother
  rcases hother with rfl | rfl
  · have hdigits := (mem_int.mp (mem_pattern_iff.mpr hu)).2
    exact ⟨length_le_takeWhile hbegins hdigits, fun _ => rfl, TokenKind.noConfusion⟩
  · -- a float has a point behind the digits
    obtain ⟨whole, fraction, rfl, hwhole, -⟩ := float_of_isDigit hu hc
    obtain ⟨after, rfl⟩ := hbegins
    rw [List.append_assoc, dropWhile_append_of_stop hwhole (by simp)] at hint
    exact (hint _ rfl).elim

theorem digits_point_isPrefix {more : List Char}
    (hdrop : rest.dropWhile Char.isDigit = '.' :: more) :
    rest.takeWhile Char.isDigit ++ '.' :: more.takeWhile Char.isDigit <+: rest := by
  refine ⟨more.dropWhile Char.isDigit, ?_⟩
  rw [List.append_assoc, List.cons_append, List.takeWhile_append_dropWhile, ← hdrop,
    List.takeWhile_append_dropWhile]

/-- A float with digits before its point is longer than the integer it begins with, and takes all
digits on either side. -/
theorem isLongest_point {more : List Char} (hc : c.isDigit)
    (hdrop : rest.dropWhile Char.isDigit = '.' :: more) :
    IsLongest float (c :: (rest.takeWhile Char.isDigit ++ '.' :: more.takeWhile Char.isDigit))
      (c :: rest) := by
  apply isLongest_of_word
    (.point hc (fun d hd => List.mem_takeWhile_imp hd) fun d hd => List.mem_takeWhile_imp hd)
    (digits_point_isPrefix hdrop)
  intro other u hu hbegins hsymbol
  have hother := (mem_starting hu).resolve_left hsymbol
  rw [starting_of_isDigit hc, List.mem_pair] at hother
  rcases hother with rfl | rfl
  · have hdigits := (mem_int.mp (mem_pattern_iff.mpr hu)).2
    have hlength := length_le_takeWhile hbegins hdigits
    have hlonger : u.length <
        (rest.takeWhile Char.isDigit ++ '.' :: more.takeWhile Char.isDigit).length := by
      rw [List.length_append, List.length_cons]
      omega
    refine ⟨hlonger.le, ?_, TokenKind.noConfusion⟩
    rintro rfl
    exact (Nat.lt_irrefl _ hlonger).elim
  · obtain ⟨whole, fraction, rfl, hwhole, hfraction⟩ := float_of_isDigit hu hc
    have hlength := length_le_of_digits_point hdrop hwhole hfraction hbegins
    refine ⟨?_, fun _ => rfl, TokenKind.noConfusion⟩
    simp only [List.length_append, List.length_cons, digits] at hlength ⊢
    omega

/-- A point with digits behind it. A point alone is no number, and is left to be a symbol. -/
theorem isLongest_barePoint (hne : digits rest ≠ 0) :
    IsLongest float ('.' :: rest.takeWhile Char.isDigit) ('.' :: rest) := by
  have htake : rest.takeWhile Char.isDigit ≠ [] := mt (congrArg List.length) hne
  apply isLongest_of_word (.barePoint htake fun d hd => List.mem_takeWhile_imp hd)
    (List.takeWhile_prefix _)
  intro other u hu hbegins hsymbol
  have hother := (mem_starting hu).resolve_left hsymbol
  obtain rfl : other = float := List.mem_singleton.mp hother
  cases hu with
  | point hdigit => exact absurd hdigit (by decide)
  | barePoint _ hdigits =>
    exact ⟨length_le_takeWhile hbegins hdigits, fun _ => rfl, TokenKind.noConfusion⟩
  | fixed h => exact (kind_ne_float_of_mem_spellings h rfl).elim

/-- Behind a character of none of the other classes, the words are the fixed spellings. -/
theorem mem_spellings_of_word (h : Word kind c u) (hbegins : u <+: rest)
    (hend : isLineEnd c = false) (hblank : isBlank c = false) (hname : isNameStart c = false)
    (hdigit : c.isDigit = false) (hpoint : c = '.' → digits rest = 0) (hsymbol : kind ≠ symbol) :
    (c :: u, kind) ∈ spellings := by
  cases h with
  | newLine hc => rw [hc] at hend; cases hend
  | whitespace hc => rw [hc] at hblank; cases hblank
  | name hc => rw [hc] at hname; cases hname
  | int hc | point hc => rw [hc] at hdigit; cases hdigit
  | barePoint hne hdigits =>
    have hlength := length_le_takeWhile hbegins hdigits
    have hzero : (rest.takeWhile Char.isDigit).length = 0 := hpoint rfl
    exact (hne (List.eq_nil_of_length_eq_zero (by omega))).elim
  | fixed h => exact h
  | symbol => exact (hsymbol rfl).elim

/-- The first spelling of the list that begins the text is the longest. The list is in order of
length, longest first, which is decided; the scanner depends on this order and on nothing else in
it. -/
theorem length_le_of_find {spelling : List Char × TokenKind} {text : List Char}
    (hfind : spellings.find? (fun s => s.1.isPrefixOf text) = some spelling)
    (hmem : (u, kind) ∈ spellings) (hbegins : u <+: text) : u.length ≤ spelling.1.length := by
  obtain ⟨-, before, after, heq, hnone⟩ := List.find?_eq_some_iff_append.mp hfind
  have hsorted : spellings.Pairwise fun s t => t.1.length ≤ s.1.length := by decide
  rw [heq] at hmem hsorted
  rcases List.mem_append.mp hmem with hbefore | hafter
  · have hno := hnone _ hbefore
    rw [List.isPrefixOf_iff_prefix.mpr hbegins] at hno
    cases hno
  rcases List.mem_cons.mp hafter with rfl | hafter
  · exact Nat.le_refl _
  · exact (List.pairwise_cons.mp (List.pairwise_append.mp hsorted).2.1).1 _ hafter

/-- No spelling stands for two kinds. -/
theorem kind_eq_of_mem_spellings {s t : List Char × TokenKind} (hs : s ∈ spellings)
    (ht : t ∈ spellings) (h : s.1 = t.1) : s.2 = t.2 := by
  have hall : ∀ s ∈ spellings, ∀ t ∈ spellings, s.1 = t.1 → s.2 = t.2 := by decide
  exact hall s hs t ht h

/-- The spelling that is found is the longest word, if spellings are all there is to compare it
with. -/
theorem isLongest_of_find {spelling : List Char × TokenKind}
    (hfind : spellings.find? (fun s => s.1.isPrefixOf (c :: rest)) = some spelling)
    (hothers : ∀ other u, Word other c u → u <+: rest → other ≠ symbol →
      (c :: u, other) ∈ spellings) :
    IsLongest spelling.2 (c :: rest.take (spelling.1.length - 1)) (c :: rest) := by
  have hmem := List.mem_of_find?_eq_some hfind
  have hfits := List.find?_some hfind
  have hbegins := List.isPrefixOf_iff_prefix.mp hfits
  obtain ⟨text, kind⟩ := spelling
  have hall : ∀ s ∈ spellings, s.1 ≠ [] ∧ s.2 ≠ symbol := by decide
  obtain ⟨hne, hsymbol⟩ := hall _ hmem
  cases text with
  | nil => exact (hne rfl).elim
  | cons d w =>
    obtain ⟨rfl, hrest⟩ := List.cons_prefix_cons.mp hbegins
    have htake : rest.take ((d :: w).length - 1) = w := (List.prefix_iff_eq_take.mp hrest).symm
    rw [htake]
    apply isLongest_of_word (.fixed hmem) hrest
    intro other u hu hle hother
    have hspelled := hothers other u hu hle hother
    have hlength := length_le_of_find hfind hspelled (List.cons_prefix_cons.mpr ⟨rfl, hle⟩)
    refine ⟨Nat.le_of_succ_le_succ hlength, ?_, hsymbol⟩
    rintro rfl
    exact kind_eq_of_mem_spellings hspelled hmem rfl

/-- If no spelling is found, there is only a symbol to be had. A line feed is not one, but it begins
a line end and does not come here. -/
theorem isLongest_symbol (hline : c ≠ '\n')
    (hfind : spellings.find? (fun s => s.1.isPrefixOf (c :: rest)) = none)
    (hothers : ∀ other u, Word other c u → u <+: rest → other ≠ symbol →
      (c :: u, other) ∈ spellings) :
    IsLongest symbol [c] (c :: rest) := by
  apply isLongest_of_word (.symbol hline) List.nil_prefix
  intro other u hu hbegins hsymbol
  have hno := List.find?_eq_none.mp hfind _ (hothers other u hu hbegins hsymbol)
  exact (hno (List.isPrefixOf_iff_prefix.mpr (List.cons_prefix_cons.mpr ⟨rfl, hbegins⟩))).elim

/-- The token at the head of a text is the longest word of all patterns.

The cases are the branches of the scanner, with what has been excluded by the branches before. So a
token is there for every character: scanning cannot fail. -/
theorem isLongest_munch (c : Char) (rest : List Char) :
    IsLongest (munch c rest).1 (c :: rest.take (munch c rest).2) (c :: rest) := by
  unfold munch
  split
  next hend =>
    rw [take_length_takeWhile]
    exact isLongest_takeWhile (by simp [starting, hend]) TokenKind.noConfusion fun u =>
      mem_newLine.trans (and_iff_right hend)
  next hend =>
  split
  next hblank =>
    rw [take_length_takeWhile]
    exact isLongest_takeWhile (by simp [starting, hend, hblank]) TokenKind.noConfusion fun u =>
      mem_whitespace.trans (and_iff_right hblank)
  next hblank =>
  split
  next hname =>
    rw [take_length_takeWhile]
    exact isLongest_takeWhile (by simp [starting, hend, hblank, hname]) TokenKind.noConfusion
      fun u => mem_name.trans (and_iff_right hname)
  next hname =>
  split
  next hdigit =>
    split
    -- digits and a point are a float, with or without digits behind the point
    next fraction hdrop =>
      have htake := List.prefix_iff_eq_take.mp (digits_point_isPrefix hdrop)
      rw [List.length_append, List.length_cons, Nat.add_comm _ 1, ← Nat.add_assoc] at htake
      rw [digits, digits, ← htake]
      exact isLongest_point hdigit hdrop
    next hint =>
      rw [digits, take_length_takeWhile]
      exact isLongest_int hdigit hint
  next hdigit =>
  split
  next hpoint =>
    simp only [Bool.and_eq_true, decide_eq_true_eq] at hpoint
    obtain ⟨rfl, hne⟩ := hpoint
    rw [digits, take_length_takeWhile]
    exact isLongest_barePoint hne
  next hpoint =>
    -- no pattern but that of symbols and the fixed spellings is left for such a character
    have hothers : ∀ other u, Word other c u → u <+: rest → other ≠ symbol →
        (c :: u, other) ∈ spellings := by
      intro other u hu hbegins hsymbol
      rw [Bool.not_eq_true] at hend hblank hname hdigit
      refine mem_spellings_of_word hu hbegins hend hblank hname hdigit ?_ hsymbol
      simpa using hpoint
    split
    next word kind hfind => exact isLongest_of_find hfind hothers
    next hfind =>
      have hline : c ≠ '\n' := by
        rintro rfl
        exact hend rfl
      exact isLongest_symbol hline hfind hothers

end TokenKind

/-! ## The whole text

Cutting off one token after the other. What has been shown of the head of a text holds at each
place, with the rest of the text from there. -/

namespace Token

/-- The text that tokens in a row were cut from. -/
def joined (tokens : List Token) : String := String.join (tokens.map Token.lexeme)

theorem joined_cons (token : Token) (tokens : List Token) :
    joined (token :: tokens) = token.lexeme ++ joined tokens := by
  rw [← String.toList_inj]
  simp [joined, String.toList_join]

theorem joined_append (before after : List Token) :
    joined (before ++ after) = joined before ++ joined after := by
  rw [← String.toList_inj]
  simp [joined, String.toList_join]

theorem joined_singleton (token : Token) : joined [token] = token.lexeme := by
  rw [joined_cons, joined, List.map_nil, String.join_nil, String.append_empty]

/-- From this byte on, the text is cut into these tokens, each as long as it can be. It is a
relation, so that a text can be cut in two and the halves looked at by themselves. -/
inductive Cut : Nat → List Char → List Token → Prop
  | nil {offset : Nat} : Cut offset [] []
  | cons {offset stop : Nat} {kind : TokenKind} {word rest : List Char} {tokens : List Token}
      (hlongest : kind.IsLongest word (word ++ rest))
      (hstop : stop = offset + (String.ofList word).utf8ByteSize) (hrest : Cut stop rest tokens) :
      Cut offset (word ++ rest) (⟨kind, String.ofList word, ⟨offset, stop⟩⟩ :: tokens)

/-- What the scanner gives is a cut. It walks over every character and counts down those that belong
to the token before (`skip`); so the induction is on the text, for all numbers of characters to be
skipped. -/
theorem cut_scanFrom (offset skip : Nat) (cs : List Char) :
    Cut offset (cs.drop skip) (scanFrom offset skip cs) := by
  induction cs generalizing offset skip with
  | nil => rw [List.drop_nil]; exact .nil
  | cons c rest ih =>
    cases skip with
    | succ skip => exact ih offset skip
    | zero =>
      have hlongest := TokenKind.isLongest_munch c rest
      rw [scanFrom]
      generalize TokenKind.munch c rest = cut at hlongest ⊢
      obtain ⟨kind, more⟩ := cut
      -- the word that was found, and what comes behind it
      have hsplit : c :: rest = (c :: rest.take more) ++ rest.drop more := by
        rw [List.cons_append, List.take_append_drop]
      rw [hsplit] at hlongest
      rw [List.drop_zero, hsplit]
      exact .cons hlongest rfl (ih _ more)

/-- Ranges that each hold a byte and follow on from each other, from one byte to another. -/
inductive Tile : Nat → Nat → List Span → Prop
  | nil {stop : Nat} : Tile stop stop []
  | cons {start middle stop : Nat} {spans : List Span} (hlt : start < middle)
      (hrest : Tile middle stop spans) : Tile start stop (⟨start, middle⟩ :: spans)

namespace Cut

variable {offset : Nat} {cs : List Char} {before after tokens : List Token} {token : Token}

/-- Put together again, the tokens are the text that was cut. -/
theorem joined_eq (h : Cut offset cs tokens) : joined tokens = String.ofList cs := by
  induction h with
  | nil => rfl
  | cons _ _ _ ih => rw [joined_cons, ih, String.ofList_append]

/-- The ranges follow on from each other because each begins where the one before has ended, and
none is empty because no word is. -/
theorem tile (h : Cut offset cs tokens) :
    Tile offset (offset + (String.ofList cs).utf8ByteSize) (tokens.map Token.span) := by
  induction h with
  | nil => exact .nil
  | cons hlongest hstop _ ih =>
    rw [String.ofList_append, String.utf8ByteSize_append, ← Nat.add_assoc, ← hstop]
    refine .cons ?_ ih
    have hword := mt String.ofList_eq_empty_iff.mp hlongest.ne_nil
    have hbytes := mt String.utf8ByteSize_eq_zero_iff.mp hword
    omega

/-- The tokens from one of them on are a cut as well. It begins at the byte where those before it
end. -/
theorem of_append (h : Cut offset cs (before ++ after)) :
    ∃ rest, Cut (offset + (joined before).utf8ByteSize) rest after := by
  induction before generalizing offset cs with
  | nil => exact ⟨cs, h⟩
  | cons token before ih =>
    cases h with
    | cons hlongest hstop hrest =>
      obtain ⟨rest, hcut⟩ := ih hrest
      refine ⟨rest, ?_⟩
      rwa [joined_cons, String.utf8ByteSize_append, ← Nat.add_assoc, ← hstop]

/-- The first token begins at the offset, ends as many bytes later as it has, and is the longest
word there. -/
theorem head (h : Cut offset cs (token :: tokens)) :
    token.span = ⟨offset, offset + token.lexeme.utf8ByteSize⟩ ∧
      token.kind.IsLongest token.lexeme.toList (joined (token :: tokens)).toList := by
  have hjoined := h.joined_eq
  cases h with
  | cons hlongest hstop hrest =>
    rw [hjoined, String.toList_ofList, String.toList_ofList, ← hstop]
    exact ⟨rfl, hlongest⟩

end Cut

/-- A text is cut into tokens with nothing left out. The ranges of the tokens follow on from each
other, from the first byte to the last, and end where characters end. Each token is the longest word
at its place, and of the kind that has this word.

A range of bytes might end within a character; that it does not is because words are lists of
characters, so the text up to there is a text. -/
theorem scan_longest (source : String) :
    joined (scan source) = source ∧
      Tile 0 source.utf8ByteSize ((scan source).map Token.span) ∧
      ∀ before token after, scan source = before ++ token :: after →
        token.span.start = (joined before).utf8ByteSize ∧
        token.span.stop = (joined (before ++ [token])).utf8ByteSize ∧
        (String.Pos.Raw.mk token.span.stop).IsValid source ∧
        token.kind.IsLongest token.lexeme.toList (joined (token :: after)).toList := by
  have hcut : Cut 0 source.toList (scan source) := cut_scanFrom 0 0 source.toList
  have hjoined := hcut.joined_eq
  have htile := hcut.tile
  rw [String.ofList_toList] at hjoined htile
  rw [Nat.zero_add] at htile
  refine ⟨hjoined, htile, ?_⟩
  intro before token after hscan
  rw [hscan] at hcut hjoined
  obtain ⟨rest, hafter⟩ := hcut.of_append
  obtain ⟨hspan, hlongest⟩ := hafter.head
  have hstop : token.span.stop = (joined (before ++ [token])).utf8ByteSize := by
    rw [hspan, joined_append, String.utf8ByteSize_append, joined_singleton, Nat.zero_add]
  refine ⟨by rw [hspan, Nat.zero_add], hstop, ?_, hlongest⟩
  rw [String.Pos.Raw.isValid_iff_exists_append]
  refine ⟨joined (before ++ [token]), joined after, ?_, ?_⟩
  · rw [← hjoined, ← joined_append, List.append_assoc, List.singleton_append]
  · rw [hstop]
    rfl

end Token

end ThreeAddress
