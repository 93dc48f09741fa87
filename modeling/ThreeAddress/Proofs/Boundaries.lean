import ThreeAddress.Proofs.LongestMatch
import ThreeAddress.Proofs.Restoring

/-!
# Boundaries of tokens

The tokens of a text cut it at offsets that are counted here by how many tokens end there
(`Token.boundary`), so that one offset is before another if the count is. The range of a token goes
from one of them to the next, and that of anything that is read from one to a later one
(`Span.Between`).

All kinds of tokens but symbols are words of ASCII, so a text without symbols has as many bytes as
characters. A parser that has passed no symbol (`ParserState.Clear`) can point at whatever lies
behind it, and at the next token.

The last point is what makes offsets usable. Ranges are in bytes and a reader counts characters,
which is the same only as long as nothing before the range takes more than one byte. A symbol (a
character that begins no other token) is the one place where this can go wrong, and no parser gets
past one; so the first of them can still be pointed at.
-/

set_option autoImplicit false

namespace ThreeAddress

/-! ## ASCII

What can be said of the characters of a token: each pattern but that of symbols is made of classes
of characters below 128. -/

/-- All characters are of ASCII. It is said of the text and not of its bytes, so that it goes
through `++` and through the lists of characters that patterns are about. -/
def IsAscii (text : String) : Prop := ∀ c ∈ text.toList, c.toNat < 128

theorem isAscii_append {a b : String} : IsAscii (a ++ b) ↔ IsAscii a ∧ IsAscii b := by
  simp only [IsAscii, String.toList_append, List.forall_mem_append]

/-- In ASCII a character has one byte. The induction is on the characters, as the size of a text in
bytes is the sum of theirs. -/
theorem utf8ByteSize_of_isAscii {text : String} (h : IsAscii text) :
    text.utf8ByteSize = text.length := by
  rw [IsAscii] at h
  rw [← String.ofList_toList (s := text)]
  generalize text.toList = cs at h
  induction cs with
  | nil => rfl
  | cons c cs ih =>
    obtain ⟨hc, hcs⟩ := List.forall_mem_cons.mp h
    have hone : c.utf8Size = 1 := Char.utf8Size_eq_one_iff.mpr (Nat.le_of_lt_succ hc)
    rw [← List.singleton_append, String.ofList_append, String.utf8ByteSize_append,
      String.length_append, ih hcs, ← String.singleton_eq_ofList, String.utf8ByteSize_singleton,
      hone, String.length_singleton]

/-! One lemma for each class of characters in the patterns. All reduce to an upper bound, since the
classes are intervals and single characters. -/

theorem toNat_lt_of_le {c d : Char} (h : c ≤ d) (hd : d.toNat < 128) : c.toNat < 128 :=
  Nat.lt_of_le_of_lt (Char.le_def.mp h) hd

theorem toNat_lt_of_isDigit {c : Char} (h : c.isDigit) : c.toNat < 128 :=
  toNat_lt_of_le (TokenKind.digit_iff.mpr h).2 (by decide)

theorem toNat_lt_of_isNameStart {c : Char} (h : isNameStart c) : c.toNat < 128 := by
  rcases isNameStart_iff.mp h with h | h | rfl
  · exact toNat_lt_of_le h.2 (by decide)
  · exact toNat_lt_of_le h.2 (by decide)
  · decide

theorem toNat_lt_of_isNameRest {c : Char} (h : isNameRest c) : c.toNat < 128 := by
  rcases TokenKind.nameRest_iff.mpr h with hletter | hdigit | rfl
  · exact toNat_lt_of_isNameStart (TokenKind.nameStart_iff.mp (.inl hletter))
  · exact toNat_lt_of_isDigit (TokenKind.digit_iff.mp hdigit)
  · decide

theorem toNat_lt_of_isLineEnd {c : Char} (h : isLineEnd c) : c.toNat < 128 := by
  simp only [isLineEnd, Bool.or_eq_true, decide_eq_true_eq] at h
  rcases h with rfl | rfl <;> decide

theorem toNat_lt_of_isBlank {c : Char} (h : isBlank c) : c.toNat < 128 := by
  simp only [isBlank, Bool.or_eq_true, decide_eq_true_eq] at h
  rcases h with (rfl | rfl) | rfl <;> decide

namespace TokenKind

/-- The words of all patterns but that of symbols are of ASCII. One case for each pattern; that of
symbols is where the hypothesis goes, and it is the only pattern that takes any character. -/
theorem toNat_lt_of_word {kind : TokenKind} {c : Char} {u : List Char} (h : Word kind c u)
    (hkind : kind ≠ symbol) : ∀ d ∈ c :: u, d.toNat < 128 := by
  cases h with
  | newLine hc hu =>
    exact List.forall_mem_cons.mpr
      ⟨toNat_lt_of_isLineEnd hc, fun d hd => toNat_lt_of_isLineEnd (hu d hd)⟩
  | whitespace hc hu =>
    exact List.forall_mem_cons.mpr
      ⟨toNat_lt_of_isBlank hc, fun d hd => toNat_lt_of_isBlank (hu d hd)⟩
  | name hc hu =>
    exact List.forall_mem_cons.mpr
      ⟨toNat_lt_of_isNameStart hc, fun d hd => toNat_lt_of_isNameRest (hu d hd)⟩
  | int hc hu =>
    exact List.forall_mem_cons.mpr
      ⟨toNat_lt_of_isDigit hc, fun d hd => toNat_lt_of_isDigit (hu d hd)⟩
  | point hc hwhole hfraction =>
    refine List.forall_mem_cons.mpr ⟨toNat_lt_of_isDigit hc, List.forall_mem_append.mpr ⟨?_, ?_⟩⟩
    · exact fun d hd => toNat_lt_of_isDigit (hwhole d hd)
    · exact List.forall_mem_cons.mpr
        ⟨by decide, fun d hd => toNat_lt_of_isDigit (hfraction d hd)⟩
  | barePoint hne hu =>
    exact List.forall_mem_cons.mpr ⟨by decide, fun d hd => toNat_lt_of_isDigit (hu d hd)⟩
  | fixed h =>
    have hall : ∀ s ∈ spellings, s.1.all fun d => d.toNat < 128 := by decide
    simpa only [List.all_eq_true, decide_eq_true_eq] using hall _ h
  | symbol => exact (hkind rfl).elim

end TokenKind

/-! ## Ranges between boundaries

The tokens of a text cover it without gaps (`cut_scan`), so to know how many tokens come before a
place is to know its offset. Counts are easier to work with than offsets: they are compared with
each other by `omega`, and a parser that passes tokens counts up. -/

namespace Token

/-- The offset at which the first `n` tokens end. With more than there are, that is the end of the
text. -/
def boundary (tokens : List Token) (n : Nat) : Nat := (joined (tokens.take n)).utf8ByteSize

/-- Later boundaries are at larger offsets, or at the same one: the bytes between are those of the
tokens between. -/
theorem boundary_mono (tokens : List Token) {m n : Nat} (h : m ≤ n) :
    boundary tokens m ≤ boundary tokens n := by
  obtain ⟨rest, hrest⟩ := List.take_prefix_take_left (l := tokens) h
  rw [boundary, boundary, ← hrest, joined_append, String.utf8ByteSize_append]
  exact Nat.le_add_right _ _

theorem cut_scan (source : String) : Cut 0 source.toList (scan source) :=
  cut_scanFrom 0 0 source.toList

/-- Nothing of a text is lost in its tokens. This is where an offset into the tokens becomes one
into the text. -/
theorem joined_scan (source : String) : joined (scan source) = source := by
  rw [(cut_scan source).joined_eq, String.ofList_toList]

theorem boundary_length (source : String) :
    boundary (scan source) (scan source).length = source.utf8ByteSize := by
  rw [boundary, List.take_length, joined_scan]

/-- A token stands where those before it end, and is the longest word there. -/
theorem head_of_scan {source : String} {before after : List Token} {token : Token}
    (h : scan source = before ++ token :: after) :
    token.span = ⟨(joined before).utf8ByteSize,
      (joined before).utf8ByteSize + token.lexeme.utf8ByteSize⟩ ∧
      token.kind.IsLongest token.lexeme.toList (joined (token :: after)).toList := by
  have hcut := cut_scan source
  rw [h] at hcut
  obtain ⟨rest, hafter⟩ := hcut.of_append
  rw [Nat.zero_add] at hafter
  exact hafter.head

/-- The text of a token is a word of the pattern of its kind, and the kind decides whether it may be
anything but ASCII. -/
theorem isAscii_of_mem_scan {source : String} {token : Token} (h : token ∈ scan source)
    (hkind : token.kind ≠ .symbol) : IsAscii token.lexeme := by
  obtain ⟨before, after, hscan⟩ := List.append_of_mem h
  have hlongest := (head_of_scan hscan).2
  rw [IsAscii]
  cases htext : token.lexeme.toList with
  | nil => exact (hlongest.ne_nil htext).elim
  | cons c u =>
    have hmem := hlongest.mem
    rw [htext] at hmem
    exact TokenKind.toNat_lt_of_word (TokenKind.mem_pattern_iff.mp hmem) hkind

theorem isAscii_joined {tokens : List Token} (h : ∀ t ∈ tokens, IsAscii t.lexeme) :
    IsAscii (joined tokens) := by
  induction tokens with
  | nil => simp [IsAscii, joined]
  | cons token tokens ih =>
    obtain ⟨htoken, htokens⟩ := List.forall_mem_cons.mp h
    rw [joined_cons, isAscii_append]
    exact ⟨htoken, ih htokens⟩

/-- A token ranges over one step from boundary to boundary. All other ranges are put together from
those of tokens, so this is the base case for what follows. -/
theorem span_of_scan {source : String} {before after : List Token} {token : Token}
    (h : scan source = before ++ token :: after) :
    token.span = ⟨boundary (scan source) before.length,
      boundary (scan source) (before.length + 1)⟩ := by
  have htake : (before ++ token :: after).take (before.length + 1) = before ++ [token] := by
    rw [List.take_length_add_append, List.take_succ_cons, List.take_zero]
  rw [(head_of_scan h).1, boundary, boundary, h, htake, List.take_left, joined_append,
    String.utf8ByteSize_append, joined_singleton]

end Token

open ThreeAddress.ParserState

variable {source : String} {m n : Nat} {span span' : Span} {st st' : ParserState}

/-! ## Places in a text

`PointsInto` is what is promised of a diagnostic, in terms of offsets and of the text alone.
`Indicated` is what is shown of it on the way: counts of tokens in place of offsets, and no symbols
in place of ASCII. -/

/-- The offset is where one token ends and the next begins, or at one end of the text. It is stated
with a split of the tokens and not with `boundary`, so that it can be read without the counts. -/
def IsBoundary (source : String) (offset : Nat) : Prop :=
  ∃ before after, Token.scan source = before ++ after ∧
    offset = (Token.joined before).utf8ByteSize

/-- The diagnostic has one range, which goes from one boundary to another. The text before it is of
ASCII, so that it begins at the same number of characters and of bytes.

Of the text within the range and behind it nothing is said: the range may be that of a symbol, and
then its end in bytes is not its end in characters. -/
def Diagnostic.PointsInto (source : String) (diagnostic : Diagnostic) : Prop :=
  ∃ span, diagnostic.spans = [span] ∧ span.start ≤ span.stop ∧ span.stop ≤ source.utf8ByteSize ∧
    IsBoundary source span.start ∧ IsBoundary source span.stop ∧
    ∃ before after, source = before ++ after ∧ IsAscii before ∧
      before.utf8ByteSize = span.start ∧ before.length = span.start

namespace Span

/-- The range goes from one boundary to another, both of them among those from the end of `m` tokens
to the end of `n`. The two counts say where a part of the program was read, and are what parts are
put in order by. -/
def Between (source : String) (m n : Nat) (span : Span) : Prop :=
  ∃ i j, m ≤ i ∧ i ≤ j ∧ j ≤ n ∧
    span = ⟨Token.boundary (Token.scan source) i, Token.boundary (Token.scan source) j⟩

/-- The range goes from one boundary to another, and there are no symbols before it. The range may
itself be that of a symbol, as it is for a token that nothing can be made of. -/
def Indicated (source : String) (span : Span) : Prop :=
  ∃ i j, i ≤ j ∧ j ≤ (Token.scan source).length ∧
    span = ⟨Token.boundary (Token.scan source) i, Token.boundary (Token.scan source) j⟩ ∧
    ∀ t ∈ (Token.scan source).take i, t.kind ≠ .symbol

theorem Between.le (h : span.Between source m n) : m ≤ n := by
  obtain ⟨i, j, hi, hij, hj, -⟩ := h
  omega

/-- A range can be taken to lie in a wider part of the text. Parts of an expression are placed in
the whole of it this way. -/
theorem Between.mono {m' n' : Nat} (h : span.Between source m n) (hm : m' ≤ m) (hn : n ≤ n') :
    span.Between source m' n' := by
  obtain ⟨i, j, hi, hij, hj, hspan⟩ := h
  exact ⟨i, j, by omega, hij, by omega, hspan⟩

/-- What two parts in a row cover. The condition `n ≤ m'` is that the second begins no earlier than
the first ends, and without it the range could be upside down. -/
theorem Between.through {m' n' : Nat} (h : span.Between source m n)
    (h' : span'.Between source m' n') (hle : n ≤ m') :
    (span.through span').Between source m n' := by
  obtain ⟨i, j, hi, hij, hj, rfl⟩ := h
  obtain ⟨i', j', hi', hij', hj', rfl⟩ := h'
  exact ⟨i, j', hi, by omega, hj', rfl⟩

end Span

/-- The one range of the diagnostic is indicated. That there is exactly one is part of the
statement: a diagnostic with none could not be shown in the text at all. -/
def Diagnostic.Indicated (source : String) (diagnostic : Diagnostic) : Prop :=
  ∃ span, diagnostic.spans = [span] ∧ span.Indicated source

theorem isBoundary_boundary (source : String) (n : Nat) :
    IsBoundary source (Token.boundary (Token.scan source) n) :=
  ⟨_, _, (List.take_append_drop n (Token.scan source)).symm, rfl⟩

/-- Text without symbols is of ASCII, token by token. -/
theorem isAscii_of_take (h : ∀ t ∈ (Token.scan source).take n, t.kind ≠ .symbol) :
    IsAscii (Token.joined ((Token.scan source).take n)) :=
  Token.isAscii_joined fun t ht => Token.isAscii_of_mem_scan (List.mem_of_mem_take ht) (h t ht)

/-- From counts of tokens to offsets in the text. Order comes from `boundary_mono`, the split of the
text from the split of its tokens, and the equality of bytes and characters from there being no
symbols before the range. -/
theorem Diagnostic.Indicated.pointsInto {diagnostic : Diagnostic}
    (h : diagnostic.Indicated source) : diagnostic.PointsInto source := by
  obtain ⟨_, hspans, i, j, hij, hj, rfl, hsymbol⟩ := h
  have hascii := isAscii_of_take hsymbol
  refine ⟨_, hspans, Token.boundary_mono _ hij, ?_, isBoundary_boundary source i,
    isBoundary_boundary source j, Token.joined ((Token.scan source).take i),
    Token.joined ((Token.scan source).drop i), ?_, hascii, rfl,
    (utf8ByteSize_of_isAscii hascii).symm⟩
  · rw [← Token.boundary_length source]
    exact Token.boundary_mono _ hj
  · rw [← Token.joined_append, List.take_append_drop, Token.joined_scan]

/-! ## Clear of symbols

The invariant of the parser. It concerns only what is behind the cursor, since what is ahead is not
looked at until it is passed. -/

namespace ParserState

/-- The parser is at a place in the text, and has passed no symbol. The first half is what
`Restores` keeps, the second is what every successful step keeps: a parser that reads a symbol fails
at it. -/
def Clear (source : String) (st : ParserState) : Prop :=
  st.tokens = Token.scan source ∧ ∀ t ∈ st.cursor.before, t.kind ≠ .symbol

theorem clear_start (source : String) : Clear source (.start source) := ⟨rfl, by simp [start]⟩

/-- The first tokens of the text, as many as have been passed, are those behind the cursor in
reverse. -/
theorem Clear.take_position (h : Clear source st) :
    (Token.scan source).take st.position = st.cursor.before.reverse := by
  rw [← h.1, tokens, position, ← List.length_reverse, List.take_left]

theorem Clear.position_le (h : Clear source st) : st.position ≤ (Token.scan source).length := by
  rw [← h.1, ← position_add_remaining]
  exact Nat.le_add_right _ _

/-- To pass tokens that are no symbols is to stay clear. Those that are skipped over are blanks and
line ends, so only the token that was read has to be asked about. -/
theorem Clear.passed {raw : List Token} (h : Clear source st) (hpassed : Passed raw st st')
    (hraw : ∀ t ∈ raw, t.kind ≠ .symbol) : Clear source st' := by
  refine ⟨hpassed.beside.tokens.trans h.1, ?_⟩
  intro t ht
  rw [hpassed.before, List.mem_append, List.mem_reverse] at ht
  rcases ht with ht | ht
  · exact hraw t ht
  · exact h.2 t ht

theorem Passed.position_eq {raw : List Token} (h : Passed raw st st') :
    st'.position = st.position + raw.length := by
  rw [position, h.before, List.length_append, List.length_reverse, Nat.add_comm, position]

/-- What is passed over without being read is no symbol. -/
theorem kind_ne_symbol_of_isQuiet {token : Token} (h : st.isQuiet token) :
    token.kind ≠ .symbol := by
  intro hkind
  simp [isQuiet, hkind] at h

/-- A range that begins behind the parser has no symbols before it, wherever it ends. -/
theorem indicated_of_position_le (h : Clear source st) {i j : Nat} (hi : i ≤ st.position)
    (hij : i ≤ j) (hj : j ≤ (Token.scan source).length) :
    Span.Indicated source
      ⟨Token.boundary (Token.scan source) i, Token.boundary (Token.scan source) j⟩ := by
  refine ⟨i, j, hij, hj, rfl, ?_⟩
  intro t ht
  have hmem := List.take_subset_take_left (Token.scan source) hi ht
  rw [h.take_position, List.mem_reverse] at hmem
  exact h.2 t hmem

/-- What lies behind the parser can be pointed at. It is for this that a part of an expression can
be complained of after more has been read. -/
theorem Clear.indicated (h : Clear source st) (hspan : span.Between source m st.position) :
    span.Indicated source := by
  obtain ⟨i, j, -, hij, hj, rfl⟩ := hspan
  exact indicated_of_position_le h (by omega) hij (hj.trans h.position_le)

/-- So can the next token, or the end of the text. The next token may be a symbol, which is the case
in which this matters. -/
theorem Clear.indicated_cursor (h : Clear source st) : st.cursor.span.Indicated source := by
  rcases st with ⟨⟨before, after⟩, nesting, openParens⟩
  have hscan : Token.scan source = before.reverse ++ after := h.1.symm
  have hlength : (Token.scan source).length = before.length + after.length := by
    rw [hscan, List.length_append, List.length_reverse]
  cases after with
  | cons token after =>
    have hspan := Token.span_of_scan hscan
    rw [List.length_reverse] at hspan
    rw [List.length_cons] at hlength
    show token.span.Indicated source
    rw [hspan]
    exact indicated_of_position_le h (Nat.le_refl _) (Nat.le_succ _) (by omega)
  | nil =>
    -- the end of the text is taken from the last token passed, or is the beginning of an empty text
    have hend : Cursor.endSpan ⟨before, []⟩ = ⟨Token.boundary (Token.scan source) before.length,
        Token.boundary (Token.scan source) before.length⟩ := by
      cases before with
      | nil => rfl
      | cons last before =>
        rw [List.reverse_cons, List.append_assoc] at hscan
        have hspan := Token.span_of_scan hscan
        rw [List.length_reverse] at hspan
        show Span.point last.span.stop = _
        rw [hspan, Span.point, List.length_cons]
    show (Cursor.endSpan ⟨before, []⟩).Indicated source
    rw [hend]
    exact indicated_of_position_le h (Nat.le_refl _) (Nat.le_refl _) (Nat.le.intro hlength.symm)

end ParserState

end ThreeAddress
