import Mathlib.Data.List.DropRight
import ThreeAddress.Proofs.Boundaries
import ThreeAddress.Proofs.Continuing
import ThreeAddress.Proofs.Shifting

/-!
# Programs line by line

Two texts with a line end between them are read as the statements of the first and then those of the
second (`parseProgram_append_line`), and what is wrong with the second is wrong with both.

That is so of their tokens to begin with. No token but a line end reaches over one, so each text is
cut as it is for itself, and the line ends between them are one token (`Token.scan_append_line`).
What the parser makes of that is the matter of the modules on reading on and on reading further on.

The theorem is an equation between outcomes, so that it says all there is to know about the longer
text, for the second text with its faults as well as without. Of the first text it supposes that it
is a program. If it is not, the longer text may still be one: a parenthesis that is open at the end
of the first text may be closed in the second.
-/

set_option autoImplicit false

namespace ThreeAddress

open ThreeAddress.Parser ThreeAddress.ParserState

/-! ## Words at a line end

Words are of line ends only or of anything else only, which is a property of each pattern. So a word
that begins before a line end stops there. -/

namespace TokenKind

variable {kind kind' other : TokenKind} {c : Char} {u word word' text zs : List Char}

/-- A word is of line ends, or has none. Each pattern is looked at; for the fixed spellings it is
decided. -/
theorem isLineEnd_of_word (h : Word kind c u) :
    (∀ d ∈ c :: u, isLineEnd d) ∨ ∀ d ∈ c :: u, isLineEnd d = false := by
  have hpoint : isLineEnd '.' = false := by decide
  have hdigits : ∀ {cs : List Char}, (∀ d ∈ cs, d.isDigit) → ∀ d ∈ cs, isLineEnd d = false :=
    fun hcs d hd => isLineEnd_of_isDigit (hcs d hd)
  cases h with
  | newLine hc hu => exact .inl (List.forall_mem_cons.mpr ⟨hc, hu⟩)
  | whitespace hc hu =>
    have hblank : ∀ d ∈ c :: u, isBlank d := List.forall_mem_cons.mpr ⟨hc, hu⟩
    exact .inr fun d hd => isLineEnd_eq_false isBlank (by decide) (by decide) (hblank d hd)
  | name hc hu =>
    have hname : ∀ d ∈ c :: u, isNameRest d :=
      List.forall_mem_cons.mpr ⟨isNameRest_of_isNameStart hc, hu⟩
    exact .inr fun d hd => isLineEnd_eq_false isNameRest (by decide) (by decide) (hname d hd)
  | int hc hu => exact .inr (hdigits (List.forall_mem_cons.mpr ⟨hc, hu⟩))
  | point hc hwhole hfraction =>
    right
    exact List.forall_mem_cons.mpr ⟨isLineEnd_of_isDigit hc, List.forall_mem_append.mpr
      ⟨hdigits hwhole, List.forall_mem_cons.mpr ⟨hpoint, hdigits hfraction⟩⟩⟩
  | barePoint hne hu => exact .inr (List.forall_mem_cons.mpr ⟨hpoint, hdigits hu⟩)
  | fixed h =>
    have hall : ∀ s ∈ spellings, s.1.all fun d => !isLineEnd d := by decide
    right
    simpa only [List.all_eq_true, Bool.not_eq_true'] using hall _ h
  | symbol =>
    cases hend : isLineEnd c with
    | false => exact .inr (by simp [hend])
    | true => exact .inl (by simp [hend])

/-- No word that begins in the first text goes on in the second. Without a character in the first
text there is none to begin there, and nothing is asked. -/
def Apart (text zs : List Char) : Prop :=
  text ≠ [] → ∀ (other : TokenKind) u, u ∈ other.pattern → u <+: text ++ zs → u <+: text

/-- A word that goes on in a second text has the last character of the first and the first of the
second. So it is enough to know two characters of the texts to exclude it. -/
theorem isPrefix_or_mem (hne : text ≠ []) (hbegins : u <+: text ++ zs) :
    u <+: text ∨ ∃ c ∈ text.getLast?, ∃ d ∈ zs.head?, c ∈ u ∧ d ∈ u := by
  rcases List.prefix_or_prefix_of_prefix hbegins (List.prefix_append text zs) with h | ⟨more, rfl⟩
  · exact .inl h
  rw [List.prefix_append_right_inj] at hbegins
  cases more with
  | nil => exact .inl (by rw [List.append_nil])
  | cons d more =>
    obtain ⟨after, rfl⟩ := hbegins
    obtain ⟨front, c, rfl⟩ := (List.eq_nil_or_concat text).resolve_left hne
    exact .inr ⟨c, by simp, d, rfl, by simp, by simp⟩

theorem apart_of_lineEnd (htext : ∀ c ∈ text.getLast?, isLineEnd c = false)
    (hzs : ∀ c ∈ zs.head?, isLineEnd c) : Apart text zs := by
  intro hne other u hu hbegins
  rcases isPrefix_or_mem hne hbegins with h | ⟨c, hc, d, hd, hmem, hmem'⟩
  · exact h
  -- the word would hold the last character of the text and a line end
  cases u with
  | nil => cases hmem
  | cons b u =>
    rcases isLineEnd_of_word (mem_pattern_iff.mp hu) with hall | hnone
    · have hend := hall c hmem
      rw [htext c hc] at hend
      cases hend
    · have hend := hnone d hmem'
      rw [hzs d hd] at hend
      cases hend

/-- The longest word of a text stays the longest if more comes behind that no word reaches into. -/
theorem IsLongest.append (h : IsLongest kind word text) (hapart : Apart text zs) :
    IsLongest kind word (text ++ zs) := by
  have hne : text ≠ [] := by
    rintro rfl
    exact h.ne_nil (List.prefix_nil.mp h.isPrefix)
  have hwithin := hapart hne
  exact {
    isPrefix := h.isPrefix.trans (List.prefix_append text zs)
    ne_nil := h.ne_nil
    mem := h.mem
    length_le := fun other u hu hbegins => h.length_le other u hu (hwithin other u hu hbegins)
    kind_eq := h.kind_eq
    symbol_last := fun hkind other u hu hbegins =>
      h.symbol_last hkind other u hu (hwithin other u hu hbegins) }

/-- A text begins with one longest word, which has one kind. Both fields about kinds are needed: two
patterns for one word are the same or one of them is that of symbols, and then symbols come last. -/
theorem IsLongest.unique (h : IsLongest kind word text) (h' : IsLongest kind' word' text) :
    kind = kind' ∧ word = word' := by
  have hlength : word.length = word'.length :=
    Nat.le_antisymm (h'.length_le kind word h.mem h.isPrefix)
      (h.length_le kind' word' h'.mem h'.isPrefix)
  obtain rfl : word = word' :=
    (List.prefix_of_prefix_length_le h.isPrefix h'.isPrefix hlength.le).eq_of_length hlength
  refine ⟨?_, rfl⟩
  rcases h'.kind_eq kind h.mem with heq | hsymbol
  · exact heq
  · exact hsymbol.trans (h.symbol_last hsymbol kind' word h'.mem h'.isPrefix h.ne_nil).symm

end TokenKind

/-! ## Texts at a line end

Because words are unique, a text has one cut, and the tokens of a text are known as soon as any cut
of it is. So cuts are put together here, and the scanner is not run. -/

namespace Token

/-- How many bytes the characters take. -/
def bytes (cs : List Char) : Nat := (String.ofList cs).utf8ByteSize

variable {offset : Nat} {cs zs rest ends : List Char} {tokens tokens' : List Token}

theorem bytes_append (cs zs : List Char) : bytes (cs ++ zs) = bytes cs + bytes zs := by
  rw [bytes, String.ofList_append, String.utf8ByteSize_append]
  rfl

theorem bytes_toList (text : String) : bytes text.toList = text.utf8ByteSize := by
  rw [bytes, String.ofList_toList]

/-- There is no other way to cut a text than that of the scanner. -/
theorem Cut.scanFrom_eq (h : Cut offset cs tokens) : scanFrom offset 0 cs = tokens := by
  induction h with
  | nil => rfl
  | @cons offset stop kind word rest tokens hlongest hstop _ ih =>
    cases word with
    | nil => exact (hlongest.ne_nil rfl).elim
    | cons c word =>
      have hmunch := TokenKind.isLongest_munch c (word ++ rest)
      rw [List.cons_append, scanFrom]
      generalize TokenKind.munch c (word ++ rest) = cut at hmunch ⊢
      obtain ⟨kind', more⟩ := cut
      obtain ⟨rfl, hword⟩ := hmunch.unique hlongest
      have hdrop : (word ++ rest).drop more = rest := by
        have hsplit := List.take_append_drop more (word ++ rest)
        rw [(List.cons.inj hword).2] at hsplit
        exact List.append_cancel_left hsplit
      dsimp only
      rw [hword, ← hstop, scanFrom_drop, hdrop, ih]

/-- The same text further on is cut in the same way, with its places moved. -/
theorem Cut.shift (h : Cut offset cs tokens) (k : Nat) :
    Cut (offset + k) cs (tokens.map (Token.shift k)) := by
  induction h with
  | nil => exact .nil
  | cons hlongest hstop _ ih =>
    refine .cons hlongest ?_ ih
    rw [hstop, Nat.add_right_comm]

/-- Texts that no word goes over from one to the other are cut each for itself. It has to be
supposed of every end of the first text, as each of its words is the longest in what is left from
there. -/
theorem Cut.append (h : Cut offset cs tokens)
    (hapart : ∀ text, text <:+ cs → TokenKind.Apart text zs)
    (h' : Cut (offset + bytes cs) zs tokens') : Cut offset (cs ++ zs) (tokens ++ tokens') := by
  induction h with
  | nil => exact h'
  | @cons offset stop kind word rest tokens hlongest hstop _ ih =>
    have hlongest' := hlongest.append (hapart _ List.suffix_rfl)
    rw [List.append_assoc] at hlongest' ⊢
    refine .cons hlongest' hstop (ih ?_ ?_)
    · exact fun text htext => hapart text (htext.trans (List.suffix_append word rest))
    · rwa [hstop, Nat.add_assoc, ← bytes, ← bytes_append]

/-- Texts that meet at a line end are cut each for itself. -/
theorem Cut.append_lineEnd (h : Cut offset cs tokens)
    (hcs : ∀ c ∈ cs.getLast?, isLineEnd c = false) (hzs : ∀ c ∈ zs.head?, isLineEnd c)
    (h' : Cut (offset + bytes cs) zs tokens') : Cut offset (cs ++ zs) (tokens ++ tokens') := by
  apply h.append _ h'
  rintro text ⟨front, rfl⟩
  apply TokenKind.apart_of_lineEnd _ hzs
  intro c hc
  apply hcs
  rw [List.getLast?_append, hc]
  rfl

/-- Line ends in a row are one token, if there are any. -/
def lineEnds (offset : Nat) (ends : List Char) : Option Token :=
  if ends = [] then none
  else some ⟨.newLine, String.ofList ends, ⟨offset, offset + bytes ends⟩⟩

theorem kind_of_mem_lineEnds {token : Token} (h : token ∈ lineEnds offset ends) :
    token.kind = .newLine := by
  rw [lineEnds] at h
  split at h
  · cases h
  · cases h
    rfl

/-- Line ends in front of a text are cut off as one token, if there are any and the text goes on
with something else. -/
theorem cut_lineEnds (hends : ∀ c ∈ ends, isLineEnd c)
    (hrest : ∀ c ∈ rest.head?, isLineEnd c = false) (h : Cut (offset + bytes ends) rest tokens) :
    Cut offset (ends ++ rest) ((lineEnds offset ends).toList ++ tokens) := by
  cases ends with
  | nil => exact h
  | cons c ends =>
    obtain ⟨hc, hmore⟩ := List.forall_mem_cons.mp hends
    have hlongest : TokenKind.IsLongest .newLine (c :: (ends ++ rest).takeWhile isLineEnd)
        (c :: (ends ++ rest)) :=
      TokenKind.isLongest_takeWhile (by simp [TokenKind.starting, hc]) TokenKind.noConfusion
        fun u => TokenKind.mem_newLine.trans (and_iff_right hc)
    rw [takeWhile_append_of_stop hmore hrest] at hlongest
    exact .cons hlongest rfl h

/-! Any text is split where its line ends begin, from behind or from the front. With that, the line
ends of both texts and the one between them can be taken together. -/

/-- The line ends at the end of a text. -/
theorem exists_ends (cs : List Char) :
    ∃ text ends, cs = text ++ ends ∧ (∀ c ∈ text.getLast?, isLineEnd c = false) ∧
      ∀ c ∈ ends, isLineEnd c := by
  refine ⟨cs.rdropWhile isLineEnd, cs.rtakeWhile isLineEnd,
    List.rdropWhile_append_rtakeWhile.symm, ?_, fun c => List.mem_rtakeWhile_imp⟩
  intro c hc
  obtain ⟨hne, rfl⟩ := List.mem_getLast?_eq_getLast hc
  simpa using List.rdropWhile_last_not isLineEnd cs hne

/-- The line ends that a text begins with. -/
theorem exists_begins (cs : List Char) :
    ∃ begins rest, cs = begins ++ rest ∧ (∀ c ∈ begins, isLineEnd c) ∧
      ∀ c ∈ rest.head?, isLineEnd c = false := by
  refine ⟨cs.takeWhile isLineEnd, cs.dropWhile isLineEnd, List.takeWhile_append_dropWhile.symm,
    fun c => List.mem_takeWhile_imp, ?_⟩
  intro c hc
  have hstop := List.head?_dropWhile_not isLineEnd cs
  rwa [hc] at hstop

/-- The tokens of two texts with a line end between them are those of the first and, further on,
those of the second, but that the line ends in the middle are one token. -/
theorem scan_append_line (a b : String) :
    ∃ (left more : List Token) (ending lead : Option Token) (newLine : Token),
      scan a = left ++ ending.toList ∧ scan b = lead.toList ++ more ∧
        scan (a ++ "\n" ++ b) =
          left ++ newLine :: more.map (Token.shift (a.utf8ByteSize + 1)) ∧
        (∀ t ∈ ending, t.kind = .newLine) ∧ (∀ t ∈ lead, t.kind = .newLine) ∧
        newLine.kind = .newLine := by
  obtain ⟨text, ends, ha, htext, hends⟩ := exists_ends a.toList
  obtain ⟨begins, rest, hb, hbegins, hrest⟩ := exists_begins b.toList
  have hleft : Cut 0 text (scanFrom 0 0 text) := cut_scanFrom 0 0 text
  have hmore : Cut (0 + bytes begins) rest (scanFrom (0 + bytes begins) 0 rest) :=
    cut_scanFrom (0 + bytes begins) 0 rest
  generalize scanFrom 0 0 text = left at hleft
  generalize scanFrom (0 + bytes begins) 0 rest = more at hmore
  let offset := 0 + bytes text
  -- all line ends in the middle: the last of the first text, the one between, and the first of the
  -- second
  let middle := ends ++ '\n' :: begins
  obtain ⟨newLine, hnewLine⟩ : ∃ newLine, lineEnds offset middle = some newLine := by
    simp [lineEnds, middle]
  refine ⟨left, more, lineEnds offset ends, lineEnds 0 begins, newLine, ?_, ?_, ?_,
    fun _ => kind_of_mem_lineEnds, fun _ => kind_of_mem_lineEnds, kind_of_mem_lineEnds hnewLine⟩
  · have hending : Cut offset (ends ++ []) ((lineEnds offset ends).toList ++ []) :=
      cut_lineEnds hends (by simp) .nil
    rw [List.append_nil, List.append_nil] at hending
    have hcut := hleft.append_lineEnd htext (fun c hc => hends c (List.mem_of_mem_head? hc)) hending
    rw [scan, ha, hcut.scanFrom_eq]
  · rw [scan, hb, (cut_lineEnds hbegins hrest hmore).scanFrom_eq]
  · have hmiddle : ∀ c ∈ middle, isLineEnd c :=
      List.forall_mem_append.mpr ⟨hends, List.forall_mem_cons.mpr ⟨by decide, hbegins⟩⟩
    have hhead : ∀ c ∈ (middle ++ rest).head?, isLineEnd c := by
      have hne : middle ≠ [] := by simp [middle]
      rw [List.head?_append_of_ne_nil _ hne]
      exact fun c hc => hmiddle c (List.mem_of_mem_head? hc)
    have hsize : offset + bytes middle = 0 + bytes begins + (a.utf8ByteSize + 1) := by
      have hone : bytes ['\n'] = 1 := by decide
      rw [← bytes_toList, ha, bytes_append, bytes_append, ← List.singleton_append, bytes_append]
      omega
    have htext' : (a ++ "\n" ++ b).toList = text ++ (middle ++ rest) := by
      simp [ha, hb, middle]
    have hline := hmore.shift (a.utf8ByteSize + 1)
    rw [← hsize] at hline
    have hcut := hleft.append_lineEnd htext hhead (cut_lineEnds hmiddle hrest hline)
    rw [scan, htext', hcut.scanFrom_eq, hnewLine]
    rfl

end Token

/-! ## Programs

The three parts meet. Up to the line end the longer text is read as the first (`Continuing`); from
there it is read as the second from behind its line ends, moved (`Shifting`); and both of the latter
are runs over the same tokens. -/

/-- The end of the text is at the number of its bytes. It is computed from the last token, and for
the empty text it is zero. -/
theorem endSpan_start (source : String) :
    (start source).cursor.endSpan = .point source.utf8ByteSize := by
  have hlength := Token.boundary_length source
  rcases List.eq_nil_or_concat (Token.scan source) with hnil | ⟨front, last, hscan⟩
  · rw [hnil] at hlength
    rw [start, Cursor.endSpan, hnil, ← hlength]
    rfl
  · rw [List.concat_eq_append] at hscan
    have hstop : last.span.stop = source.utf8ByteSize := by
      rw [Token.span_of_scan hscan, ← hlength, hscan, List.length_append, List.length_singleton]
    simp [start, Cursor.endSpan, hscan, hstop]

/-- A program is read from behind the line ends that it begins with. -/
theorem program_of_lead {source : String} {lead : Option Token} {more : List Token}
    (hscan : Token.scan source = lead.toList ++ more) (hlead : ∀ t ∈ lead, t.kind = .newLine)
    (stmts : List Stmt) :
    ∃ st raw, Passed raw (start source) st ∧ st.cursor.after = more ∧
      grow programTurn stmts (start source) = grow programTurn stmts st := by
  cases lead with
  | none => exact ⟨start source, [], .refl _, hscan, rfl⟩
  | some newLine =>
    have hkind := hlead newLine rfl
    have hloud : (start source).isQuiet newLine = false := by simp [isQuiet, start, hkind]
    have hsplit : (start source).cursor.after = [] ++ newLine :: more := hscan
    obtain ⟨st, hnext, hafter, hpassed⟩ := next_of_append hsplit (by simp) hloud
    exact ⟨st, _, hpassed, hafter, program_of_separator hnext (by rw [hkind]; rfl)⟩

/-- Programs compose line by line. Behind a text that is a program, and a line end, a second text is
read as it is for itself: its statements come after those of the first, and its faults are the
faults of both, with all places moved by the bytes in front.

What is equal is the whole outcome: statements with their places, or the diagnostic with its ranges
and its fault. Both texts may begin or end with line ends of their own, or with none. -/
theorem parseProgram_append_line {a b : String} {stmts : List Stmt}
    (h : parseProgram a = .ok stmts) :
    parseProgram (a ++ "\n" ++ b) =
      match parseProgram b with
      | .ok more => .ok (stmts ++ more.map (Stmt.shift (a.utf8ByteSize + 1)))
      | .error diagnostic => .error (diagnostic.shift (a.utf8ByteSize + 1)) := by
  obtain ⟨left, more, ending, lead, newLine, ha, hb, hjoined, hending, hlead, hline⟩ :=
    Token.scan_append_line a b
  obtain ⟨last, hprogram⟩ := runOn_ok_iff.mp h
  have hcont : Continued _ (start a) (start (a ++ "\n" ++ b)) :=
    ⟨⟨left, ending, newLine, ha, hjoined, hending, hline⟩, rfl, rfl⟩
  obtain ⟨s, raw, hs, hafter, hon⟩ := program_of_parting (.inl hcont) rfl hprogram
  obtain ⟨st, raw', hst, hafter', hfrom⟩ := program_of_lead hb hlead []
  -- behind the line ends both texts go on with the same tokens, as far apart as they begin
  have hmoved : Moved (a.utf8ByteSize + 1) st s := by
    refine ⟨by rw [hafter, hafter'], ?_, ?_, ?_⟩
    · have hone : "\n".utf8ByteSize = 1 := by decide
      rw [hs.endSpan_eq, hst.endSpan_eq, endSpan_start, endSpan_start, String.utf8ByteSize_append,
        String.utf8ByteSize_append, hone, Nat.add_comm]
      rfl
    · rw [hs.nesting, hst.nesting]
      rfl
    · rw [hs.openParens, hst.openParens]
      rfl
  have hshifts := shifts_program stmts [] hmoved
  rw [List.map_nil, List.append_nil] at hshifts
  rw [parseProgram, parseProgram, runOn, runOn, program, hon, hfrom]
  rcases hshifts.cases with ⟨more, _, _, _, hmore, hboth, rfl, -⟩ | ⟨d, _, _, hmore, hboth⟩
  · rw [hmore, hboth]
  · rw [hmore, hboth]

/-- A statement and a fault in the second text. Between the texts are three line ends in the first
case, and two in the second. -/
theorem parseProgram_append_line_cases :
    (∃ stmts more, parseProgram "x = 1\n" = .ok stmts ∧ parseProgram "\ny = x" = .ok more ∧
      parseProgram ("x = 1\n" ++ "\n" ++ "\ny = x") = .ok (stmts ++ more.map (Stmt.shift 7))) ∧
      ∃ diagnostic, parseProgram "(x" = .error diagnostic ∧
        parseProgram ("x = 1\n" ++ "\n" ++ "(x") = .error (diagnostic.shift 7) := by
  have hsize : "x = 1\n".utf8ByteSize + 1 = 7 := by decide
  have hstmts : (parseProgram "x = 1\n").toOption.isSome := by decide +kernel
  have hmore : (parseProgram "\ny = x").toOption.isSome := by decide +kernel
  obtain ⟨stmts, hstmts⟩ := Option.isSome_iff_exists.mp hstmts
  obtain ⟨more, hmore⟩ := Option.isSome_iff_exists.mp hmore
  rw [toOption_eq_some_iff] at hstmts hmore
  constructor
  · refine ⟨stmts, more, hstmts, hmore, ?_⟩
    rw [parseProgram_append_line hstmts, hmore, hsize]
  · have hfault : (parseProgram "(x").toOption.isNone := by decide +kernel
    obtain ⟨diagnostic, hfault⟩ := exists_of_isNone_toOption hfault
    refine ⟨diagnostic, hfault, ?_⟩
    rw [parseProgram_append_line hstmts, hfault, hsize]

end ThreeAddress
