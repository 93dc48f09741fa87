import ThreeAddress.Proofs.Shifting
import ThreeAddress.Proofs.Statements

/-!
# Looking ahead and reading on

What a statement is, and whether an operator follows, is decided by looking at the tokens that come
next, and then these are read. Looking goes over the tokens that are left without moving
(`upcomingKind`, `atEnd`, `upcomingAre`), reading moves the cursor past them one by one (`next`),
and each of them passes over the quiet ones in its own way. They come to the same, wherever the
parser stands and however deep in parentheses: what is seen ahead is what is read then
(`seen_iff_read`).

Nothing is asked of the state. It may have any tokens behind and ahead of the cursor and any number
of open parentheses, also such as no program leads to. The grammar needs the agreement wherever it
gets to, as it commits itself by looking: a statement that is seen to be an assignment is then read
as one, and if reading came upon another token there, a program would be refused for a token that it
does not have at that place.

For several tokens the two sides differ more than for one. Looking compares the kinds with the front
of one list, from which the quiet tokens have been taken out beforehand. Reading takes them out anew
in front of each token. That it takes out the same ones rests on `next` leaving the number of open
parentheses alone, for which line ends are quiet and for which they are not; that number is kept by
`enclosed`.
-/

set_option autoImplicit false

namespace ThreeAddress

namespace Parser

open ParserState

variable {st st' : ParserState} {token : Token} {tokens : List Token}

/-- Reads so many tokens, one after the other. Nothing in the grammar does this at once: it is the
other side of `upcomingAre`, and with one token it is `next` itself. -/
def nextTokens : (count : Nat) → Parser (List Token)
  | 0 => return []
  | count + 1 => do
    let token ← next
    return token :: (← nextTokens count)

/-! ## One token

Both directions are wanted below. Where a token is seen, reading must not fail, and a token that is
read must have been seen. -/

theorem head?_upcoming (st : ParserState) : st.upcoming.head? = st.ahead := List.head?_filter

/-- A token can be read just if it comes next among those that are not passed over. Where the cursor
is then is left open, as it depends on how many quiet tokens there were. -/
theorem next_ok_iff : (∃ st', next st = .ok token st') ↔ st.ahead = some token := by
  constructor
  · rintro ⟨st', hnext⟩
    exact ahead_of_next hnext
  · intro hahead
    obtain ⟨st', quiet, hnext, -⟩ := next_of_ahead hahead
    exact ⟨st', hnext⟩

/-- Reading fails just if no token is ahead but quiet ones. What it fails with, and where, is
`fault_of_next_eq`. -/
theorem next_error_iff : (∃ d st', next st = .error d st') ↔ st.ahead = none := by
  constructor
  · rintro ⟨d, st', hnext⟩
    exact (end_of_next hnext).1
  · intro hahead
    obtain ⟨d, st', hnext, -⟩ := next_of_ahead_none hahead
    exact ⟨d, st', hnext⟩

/-- The fault says that the text has ended, and it points to the end of the text, not to the place
where reading began: all quiet tokens on the way have been passed by then, and the span of a cursor
with nothing behind it is that end. -/
theorem fault_of_next_eq {d : Diagnostic} (h : next st = .error d st') :
    d = .form st.cursor.endSpan .unexpectedEnd := by
  obtain ⟨-, hafter, hpassed⟩ := end_of_next h
  have hspan : st'.cursor.span = st'.cursor.endSpan := by rw [Cursor.span, hafter]
  rw [fault_of_next h, hspan, hpassed.endSpan_eq]

/-! ## Tokens in a row

By induction on how many there are. What has to be carried through the induction is the list of
upcoming tokens as a whole, which loses its head when a token is read (`upcoming_of_next`). -/

/-- The tokens that can be read are the ones that come next and are not passed over. The count is
there beside the prefix because a shorter prefix of the same list is read by a smaller count. -/
theorem nextTokens_ok_iff {count : Nat} :
    (∃ st', nextTokens count st = .ok tokens st') ↔
      tokens.length = count ∧ tokens <+: st.upcoming := by
  induction count generalizing st tokens with
  | zero =>
    simp only [nextTokens, pure_ok_iff, List.length_eq_zero_iff]
    constructor
    · rintro ⟨st', rfl, -⟩
      exact ⟨rfl, List.nil_prefix⟩
    · rintro ⟨rfl, -⟩
      exact ⟨st, rfl, rfl⟩
  | succ count ih =>
    constructor
    · rintro ⟨st', h⟩
      -- the token that is read first is the head of what is upcoming, and its tail is upcoming then
      obtain ⟨token, st₁, hnext, h⟩ := bind_ok_iff.mp h
      obtain ⟨more, st₂, hmore, h⟩ := bind_ok_iff.mp h
      obtain ⟨rfl, rfl⟩ := pure_ok_iff.mp h
      obtain ⟨hlength, hprefix⟩ := ih.mp ⟨st₂, hmore⟩
      rw [upcoming_of_next hnext, List.length_cons, hlength]
      exact ⟨rfl, List.cons_prefix_cons.mpr ⟨rfl, hprefix⟩⟩
    · rintro ⟨hlength, hprefix⟩
      cases tokens with
      | nil => cases hlength
      | cons token more =>
        have hahead : st.ahead = some token := by
          obtain ⟨rest, hrest⟩ := hprefix
          rw [← head?_upcoming, ← hrest]
          rfl
        obtain ⟨st₁, hnext⟩ := next_ok_iff.mpr hahead
        rw [upcoming_of_next hnext, List.cons_prefix_cons] at hprefix
        obtain ⟨st', hmore⟩ := ih.mpr ⟨Nat.succ.inj hlength, hprefix.2⟩
        refine ⟨st', bind_ok_iff.mpr ⟨token, st₁, hnext, ?_⟩⟩
        exact bind_ok_iff.mpr ⟨more, st', hmore, rfl⟩

/-- Kinds are seen ahead just if as many tokens can be read and are of these kinds. -/
theorem begins_iff {kinds : List TokenKind} :
    st.begins kinds ↔ ∃ tokens st', nextTokens kinds.length st = .ok tokens st' ∧
      tokens.map (·.kind) = kinds := by
  rw [begins, List.isPrefixOf_iff_prefix, List.prefix_map_iff]
  constructor
  · rintro ⟨tokens, hprefix, rfl⟩
    rw [List.length_map]
    obtain ⟨st', hread⟩ := nextTokens_ok_iff.mpr ⟨rfl, hprefix⟩
    exact ⟨tokens, st', hread, rfl⟩
  · rintro ⟨tokens, st', hread, hkinds⟩
    exact ⟨tokens, (nextTokens_ok_iff.mp ⟨st', hread⟩).2, hkinds.symm⟩

/-- What is seen ahead is what is read then. Looking neither fails nor moves. A kind is seen just if
the next token is of that kind; the end is seen just if there is no next token, and then the text is
said to end where it does; and kinds are seen in a row just if as many tokens can be read and are of
these kinds, in this order. -/
theorem seen_iff_read (st : ParserState) :
    (∃ kind?, upcomingKind st = .ok kind? st ∧
      ∀ kind, kind? = some kind ↔ ∃ token st', next st = .ok token st' ∧ token.kind = kind) ∧
    (∃ ends, atEnd st = .ok ends st ∧
      (ends = true ↔ ∃ d st', next st = .error d st') ∧
      (ends = true ↔ ∃ st', next st = .error (.form st.cursor.endSpan .unexpectedEnd) st')) ∧
    ∀ kinds, ∃ agree, upcomingAre kinds st = .ok agree st ∧
      (agree = true ↔ ∃ tokens st', nextTokens kinds.length st = .ok tokens st' ∧
        tokens.map (·.kind) = kinds) := by
  refine ⟨⟨_, upcomingKind_eq st, ?_⟩, ⟨_, atEnd_eq st, ?_, ?_⟩, ?_⟩
  · intro kind
    simp only [Option.map_eq_some_iff, ← next_ok_iff, exists_and_right]
  · rw [Option.isNone_iff_eq_none, next_error_iff]
  · rw [Option.isNone_iff_eq_none, ← next_error_iff]
    constructor
    · rintro ⟨d, st', hnext⟩
      obtain rfl := fault_of_next_eq hnext
      exact ⟨st', hnext⟩
    · rintro ⟨st', hnext⟩
      exact ⟨_, st', hnext⟩
  · intro kinds
    exact ⟨st.begins kinds, rfl, begins_iff⟩

end Parser

end ThreeAddress
