import Mathlib.Data.List.TakeWhile
import ThreeAddress.Parser

/-!
# How a parser moves

A parser that succeeds has moved forward over tokens, and has otherwise left its state as it was:
the nesting and the open parentheses are what they were before (`Forward`). What single steps do is
said here once, as equations and as equivalences, so that what is built from them is taken apart
with these alone and not by unfolding.

The token that counts is the one `ahead`: lookahead is a question about it, and `next` reads it.

A loop is bounded by the tokens that are left. `grow_eq` says that the bound is not felt, as long as
every turn that goes on reads a token.

Success and failure are not treated alike. For success there are equivalences (`bind_ok_iff` and its
kind), by which a run that succeeded is taken apart from its end, and a run is put together. A
failure leaves the state in any condition it may be in, and those few properties that speak of
failures are proved from the definitions.

Two properties of parsers are carried through: that they only go forward, which most arguments about
states rest on, and that they pass at least one token, which makes loops end.
-/

set_option autoImplicit false

namespace ThreeAddress

namespace ParserState

/-- The next token that is not passed over. It depends on whether parentheses are open, since line
ends are passed over within them. -/
def ahead (st : ParserState) : Option Token := st.cursor.after.find? (!st.isQuiet ·)

/-- How many tokens are left, quiet ones included. All inductions on the course of a parser are on
this number. -/
def remaining (st : ParserState) : Nat := st.cursor.after.length

/-! Changes of the two counters, under names, so that lemmas about a state can be used for these
without opening a record. -/

/-- The state with another depth of nesting. -/
def nestedAt (nesting : Nat) (st : ParserState) : ParserState := { st with nesting := nesting }

/-- One level deeper. -/
def deepened (st : ParserState) : ParserState := { st with nesting := st.nesting + 1 }

/-- One level up again. -/
def raised (st : ParserState) : ParserState := { st with nesting := st.nesting - 1 }

/-- Behind an opening parenthesis, one level deeper. -/
def inside (st : ParserState) : ParserState :=
  { st with nesting := st.nesting + 1, openParens := st.openParens + 1 }

/-- Behind the closing parenthesis, one level up again. -/
def outside (st : ParserState) : ParserState :=
  { st with nesting := st.nesting - 1, openParens := st.openParens - 1 }

/-- The tokens `raw` come next in `st`, and `st'` is behind them. This is the whole effect of a
successful parser on its state; quiet tokens that were skipped are in `raw` as well. -/
structure Passed (raw : List Token) (st st' : ParserState) : Prop where
  after : st.cursor.after = raw ++ st'.cursor.after
  before : st'.cursor.before = raw.reverse ++ st.cursor.before
  nesting : st'.nesting = st.nesting
  openParens : st'.openParens = st.openParens

variable {st st' st'' : ParserState} {raw raw' : List Token}

theorem Passed.refl (st : ParserState) : Passed [] st st := ⟨rfl, rfl, rfl, rfl⟩

theorem Passed.trans (h : Passed raw st st') (h' : Passed raw' st' st'') :
    Passed (raw ++ raw') st st'' where
  after := by rw [h.after, h'.after, List.append_assoc]
  before := by rw [h'.before, h.before, List.reverse_append, List.append_assoc]
  nesting := h'.nesting.trans h.nesting
  openParens := h'.openParens.trans h.openParens

theorem Passed.remaining_eq (h : Passed raw st st') :
    st.remaining = raw.length + st'.remaining := by
  rw [remaining, h.after, List.length_append, remaining]

end ParserState

namespace Parser

open ParserState

variable {α β σ : Type} {st st' st'' : ParserState}

/-! ## Sequences

The outcome of a sequence from the outcomes of its parts, as an equation where the first outcome is
known and as an equivalence where that of the whole is. -/

theorem bind_of_ok {p : Parser α} {f : α → Parser β} {a : α} (h : p st = .ok a st') :
    (p >>= f) st = f a st' := by
  show EStateM.bind p f st = f a st'
  rw [EStateM.bind, h]

theorem bind_of_error {p : Parser α} {f : α → Parser β} {d : Diagnostic}
    (h : p st = .error d st') : (p >>= f) st = .error d st' := by
  show EStateM.bind p f st = .error d st'
  rw [EStateM.bind, h]

/-- Two sequences that come to the same after their first parts come to the same. The first parts
may start from different states. -/
theorem bind_eq_bind {p q : Parser α} {f : α → Parser β} (h : p st = q st') :
    (p >>= f) st = (q >>= f) st' := by
  show EStateM.bind p f st = EStateM.bind q f st'
  rw [EStateM.bind, EStateM.bind, h]

/-- A sequence succeeds if and only if both parts do, the second from where the first has stopped.
Every run of more than one step is taken apart with this. -/
theorem bind_ok_iff {p : Parser α} {f : α → Parser β} {b : β} :
    (p >>= f) st = .ok b st'' ↔ ∃ a st', p st = .ok a st' ∧ f a st' = .ok b st'' := by
  cases h : p st with
  | ok a st' =>
    rw [bind_of_ok h]
    constructor
    · intro hf
      exact ⟨a, st', rfl, hf⟩
    · rintro ⟨a', st₁, hp, hf⟩
      cases hp
      exact hf
  | error d st' =>
    rw [bind_of_error h]
    constructor
    · intro hf
      cases hf
    · rintro ⟨a', st₁, hp, -⟩
      cases hp

/-- A sequence fails where its first part does or, behind that, its second. -/
theorem bind_error_iff {p : Parser α} {f : α → Parser β} {d : Diagnostic} :
    (p >>= f) st = .error d st'' ↔
      p st = .error d st'' ∨ ∃ a st', p st = .ok a st' ∧ f a st' = .error d st'' := by
  cases h : p st with
  | ok a st' =>
    rw [bind_of_ok h]
    constructor
    · intro hf
      exact .inr ⟨a, st', rfl, hf⟩
    · rintro (hp | ⟨a', st₁, hp, hf⟩)
      · cases hp
      · cases hp
        exact hf
  | error d' st' =>
    rw [bind_of_error h]
    simp

theorem pure_ok_iff {a b : α} : (pure a : Parser α) st = .ok b st' ↔ a = b ∧ st = st' := by
  show EStateM.Result.ok a st = .ok b st' ↔ _
  simp

/-- To discard a value is to forget which one it was. -/
theorem discard_ok_iff {p : Parser α} : discard p st = .ok () st' ↔ ∃ a, p st = .ok a st' := by
  show EStateM.map (fun _ => PUnit.unit) p st = .ok () st' ↔ _
  rw [EStateM.map]
  cases h : p st <;> simp

theorem throw_ne_ok {d : Diagnostic} {a : α} : (throw d : Parser α) st ≠ .ok a st' := by
  intro h
  cases h

/-! ## Single tokens

What `next` does, from the token that is ahead and back. How it skips quiet tokens is worked out
here; for most of what follows it passes some tokens, of which only the last one counts. -/

/-- Skipping goes to the first token that is not quiet. The definition passes tokens one by one, and
this says where it arrives. -/
theorem skip_eq (quiet : Token → Bool) (cursor : Cursor) :
    cursor.skip quiet =
      ⟨(cursor.after.takeWhile quiet).reverse ++ cursor.before, cursor.after.dropWhile quiet⟩ := by
  rcases cursor with ⟨before, after⟩
  show Cursor.skip.pass quiet before after = _
  induction after generalizing before with
  | nil => rfl
  | cons token after ih =>
    rw [Cursor.skip.pass]
    by_cases h : quiet token
    · simp [h, ih]
    · simp [h]

/-- Quiet tokens and one that is not: the one is read, and all of them are passed. This is the form
for texts that are put together. -/
theorem next_of_append {token : Token} {quiet after : List Token}
    (h : st.cursor.after = quiet ++ token :: after) (hquiet : ∀ t ∈ quiet, st.isQuiet t)
    (hloud : st.isQuiet token = false) :
    ∃ st', next st = .ok token st' ∧ st'.cursor.after = after ∧
      Passed (quiet ++ [token]) st st' := by
  refine ⟨{ st with cursor := ⟨token :: (quiet.reverse ++ st.cursor.before), after⟩ }, ?_, rfl, ?_⟩
  · rw [next, skip_eq, h, List.takeWhile_append_of_pos hquiet, List.dropWhile_append_of_pos hquiet]
    simp [hloud]
  · refine ⟨?_, ?_, rfl, rfl⟩
    · simpa using h
    · simp

/-- What is ahead is read by `next`. -/
theorem next_of_ahead {token : Token} (h : st.ahead = some token) :
    ∃ st' quiet, next st = .ok token st' ∧ (∀ t ∈ quiet, st.isQuiet t) ∧
      st.isQuiet token = false ∧ Passed (quiet ++ [token]) st st' := by
  obtain ⟨hloud, quiet, after, hsplit, hquiet⟩ := List.find?_eq_some_iff_append.mp h
  simp only [Bool.not_not] at hquiet
  have hloud : st.isQuiet token = false := by simpa using hloud
  obtain ⟨st', hnext, -, hpassed⟩ := next_of_append hsplit hquiet hloud
  exact ⟨st', quiet, hnext, hquiet, hloud, hpassed⟩

theorem ahead_eq_none_iff : st.ahead = none ↔ ∀ t ∈ st.cursor.after, st.isQuiet t := by
  simp [ahead]

/-- With nothing ahead `next` fails, and it has passed all that was left. So even a failure of
`next` leaves the cursor where it can be accounted for. -/
theorem next_of_ahead_none (h : st.ahead = none) :
    ∃ d st', next st = .error d st' ∧ st'.cursor.after = [] ∧
      (∀ t ∈ st.cursor.after, st.isQuiet t) ∧ Passed st.cursor.after st st' := by
  have hquiet := ahead_eq_none_iff.mp h
  let last : Cursor := ⟨st.cursor.after.reverse ++ st.cursor.before, []⟩
  refine ⟨.form last.span .unexpectedEnd, { st with cursor := last }, ?_, rfl, hquiet,
    (List.append_nil _).symm, rfl, rfl, rfl⟩
  rw [next, skip_eq, List.takeWhile_eq_self_iff.mpr hquiet, List.dropWhile_eq_nil_iff.mpr hquiet]
  rfl

/-- What was read by `next` was ahead. With `next_of_ahead` this makes lookahead and reading two
views of one thing. -/
theorem ahead_of_next {token : Token} (h : next st = .ok token st') : st.ahead = some token := by
  cases hahead : st.ahead with
  | none =>
    obtain ⟨d, st'', herror, -⟩ := next_of_ahead_none hahead
    rw [herror] at h
    cases h
  | some other =>
    obtain ⟨st'', quiet, hother, -⟩ := next_of_ahead hahead
    rw [hother] at h
    cases h
    rfl

/-- Only at the end of the text there is no next token. -/
theorem end_of_next {d : Diagnostic} (h : next st = .error d st') :
    st.ahead = none ∧ st'.cursor.after = [] ∧ Passed st.cursor.after st st' := by
  have hnone : st.ahead = none := by
    cases hahead : st.ahead with
    | none => rfl
    | some token =>
      obtain ⟨st₁, quiet, hok, -⟩ := next_of_ahead hahead
      rw [hok] at h
      cases h
  obtain ⟨d', st₁, herror, hafter, -, hpassed⟩ := next_of_ahead_none hnone
  rw [h] at herror
  cases herror
  exact ⟨hnone, hafter, hpassed⟩

/-- What is complained of is that the text ends, at the place where the parser is then. -/
theorem fault_of_next {d : Diagnostic} (h : next st = .error d st') :
    d = .form st'.cursor.span .unexpectedEnd := by
  rw [next] at h
  split at h <;> cases h
  rfl

/-- Reading a token passes the quiet ones before it, and it. -/
theorem passed_of_next {token : Token} (h : next st = .ok token st') :
    ∃ quiet, (∀ t ∈ quiet, st.isQuiet t) ∧ st.isQuiet token = false ∧
      Passed (quiet ++ [token]) st st' := by
  obtain ⟨st'', quiet, hnext, hquiet, hloud, hpassed⟩ := next_of_ahead (ahead_of_next h)
  rw [hnext] at h
  cases h
  exact ⟨quiet, hquiet, hloud, hpassed⟩

/-- How deep the nesting is makes no difference to single tokens. -/
theorem next_nestedAt {token : Token} (h : next st = .ok token st') (nesting : Nat) :
    next (st.nestedAt nesting) = .ok token (st'.nestedAt nesting) := by
  rw [next] at h ⊢
  have hskip : (st.nestedAt nesting).cursor.skip (st.nestedAt nesting).isQuiet =
      st.cursor.skip st.isQuiet := rfl
  rw [hskip]
  split at h
  next =>
    cases h
    rfl
  next => cases h

theorem nesting_of_next {token : Token} (h : next st = .ok token st') :
    st'.nesting = st.nesting := by
  obtain ⟨quiet, -, -, hpassed⟩ := passed_of_next h
  exact hpassed.nesting

theorem next_deepened {token : Token} (h : next st = .ok token st') :
    next st.deepened = .ok token st'.deepened := by
  rw [deepened, deepened, nesting_of_next h]
  exact next_nestedAt h (st.nesting + 1)

theorem next_raised {token : Token} (h : next st = .ok token st') :
    next st.raised = .ok token st'.raised := by
  rw [raised, raised, nesting_of_next h]
  exact next_nestedAt h (st.nesting - 1)

/-! Lookahead, as a question about `ahead`. None of these moves the parser or fails. -/

theorem upcomingKind_eq (st : ParserState) :
    upcomingKind st = .ok (st.ahead.map (·.kind)) st := rfl

theorem atEnd_eq (st : ParserState) : atEnd st = .ok st.ahead.isNone st := by
  show EStateM.Result.ok ((st.ahead.map (·.kind)).isNone) st = _
  rw [Option.isNone_map]

/-- A token is read as something if it is read and can be taken for that. -/
theorem tokenAs_ok_iff {convert : Token → Except SyntaxFault α} {a : α} :
    tokenAs convert st = .ok a st' ↔ ∃ token, next st = .ok token st' ∧ convert token = .ok a := by
  rw [tokenAs, bind_ok_iff]
  constructor
  · rintro ⟨token, st'', hnext, h⟩
    cases hconvert : convert token with
    | error fault =>
      rw [hconvert] at h
      exact (throw_ne_ok h).elim
    | ok b =>
      rw [hconvert] at h
      obtain ⟨rfl, rfl⟩ := pure_ok_iff.mp h
      exact ⟨token, hnext, hconvert⟩
  · rintro ⟨token, hnext, hconvert⟩
    refine ⟨token, st', hnext, ?_⟩
    rw [hconvert]
    rfl

/-- A lookahead for something that a token can be taken for: it answers from the token ahead, and
leaves the state as it was. The two combinators it is made of cancel out: the one turns a failure
into an answer, the other takes the cursor back. -/
theorem lookahead_tokenAs (convert : Token → Except SyntaxFault α) (st : ParserState) :
    lookahead (tokenAs convert) st =
      .ok (st.ahead.bind fun token => (convert token).toOption) st := by
  -- passing tokens changes the cursor only, which is put back
  have hback : ∀ {raw st'}, Passed raw st st' → { st' with cursor := st.cursor } = st := by
    intro raw st' h
    rcases st with ⟨cursor, nesting, openParens⟩
    have hnesting := h.nesting
    have hopen := h.openParens
    simp only at hnesting hopen
    simp only [hnesting, hopen]
  rw [lookahead, peek, possibly, tokenAs]
  cases hahead : st.ahead with
  | none =>
    obtain ⟨d, st', hnext, -, -, hpassed⟩ := next_of_ahead_none hahead
    rw [bind_of_error hnext]
    simp only [hback hpassed, Option.bind_none]
  | some token =>
    obtain ⟨st', quiet, hnext, -, -, hpassed⟩ := next_of_ahead hahead
    rw [bind_of_ok hnext]
    cases hconvert : convert token with
    | error fault =>
      simp only [Option.bind_some, hconvert, Except.toOption]
      exact congrArg _ (hback hpassed)
    | ok a =>
      simp only [Option.bind_some, hconvert, Except.toOption]
      exact congrArg _ (hback hpassed)

/-! ## Coming back

Where a parser comes back to matters only if it fails; for success these combinators make no
difference, or one that can be named. -/

theorem attempt_ok_iff {p : Parser α} {a : α} : attempt p st = .ok a st' ↔ p st = .ok a st' := by
  rw [attempt]
  cases h : p st <;> simp

theorem peek_ok_iff {p : Parser α} {a : α} :
    peek p st = .ok a st' ↔ ∃ st₁, p st = .ok a st₁ ∧ st' = { st₁ with cursor := st.cursor } := by
  rw [peek]
  cases h : p st with
  | ok b st₁ =>
    simp only [EStateM.Result.ok.injEq]
    constructor
    · rintro ⟨rfl, rfl⟩
      exact ⟨st₁, ⟨rfl, rfl⟩, rfl⟩
    · rintro ⟨st₂, ⟨rfl, rfl⟩, rfl⟩
      exact ⟨rfl, rfl⟩
  | error d st₁ => simp

theorem failingWith_ok_iff {d : Diagnostic} {p : Parser α} {a : α} :
    failingWith d p st = .ok a st' ↔ p st = .ok a st' := by
  rw [failingWith]
  cases h : p st <;> simp

/-! ## Going deeper

A level is added for the run and taken away behind it, so the run is one from the changed state.
That it was allowed is half of what success says. -/

theorem deeper_ok_iff {p : Parser α} {a : α} :
    deeper p st = .ok a st' ↔ st.nesting < nestingLimit ∧
      ∃ st₁, p { st with nesting := st.nesting + 1 } = .ok a st₁ ∧
        st' = { st₁ with nesting := st₁.nesting - 1 } := by
  rw [deeper]
  split
  next hlimit =>
    constructor
    · intro h
      cases h
    · rintro ⟨hlt, -⟩
      omega
  next hlimit =>
    rw [and_iff_right (by omega)]
    cases h : p { st with nesting := st.nesting + 1 } with
    | ok b st₁ =>
      simp only [EStateM.Result.ok.injEq]
      constructor
      · rintro ⟨rfl, rfl⟩
        exact ⟨st₁, ⟨rfl, rfl⟩, rfl⟩
      · rintro ⟨st₂, ⟨rfl, rfl⟩, rfl⟩
        exact ⟨rfl, rfl⟩
    | error d st₁ => simp

theorem enclosed_ok_iff {p : Parser α} {a : α} :
    enclosed p st = .ok a st' ↔
      ∃ st₁, p { st with openParens := st.openParens + 1 } = .ok a st₁ ∧
        st' = { st₁ with openParens := st₁.openParens - 1 } := by
  rw [enclosed]
  cases h : p { st with openParens := st.openParens + 1 } with
  | ok b st₁ =>
    simp only [EStateM.Result.ok.injEq]
    constructor
    · rintro ⟨rfl, rfl⟩
      exact ⟨st₁, ⟨rfl, rfl⟩, rfl⟩
    · rintro ⟨st₂, ⟨rfl, rfl⟩, rfl⟩
      exact ⟨rfl, rfl⟩
  | error d st₁ => simp

/-! ## Loops

A loop has a number of turns at most, which is that of the tokens left. The lemmas here do away with
the number, under the one condition that turns read. -/

/-- A turn that goes on has read a token, and with none left no turn goes on. Both are needed: the
first so that the tokens run out in time, the second so that the loop has come to its own end when
they have. -/
structure Consuming (turn : σ → Parser (Option σ)) : Prop where
  less : ∀ {a st b st'}, turn a st = .ok (some b) st' → st'.remaining < st.remaining
  idle : ∀ {a st}, st.remaining = 0 → turn a st = .ok none st

/-- The number of turns makes no difference if there are as many as tokens. The induction is on one
of the numbers; a turn that goes on leaves one token less, so that the bound on both stays. -/
theorem growFor_congr {turn : σ → Parser (Option σ)} (hturn : Consuming turn) {m n : Nat} {a : σ}
    {st : ParserState} (hm : st.remaining ≤ m) (hn : st.remaining ≤ n) :
    growFor turn m a st = growFor turn n a st := by
  induction m generalizing n a st with
  | zero =>
    have hidle := hturn.idle (a := a) (Nat.le_zero.mp hm)
    cases n with
    | zero => rfl
    | succ n =>
      rw [growFor, growFor, bind_of_ok hidle]
  | succ m ih =>
    cases n with
    | zero =>
      have hidle := hturn.idle (a := a) (Nat.le_zero.mp hn)
      rw [growFor, growFor, bind_of_ok hidle]
    | succ n =>
      rw [growFor, growFor]
      cases h : turn a st with
      | error d st' => rw [bind_of_error h, bind_of_error h]
      | ok next st' =>
        rw [bind_of_ok h, bind_of_ok h]
        cases next with
        | none => rfl
        | some b =>
          -- one token less is left, and one turn less allowed, on either side
          have hless := hturn.less h
          exact ih (by omega) (by omega)

/-- A loop that reads is a turn and then, if there is more, the loop. With this equation it can be
treated as the recursion it stands for. -/
theorem grow_eq {turn : σ → Parser (Option σ)} (hturn : Consuming turn) (a : σ) :
    grow turn a = do
      match ← turn a with
      | some b => grow turn b
      | none => return a := by
  funext st
  have hone : grow turn a st = growFor turn (st.remaining + 1) a st :=
    growFor_congr hturn (Nat.le_refl _) (Nat.le_succ _)
  rw [hone, growFor]
  cases h : turn a st with
  | error d st' => rw [bind_of_error h, bind_of_error h]
  | ok next st' =>
    rw [bind_of_ok h, bind_of_ok h]
    cases next with
    | none => rfl
    | some b =>
      have hless := hturn.less h
      exact growFor_congr hturn (by omega) (Nat.le_refl _)

theorem grow_of_some {turn : σ → Parser (Option σ)} (hturn : Consuming turn) {a b : σ}
    (h : turn a st = .ok (some b) st') : grow turn a st = grow turn b st' := by
  rw [grow_eq hturn, bind_of_ok h]

theorem grow_of_none {turn : σ → Parser (Option σ)} (hturn : Consuming turn) {a : σ}
    (h : turn a st = .ok none st') : grow turn a st = .ok a st' := by
  rw [grow_eq hturn, bind_of_ok h]
  rfl

/-- A turn that does not go on and leaves all as it is ends the loop at once, and for this the turns
need not read. -/
theorem grow_of_idle {turn : σ → Parser (Option σ)} {a : σ} (h : turn a st = .ok none st) :
    grow turn a st = .ok a st := by
  rw [grow]
  cases st.cursor.after.length with
  | zero => rfl
  | succ turns =>
    rw [growFor, bind_of_ok h]
    rfl

/-- Two loops whose first turns come to the same go on alike. A last turn is excluded, because it
leaves the value that the loop has, and those may differ. -/
theorem grow_of_turn_eq {turn : σ → Parser (Option σ)} (hturn : Consuming turn) {a b : σ}
    (h : turn a st = turn b st') (hmore : ∀ st'', turn b st' ≠ .ok none st'') :
    grow turn a st = grow turn b st' := by
  rw [grow_eq hturn, grow_eq hturn]
  cases hresult : turn b st' with
  | error d st'' => rw [bind_of_error (h.trans hresult), bind_of_error hresult]
  | ok next st'' =>
    rw [bind_of_ok (h.trans hresult), bind_of_ok hresult]
    cases next with
    | none => exact (hmore st'' hresult).elim
    | some c => rfl

/-- What holds of a value that grows, and of the place where it has got to, holds in the end, and
the last turn was one that did not go on. The induction is on the tokens that are left. -/
theorem grow_induct {turn : σ → Parser (Option σ)} (hturn : Consuming turn)
    (Inv : σ → ParserState → Prop)
    (hstep : ∀ {a st b st'}, Inv a st → turn a st = .ok (some b) st' → Inv b st')
    {a b : σ} (h : grow turn a st = .ok b st') (ha : Inv a st) :
    ∃ st₁, Inv b st₁ ∧ turn b st₁ = .ok none st' := by
  induction hn : st.remaining using Nat.strongRecOn generalizing a st with
  | ind n ih =>
    rw [grow_eq hturn, bind_ok_iff] at h
    obtain ⟨next, st₁, hnext, h⟩ := h
    cases next with
    | none =>
      obtain ⟨rfl, rfl⟩ := pure_ok_iff.mp h
      exact ⟨st, ha, hnext⟩
    | some c =>
      have hless := hturn.less hnext
      exact ih st₁.remaining (by omega) h (hstep ha hnext) rfl

/-! ## Forward

One rule for each combinator. A failed parser is not asked where it is, so that `attempt` is no
different here from the parser in it. -/

/-- If the parser succeeds, it has moved forward, and has changed nothing else. -/
def Forward (p : Parser α) : Prop :=
  ∀ {st a st'}, p st = .ok a st' → ∃ raw, Passed raw st st'

theorem Forward.remaining_le {p : Parser α} (h : Forward p) {a : α} (hp : p st = .ok a st') :
    st'.remaining ≤ st.remaining := by
  obtain ⟨raw, hraw⟩ := h hp
  have := hraw.remaining_eq
  omega

theorem forward_pure (a : α) : Forward (pure a : Parser α) := by
  intro st b st' h
  obtain ⟨-, rfl⟩ := pure_ok_iff.mp h
  exact ⟨[], .refl st⟩

theorem forward_throw (d : Diagnostic) : Forward (throw d : Parser α) := by
  intro st a st' h
  exact (throw_ne_ok h).elim

theorem forward_bind {p : Parser α} {f : α → Parser β} (hp : Forward p)
    (hf : ∀ a, Forward (f a)) : Forward (p >>= f) := by
  intro st b st' h
  obtain ⟨a, st₁, ha, hb⟩ := bind_ok_iff.mp h
  obtain ⟨raw, hraw⟩ := hp ha
  obtain ⟨raw', hraw'⟩ := hf a hb
  exact ⟨raw ++ raw', hraw.trans hraw'⟩

theorem forward_ite {c : Prop} [Decidable c] {p q : Parser α} (hp : Forward p) (hq : Forward q) :
    Forward (if c then p else q) := by
  split
  · exact hp
  · exact hq

theorem forward_next : Forward next := by
  intro st token st' h
  obtain ⟨quiet, -, -, hpassed⟩ := passed_of_next h
  exact ⟨_, hpassed⟩

theorem forward_discard {p : Parser α} (hp : Forward p) : Forward (discard p) := by
  intro st a st' h
  obtain ⟨b, hb⟩ := discard_ok_iff.mp h
  exact hp hb

theorem forward_tokenAs (convert : Token → Except SyntaxFault α) : Forward (tokenAs convert) := by
  intro st a st' h
  obtain ⟨token, hnext, -⟩ := tokenAs_ok_iff.mp h
  exact forward_next hnext

theorem forward_attempt {p : Parser α} (hp : Forward p) : Forward (attempt p) := by
  intro st a st' h
  exact hp (attempt_ok_iff.mp h)

theorem forward_upcomingKind : Forward upcomingKind := by
  intro st a st' h
  cases h
  exact ⟨[], .refl st⟩

theorem forward_upcomingAre (kinds : List TokenKind) : Forward (upcomingAre kinds) := by
  intro st a st' h
  cases h
  exact ⟨[], .refl st⟩

theorem forward_possibly_next : Forward (possibly next) := by
  intro st a st' h
  cases hahead : st.ahead with
  | none =>
    obtain ⟨d, st₁, hnext, -, -, hpassed⟩ := next_of_ahead_none hahead
    rw [possibly, hnext] at h
    cases h
    exact ⟨_, hpassed⟩
  | some token =>
    obtain ⟨st₁, quiet, hnext, -, -, hpassed⟩ := next_of_ahead hahead
    rw [possibly, hnext] at h
    cases h
    exact ⟨_, hpassed⟩

/-- The level that was added is taken off again. -/
theorem forward_deeper {p : Parser α} (hp : Forward p) : Forward (deeper p) := by
  intro st a st' h
  obtain ⟨-, st₁, hrun, rfl⟩ := deeper_ok_iff.mp h
  obtain ⟨raw, hraw⟩ := hp hrun
  refine ⟨raw, hraw.after, hraw.before, ?_, hraw.openParens⟩
  show st₁.nesting - 1 = st.nesting
  rw [hraw.nesting, Nat.add_sub_cancel]

theorem forward_enclosed {p : Parser α} (hp : Forward p) : Forward (enclosed p) := by
  intro st a st' h
  obtain ⟨st₁, hrun, rfl⟩ := enclosed_ok_iff.mp h
  obtain ⟨raw, hraw⟩ := hp hrun
  refine ⟨raw, hraw.after, hraw.before, hraw.nesting, ?_⟩
  show st₁.openParens - 1 = st.openParens
  rw [hraw.openParens, Nat.add_sub_cancel]

/-- The loop goes forward because each of its turns does, whether or not they read anything. -/
theorem forward_grow {turn : σ → Parser (Option σ)} (hturn : ∀ a, Forward (turn a)) (a : σ) :
    Forward (grow turn a) := by
  intro st b st' h
  rw [grow] at h
  generalize st.cursor.after.length = turns at h
  induction turns generalizing a st with
  | zero => exact forward_pure a h
  | succ turns ih =>
    rw [growFor] at h
    obtain ⟨next, st₁, hnext, h⟩ := bind_ok_iff.mp h
    obtain ⟨raw, hraw⟩ := hturn a hnext
    cases next with
    | none =>
      obtain ⟨-, rfl⟩ := pure_ok_iff.mp h
      exact ⟨raw, hraw⟩
    | some c =>
      obtain ⟨raw', hraw'⟩ := ih c h
      exact ⟨raw ++ raw', hraw.trans hraw'⟩

/-! ## Advances

In a sequence it is enough that one part passes a token, if the other goes forward; hence the two
rules. -/

/-- If the parser succeeds, it has passed a token. Like `Forward`, this is about success only, and a
parser that always fails has it. -/
def Advances (p : Parser α) : Prop :=
  ∀ {st a st'}, p st = .ok a st' → st'.remaining < st.remaining

theorem advances_next : Advances next := by
  intro st token st' h
  obtain ⟨quiet, -, -, hpassed⟩ := passed_of_next h
  have hremaining := hpassed.remaining_eq
  rw [List.length_append, List.length_singleton] at hremaining
  omega

theorem advances_tokenAs (convert : Token → Except SyntaxFault α) : Advances (tokenAs convert) := by
  intro st a st' h
  obtain ⟨token, hnext, -⟩ := tokenAs_ok_iff.mp h
  exact advances_next hnext

theorem advances_attempt {p : Parser α} (hp : Advances p) : Advances (attempt p) := by
  intro st a st' h
  exact hp (attempt_ok_iff.mp h)

theorem advances_bind_left {p : Parser α} {f : α → Parser β} (hp : Advances p)
    (hf : ∀ a, Forward (f a)) : Advances (p >>= f) := by
  intro st b st' h
  obtain ⟨a, st₁, ha, hb⟩ := bind_ok_iff.mp h
  exact Nat.lt_of_le_of_lt (Forward.remaining_le (hf a) hb) (hp ha)

theorem advances_bind_right {p : Parser α} {f : α → Parser β} (hp : Forward p)
    (hf : ∀ a, Advances (f a)) : Advances (p >>= f) := by
  intro st b st' h
  obtain ⟨a, st₁, ha, hb⟩ := bind_ok_iff.mp h
  exact Nat.lt_of_lt_of_le (hf a hb) (hp.remaining_le ha)

theorem advances_ite {c : Prop} [Decidable c] {p q : Parser α} (hp : Advances p)
    (hq : Advances q) : Advances (if c then p else q) := by
  split
  · exact hp
  · exact hq

end Parser

end ThreeAddress
