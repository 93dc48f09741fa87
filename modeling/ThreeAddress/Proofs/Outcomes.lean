import ThreeAddress.Proofs.Steps

/-!
# What a parser comes to

A parser gives a value or fails, and something can be said of both (`Ends`): of the value and of the
place where the parser then is, and of the diagnostic. There is a rule for each way in which parsers
are put together, so that what holds of single tokens goes up to a whole grammar.

A diagnostic goes up as it is, but for `failingWith`, which puts another in its place. So a property
of diagnostics that holds of those given by single tokens, of the few that the grammar throws, and
of the one that replaces others, holds of all.

The rules read like those of a program logic, with a postcondition for either exit; the precondition
is a hypothesis about the state. Who uses them fixes `E` once and lets `Q` say what is known of the
state in between: `Pointing` does so for the places of errors, `Parentheses` for the complaints
about parentheses.
-/

set_option autoImplicit false

namespace ThreeAddress

namespace Parser

open ParserState

/-- The outcome is a value with `Q`, or a diagnostic with `E`. Of the state in which a parser fails
nothing is said: no parser looks at it again, except to put the cursor back. -/
def Ends {α : Type} (E : Diagnostic → Prop) (Q : α → ParserState → Prop) :
    EStateM.Result Diagnostic ParserState α → Prop
  | .ok a st' => Q a st'
  | .error d _ => E d

section

variable {α β σ : Type} {E : Diagnostic → Prop} {p : Parser α} {Q R : α → ParserState → Prop}
  {st st' : ParserState} {d : Diagnostic}

theorem Ends.of_ok {a : α} (h : Ends E Q (p st)) (hp : p st = .ok a st') : Q a st' := by
  rw [hp] at h
  exact h

theorem Ends.of_error (h : Ends E Q (p st)) (hp : p st = .error d st') : E d := by
  rw [hp] at h
  exact h

/-- What is said of the value can be weakened, with regard to its being that value. The equation `p
st = .ok a st'` is handed on so that facts about successful runs, which are proved elsewhere, can be
used in the weakening. -/
theorem Ends.mono (h : Ends E Q (p st)) (hmono : ∀ a st', p st = .ok a st' → Q a st' → R a st') :
    Ends E R (p st) := by
  cases hp : p st with
  | ok a st' => exact hmono a st' hp (h.of_ok hp)
  | error d st' => exact h.of_error hp

/-- What is said of the diagnostic can be weakened. -/
theorem Ends.imp {E' : Diagnostic → Prop} (h : Ends E Q (p st)) (himp : ∀ d, E d → E' d) :
    Ends E' Q (p st) := by
  cases hp : p st with
  | ok a st' => exact h.of_ok hp
  | error d st' => exact himp d (h.of_error hp)

/-! To throw ends a parser whatever comes after it, so that `ends_throw_bind` asks nothing of `f`:
the two branches of a check in the grammar are both followed by the rest of the code, and only in
one of them does it run. -/

theorem ends_throw (h : E d) : Ends E Q ((throw d : Parser α) st) := h

theorem ends_throw_bind {f : β → Parser α} (h : E d) :
    Ends E Q (((throw d : Parser β) >>= f) st) := h

/-- The rule of sequence. The postcondition of the first parser is the precondition of the second,
and a diagnostic of the first is one of both. -/
theorem ends_bind {f : α → Parser β} {R : β → ParserState → Prop} (h : Ends E Q (p st))
    (hf : ∀ a st', Q a st' → Ends E R (f a st')) : Ends E R ((p >>= f) st) := by
  cases hp : p st with
  | ok a st' =>
    rw [bind_of_ok hp]
    exact hf a st' (h.of_ok hp)
  | error d st' =>
    rw [bind_of_error hp]
    exact h.of_error hp

theorem ends_discard {R : Unit → ParserState → Prop} (h : Ends E Q (p st))
    (hR : ∀ a st', Q a st' → R () st') : Ends E R (discard p st) :=
  ends_bind h hR

/-- An attempt changes the state only where it fails, and of that nothing is said; so it ends as the
parser does. -/
theorem ends_attempt (h : Ends E Q (p st)) : Ends E Q (attempt p st) := by
  rw [attempt]
  cases hp : p st with
  | ok a st' => exact h.of_ok hp
  | error d st' => exact h.of_error hp

/-- Of the diagnostic that is given up nothing is asked but that it says enough for the other. As `E
d` does not depend on it, `h` is about the diagnostic put in its place, under the condition that
there is one to replace. -/
theorem ends_failingWith (h : Ends (fun _ => E d) Q (p st)) : Ends E Q (failingWith d p st) := by
  rw [failingWith]
  cases hp : p st with
  | ok a st' => exact h.of_ok hp
  | error d' st' => exact h.of_error hp

/-- The one combinator with a diagnostic of its own, given where the parser stands. Otherwise the
parser runs with the nesting raised, and `Q` is asked of the state in which it is lowered again. -/
theorem ends_deeper (hlimit : E (.form st.cursor.span (.tooDeeplyNested nestingLimit)))
    (h : Ends E (fun a st' => Q a st'.raised) (p st.deepened)) : Ends E Q (deeper p st) := by
  rw [deeper]
  split
  · exact hlimit
  show Ends E Q (match p st.deepened with
    | .ok value after => .ok value after.raised
    | .error fault after => .error fault after.raised)
  cases hp : p st.deepened with
  | ok a st' => exact h.of_ok hp
  | error d st' => exact h.of_error hp

/-- Like `ends_deeper`, for the parentheses that are open, of which there may be any number. -/
theorem ends_enclosed
    (h : Ends E (fun a st' => Q a { st' with openParens := st'.openParens - 1 })
      (p { st with openParens := st.openParens + 1 })) :
    Ends E Q (enclosed p st) := by
  rw [enclosed]
  cases hp : p { st with openParens := st.openParens + 1 } with
  | ok a st' => exact h.of_ok hp
  | error d st' => exact h.of_error hp

/-- What every turn keeps holds in the end. `Inv` is the invariant of the loop; `getD` covers the
last turn, which gives nothing and leaves the value as it is. The induction is on the turns that are
left. -/
theorem ends_grow {turn : σ → Parser (Option σ)} {Inv : σ → ParserState → Prop}
    (hturn : ∀ a st, Inv a st → Ends E (fun next st' => Inv (next.getD a) st') (turn a st))
    {a : σ} (ha : Inv a st) : Ends E Inv (grow turn a st) := by
  rw [grow]
  generalize st.cursor.after.length = turns
  induction turns generalizing a st with
  | zero => exact ha
  | succ turns ih =>
    rw [growFor]
    apply ends_bind (hturn a st ha)
    intro next st' hnext
    cases next with
    | none => exact hnext
    | some b => exact ih hnext

/-- A token is read, or there is none, and then the text is said to end there. All diagnostics of a
grammar begin here, with a `throw`, or at the limit of nesting. -/
theorem ends_next {Q : Token → ParserState → Prop}
    (hend : ∀ st', next st = .error (.form st'.cursor.span .unexpectedEnd) st' →
      E (.form st'.cursor.span .unexpectedEnd))
    (hok : ∀ token st', next st = .ok token st' → Q token st') : Ends E Q (next st) := by
  cases hnext : next st with
  | ok token st' => exact hok token st' hnext
  | error d st' =>
    obtain rfl := fault_of_next hnext
    exact hend st' hnext

end

end Parser

end ThreeAddress
