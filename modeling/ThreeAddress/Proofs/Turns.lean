import Mathlib.Logic.Relation
import ThreeAddress.Proofs.Steps

/-!
# The turns of a loop

A loop takes turns for as long as they give something. How it gets on is told by the turns alone
(`Turns`), however many there are: it ends with a turn that gives nothing, and fails with a turn
that fails, and in no other way (`LoopsTo`). The bound that `grow` is given on its turns is nowhere
in this, so it is not felt (`loopsTo_iff`).
-/

set_option autoImplicit false

namespace ThreeAddress

namespace Parser

open ParserState

variable {σ : Type} {turn turn' : σ → Parser (Option σ)} {x y : σ × ParserState} {a b : σ}
  {st st' : ParserState} {d : Diagnostic}

/-- The loop gets from one value and place to another by turns that go on. It may be none, and it is
not said that the loop ends there. -/
def Turns (turn : σ → Parser (Option σ)) : σ × ParserState → σ × ParserState → Prop :=
  Relation.ReflTransGen fun x y => turn x.1 x.2 = .ok (some y.1) y.2

/-- By turns that go forward the parser gets forward. -/
theorem Turns.passed (hturn : ∀ a, Forward (turn a)) (h : Turns turn x y) :
    ∃ raw, Passed raw x.2 y.2 := by
  induction h with
  | refl => exact ⟨[], .refl x.2⟩
  | tail _ hstep ih =>
    obtain ⟨raw, hraw⟩ := ih
    obtain ⟨raw', hraw'⟩ := hturn _ hstep
    exact ⟨raw ++ raw', hraw.trans hraw'⟩

/-- What a loop comes to is the same from every place that it gets to. -/
theorem Turns.grow_eq (hturn : Consuming turn) (h : Turns turn x y) :
    grow turn x.1 x.2 = grow turn y.1 y.2 := by
  induction h with
  | refl => rfl
  | tail _ hstep ih => exact ih.trans (grow_of_some hturn hstep)

/-- A turn that goes on has passed a token at least. Progress is measured by the tokens that are
left, and tokens are the only way to make it. -/
theorem Consuming.passed (hturn : Consuming turn) (hforward : ∀ a, Forward (turn a))
    (h : turn a st = .ok (some b) st') : ∃ token raw, Passed (token :: raw) st st' := by
  obtain ⟨raw, hraw⟩ := hforward a h
  cases raw with
  | nil =>
    have hless := hturn.less h
    rw [hraw.remaining_eq, List.length_nil, Nat.zero_add] at hless
    exact (Nat.lt_irrefl _ hless).elim
  | cons token raw => exact ⟨token, raw, hraw⟩

/-- A loop fails in one of its turns. -/
theorem exists_turns_of_error (hturn : Consuming turn) (h : grow turn a st = .error d st') :
    ∃ b st₁, Turns turn (a, st) (b, st₁) ∧ turn b st₁ = .error d st' := by
  -- by the tokens that are left, as each turn that goes on reads one
  induction hn : st.remaining using Nat.strongRecOn generalizing a st with
  | ind n ih =>
    rw [Parser.grow_eq hturn] at h
    cases hnext : turn a st with
    | error d₁ st₁ =>
      rw [bind_of_error hnext] at h
      cases h
      exact ⟨a, st, .refl, hnext⟩
    | ok next st₁ =>
      rw [bind_of_ok hnext] at h
      cases next with
      | none => cases h
      | some c =>
        have hless := hturn.less hnext
        obtain ⟨b, st₂, hturns, herror⟩ := ih st₁.remaining (by omega) h rfl
        exact ⟨b, st₂, .head hnext hturns, herror⟩

theorem grow_error_iff (hturn : Consuming turn) :
    grow turn a st = .error d st' ↔
      ∃ b st₁, Turns turn (a, st) (b, st₁) ∧ turn b st₁ = .error d st' := by
  constructor
  · exact exists_turns_of_error hturn
  · rintro ⟨b, st₁, hturns, herror⟩
    rw [hturns.grow_eq hturn, Parser.grow_eq hturn, bind_of_error herror]

/-- A loop ends with the first turn that gives nothing, and with the value from before that turn. -/
theorem grow_ok_iff (hturn : Consuming turn) :
    grow turn a st = .ok b st' ↔
      ∃ st₁, Turns turn (a, st) (b, st₁) ∧ turn b st₁ = .ok none st' := by
  constructor
  · intro h
    exact grow_induct hturn (fun b st₁ => Turns turn (a, st) (b, st₁))
      (fun hturns hstep => hturns.tail hstep) h .refl
  · rintro ⟨st₁, hturns, hlast⟩
    exact (hturns.grow_eq hturn).trans (grow_of_none hturn hlast)

/-- What a loop comes to that takes turns for as long as they give something, be they ever so many.
If the turns have no end, it comes to nothing. It is a relation between a place and an outcome, and
there is no number of turns in it. -/
def LoopsTo (turn : σ → Parser (Option σ)) (a : σ) (st : ParserState) :
    EStateM.Result Diagnostic ParserState σ → Prop
  | .ok b st' => ∃ st₁, Turns turn (a, st) (b, st₁) ∧ turn b st₁ = .ok none st'
  | .error d st' => ∃ b st₁, Turns turn (a, st) (b, st₁) ∧ turn b st₁ = .error d st'

/-- A loop whose turns read comes to what `grow` says, and to nothing else. -/
theorem loopsTo_iff (hturn : Consuming turn) {r : EStateM.Result Diagnostic ParserState σ} :
    LoopsTo turn a st r ↔ grow turn a st = r := by
  cases r with
  | ok b st' => exact (grow_ok_iff hturn).symm
  | error d st' => exact (grow_error_iff hturn).symm

/-! ## Loops with like turns

Two loops are compared whose turns agree where they are taken. It is enough that they agree on
states with some property that the turns keep, as they are taken on no others. -/

section

variable (Inv : ParserState → Prop)

/-- Two loops come to the same if their turns do at all places that they get to. By induction on the
bound of the one, which is the bound of the other. -/
theorem grow_congr (hturn : ∀ a st, Inv st → turn a st = turn' a st)
    (hkeep : ∀ {a st b st'}, Inv st → turn' a st = .ok (some b) st' → Inv st') (h : Inv st) :
    grow turn a st = grow turn' a st := by
  rw [grow, grow]
  generalize st.cursor.after.length = turns
  induction turns generalizing a st with
  | zero => rfl
  | succ turns ih =>
    rw [growFor, growFor]
    cases hnext : turn' a st with
    | error d st' => rw [bind_of_error hnext, bind_of_error ((hturn a st h).trans hnext)]
    | ok next st' =>
      rw [bind_of_ok hnext, bind_of_ok ((hturn a st h).trans hnext)]
      cases next with
      | none => rfl
      | some b => exact ih (hkeep h hnext)

theorem Turns.congr (hturn : ∀ a st, Inv st → turn a st = turn' a st)
    (hkeep : ∀ {a st b st'}, Inv st → turn' a st = .ok (some b) st' → Inv st') (hx : Inv x.2)
    (h : Turns turn x y) : Turns turn' x y ∧ Inv y.2 := by
  induction h with
  | refl => exact ⟨.refl, hx⟩
  | @tail y z _ hstep ih =>
    obtain ⟨hturns, hy⟩ := ih
    rw [hturn y.1 y.2 hy] at hstep
    exact ⟨hturns.tail hstep, hkeep hy hstep⟩

theorem LoopsTo.congr (hturn : ∀ a st, Inv st → turn a st = turn' a st)
    (hkeep : ∀ {a st b st'}, Inv st → turn' a st = .ok (some b) st' → Inv st') (hst : Inv st)
    {r : EStateM.Result Diagnostic ParserState σ} (h : LoopsTo turn a st r) :
    LoopsTo turn' a st r := by
  cases r with
  | ok b st' =>
    obtain ⟨st₁, hturns, hlast⟩ := h
    obtain ⟨hturns, hst₁⟩ := hturns.congr Inv hturn hkeep hst
    exact ⟨st₁, hturns, (hturn b st₁ hst₁).symm.trans hlast⟩
  | error d st' =>
    obtain ⟨b, st₁, hturns, hlast⟩ := h
    obtain ⟨hturns, hst₁⟩ := hturns.congr Inv hturn hkeep hst
    exact ⟨b, st₁, hturns, (hturn b st₁ hst₁).symm.trans hlast⟩

end

end Parser

end ThreeAddress
