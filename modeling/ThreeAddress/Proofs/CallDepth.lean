import Mathlib.Data.List.Dedup
import ThreeAddress.Proofs.Limits
import ThreeAddress.Proofs.Turns

/-!
# How deep the calls of the grammar go

The phrases call on each other, and there are several ways around in a circle. None of them goes on
without end. Every way around goes through a chain of operators and the right side of one, and on
from there to a chain with operators that bind tighter (`levelsFrom_lt`), or else a level of nesting
deeper, and both are bounded. So each call has a `rank` that is greater than the ranks of all calls
made in the course of it, and that does not depend on how long the text is.

`Phrase.parse` is made of `callDepth` layers and fails below the lowest. That the lowest is not
reached means that what is put there makes no difference (`readFrom_eq_parse`), and that nothing
else than `Phrase.parse` follows the grammar without such bounds (`Unbounded.eq_parse`).
-/

set_option autoImplicit false

namespace ThreeAddress

/-! ## Levels of operators

The right side of an operator goes on with operators that bind tighter, or with the same level one
nesting deeper. Counting the levels that are left above is enough for the first, as it goes down
strictly there. -/

namespace Precedence

/-- The levels of the binary operators. -/
def binary : List Precedence := (BinOp.all.map BinOp.precedence).dedup

/-- How many levels of binary operators bind at least as tight. -/
def levelsFrom (floor : Precedence) : Nat := binary.countP (floor ≤ ·)

theorem levelsFrom_le (floor : Precedence) : floor.levelsFrom ≤ binary.length :=
  List.countP_le_length

theorem levelsFrom_mono {floor level : Precedence} (h : ¬level < floor) :
    level.levelsFrom ≤ floor.levelsFrom := by
  refine List.countP_mono_left fun other _ hother => ?_
  have hle : floor.rank ≤ level.rank := Nat.le_of_not_lt h
  exact decide_eq_true (Nat.le_trans hle (of_decide_eq_true hother : level.rank ≤ other.rank))

/-- Above an operator there are fewer levels than from it on. -/
theorem levelsFrom_lt {op : BinOp} {level : Precedence} (h : op.precedence < level) :
    level.levelsFrom < op.precedence.levelsFrom := by
  revert h
  -- one table of operators and one of levels, both small enough to be gone through
  cases op <;> cases level <;> decide

theorem levelsFrom_pos (op : BinOp) : 0 < op.precedence.levelsFrom := by
  cases op <;> decide

end Precedence

/-! ## Parsers that come to the same

The combinators are followed by how they treat two parsers that agree where they are run, and only
there. A rank is known for the states that are really reached, so agreement in all states would be
too much to ask. -/

namespace Parser

open ParserState

variable {α β : Type} {st : ParserState}

/-- Parsers in a row agree if the first do and, wherever the first comes out, the second do from
there. -/
theorem bind_congr_ok {p q : Parser α} {f g : α → Parser β} (h : p st = q st)
    (hfg : ∀ a st', q st = .ok a st' → f a st' = g a st') : (p >>= f) st = (q >>= g) st := by
  cases hq : q st with
  | ok a st' =>
    rw [bind_of_ok (h.trans hq), bind_of_ok hq]
    exact hfg a st' hq
  | error d st' => rw [bind_of_error (h.trans hq), bind_of_error hq]

theorem attempt_congr {p q : Parser α} (h : p st = q st) : attempt p st = attempt q st := by
  rw [attempt, attempt, h]

theorem enclosed_congr {p q : Parser α}
    (h : p { st with openParens := st.openParens + 1 } =
      q { st with openParens := st.openParens + 1 }) :
    enclosed p st = enclosed q st := by
  rw [enclosed, enclosed, h]

/-- Too deep, neither of the parsers is run. So the two need to agree one level deeper only, and
only if that is allowed. -/
theorem deeper_congr {p q : Parser α}
    (h : st.nesting < nestingLimit → p st.deepened = q st.deepened) :
    deeper p st = deeper q st := by
  rw [deeper, deeper]
  split
  · rfl
  next hlimit =>
    have hsame : p { st with nesting := st.nesting + 1 } =
        q { st with nesting := st.nesting + 1 } := h (Nat.lt_of_not_le hlimit)
    rw [hsame]

end Parser

/-! ## The rank of a call

One number for a phrase and the room that is left for nesting. A level of nesting counts for more
than all the calls that can be made within one, so going deeper lowers the rank whatever phrase
comes next. -/

namespace Phrase

open ThreeAddress.Parser ThreeAddress.ParserState

/-- How many calls a level of nesting takes at most: two for each level of operators, one for the
expression, and one for the operand. A chain and a right side can each be open once for every level
of operators, one inside the other. -/
def callsPerLevel : Nat := 2 * Precedence.binary.length + 2

/-- The rank of a call that has so much room for nesting. `signed` and `paren` come below `operand`,
which calls for them, and take a level before they call for anything else. -/
def rank (room : Nat) : Phrase → Nat
  | expr => callsPerLevel * room + callsPerLevel
  | operand => callsPerLevel * room + 2
  | signed | paren => callsPerLevel * room + 1
  | chain _ floor => callsPerLevel * room + 2 * floor.levelsFrom + 1
  | rightSide op _ => callsPerLevel * room + 2 * op.precedence.levelsFrom

/-- No call has the rank zero, so a call that is made is never below the lowest layer. -/
theorem rank_pos (phrase : Phrase) (room : Nat) : 0 < phrase.rank room := by
  cases phrase with
  | rightSide op rhs =>
    have hpos := Precedence.levelsFrom_pos op
    simp only [rank]
    omega
  | expr | operand | signed | paren | chain => simp only [rank, callsPerLevel]; omega

theorem callDepth_eq : callDepth = callsPerLevel * (nestingLimit + 1) := by decide

/-- No call goes deeper than `callDepth`. -/
theorem rank_le_callDepth (phrase : Phrase) (st : ParserState) :
    phrase.rank st.room ≤ callDepth := by
  have hroom := Nat.mul_le_mul_left callsPerLevel st.room_le
  rw [callDepth_eq, Nat.mul_succ]
  cases phrase with
  | expr => simp only [rank]; omega
  | operand | signed | paren => simp only [rank, callsPerLevel] at hroom ⊢; omega
  | chain lhs floor =>
    have hlevels := floor.levelsFrom_le
    simp only [rank, callsPerLevel] at hroom ⊢
    omega
  | rightSide op rhs =>
    have hlevels := op.precedence.levelsFrom_le
    simp only [rank, callsPerLevel] at hroom ⊢
    omega

/-! ## Only lower calls matter

What reading a phrase comes to is settled by the calls of lower rank. So here are, phrase by phrase,
the calls that are made, with the ranks that they have. -/

/-- Both readers come to the same for all calls of lower rank. This is the hypothesis of each of the
lemmas below. They differ only in which calls are made. -/
def AgreeBelow (rank : Nat) (p q : Phrase → Parser Expr) : Prop :=
  ∀ phrase st, phrase.rank st.room < rank → p phrase st = q phrase st

variable {p q : Phrase → Parser Expr} {st : ParserState} {lhs rhs : Expr} {floor : Precedence}
  {op : BinOp}

theorem AgreeBelow.mono {m n : Nat} (h : AgreeBelow n p q) (hle : m ≤ n) : AgreeBelow m p q := by
  intro phrase st hlt
  exact h phrase st (Nat.lt_of_lt_of_le hlt hle)

theorem room_deepened (h : st.nesting < nestingLimit) : st.room = st.deepened.room + 1 := by
  simp only [room, deepened]
  omega

/-- The operand has a lower rank than the chain as it belongs to no level, and the right side
because the operator is one of those that the chain takes. -/
theorem extend_congr (hforward : ∀ phrase, Forward (q phrase)) {height : Nat} {opSpan : Span}
    (hfloor : ¬op.precedence < floor) (h : AgreeBelow ((chain lhs floor).rank st.room) p q) :
    extend p lhs height op opSpan st = extend q lhs height op opSpan st := by
  have hpos := Precedence.levelsFrom_pos op
  have hmono := Precedence.levelsFrom_mono hfloor
  simp only [rank] at h
  refine bind_congr_ok rfl fun _ st₁ hnext => ?_
  have hroom₁ := room_eq_of_forward (forward_discard forward_next) hnext
  refine bind_congr_ok (h .operand st₁ ?_) fun first st₂ hfirst => ?_
  · simp only [rank, hroom₁]
    omega
  have hroom₂ := room_eq_of_forward (hforward .operand) hfirst
  refine bind_congr_ok (h (.rightSide op first) st₂ ?_) fun rhs st₃ _ => rfl
  simp only [rank, hroom₂, hroom₁]
  omega

theorem chainTurn_congr (hforward : ∀ phrase, Forward (q phrase)) {height : Nat}
    (h : AgreeBelow ((chain lhs floor).rank st.room) p q) :
    chainTurn p floor (lhs, height) st = chainTurn q floor (lhs, height) st := by
  rw [chainTurn_eq, chainTurn_eq]
  split
  · rfl
  · split
    · rfl
    next hfloor => exact extend_congr hforward hfloor h

/-- There are two ways on: with the tighter operators at the same depth, and with the same operator
a level deeper. -/
theorem rightSideTurn_congr (h : AgreeBelow ((rightSide op rhs).rank st.room) p q) :
    rightSideTurn p op rhs st = rightSideTurn q op rhs st := by
  have hpos := Precedence.levelsFrom_pos op
  simp only [rank] at h
  refine bind_congr_ok rfl fun following? st₁ hlook => ?_
  rw [lookahead_tokenAs] at hlook
  cases hlook
  cases st.ahead.bind fun token => token.binaryOp.toOption with
  | none => rfl
  | some following =>
    dsimp only
    split
    next hlt =>
      -- what follows binds tighter, and has fewer levels above it
      have hlevels := Precedence.levelsFrom_lt hlt
      refine bind_congr_ok (h _ st ?_) fun _ _ _ => rfl
      simp only [rank]
      omega
    next =>
      split
      next =>
        -- the same levels once more, but with less room
        refine bind_congr_ok (deeper_congr fun hlimit => h _ st.deepened ?_) fun _ _ _ => rfl
        have hlevels := op.precedence.levelsFrom_le
        rw [room_deepened hlimit, Nat.mul_succ]
        simp only [rank, callsPerLevel]
        omega
      next => rfl

/-- A sign takes a level of nesting, so that everything behind it has less room and any phrase will
do. -/
theorem withSign_congr (hforward : ∀ phrase, Forward (q phrase))
    (h : AgreeBelow (signed.rank st.room) p q) : withSign p st = withSign q st := by
  simp only [rank] at h
  refine bind_congr_ok rfl fun sign st₁ hsign => ?_
  have hroom₁ := room_eq_of_forward (forward_attempt (forward_tokenAs Token.unaryOp)) hsign
  refine deeper_congr fun hlimit => ?_
  have hroom := room_deepened hlimit
  rw [hroom₁] at hroom
  rw [hroom, Nat.mul_succ] at h
  refine bind_congr_ok (h .operand st₁.deepened ?_) fun first st₂ hfirst => ?_
  · simp only [rank, callsPerLevel]
    omega
  have hroom₂ := room_eq_of_forward (hforward .operand) hfirst
  have hlevels := sign.1.precedence.levelsFrom_le
  refine bind_congr_ok (h _ st₂ ?_) fun _ _ _ => rfl
  simp only [rank, callsPerLevel, hroom₂]
  omega

theorem interior_congr {opening : Token} {kind? : Option TokenKind} (h : p .expr st = q .expr st) :
    interior p opening kind? st = interior q opening kind? st := by
  unfold interior
  split
  · rfl
  · rfl
  · exact bind_congr_ok (attempt_congr h) fun _ _ _ => rfl

/-- Inside parentheses an expression is read from the beginning, but with less room. -/
theorem parenthesized_congr (h : AgreeBelow (paren.rank st.room) p q) :
    parenthesized p st = parenthesized q st := by
  simp only [rank] at h
  rw [parenthesized_eq, parenthesized_eq]
  refine bind_congr_ok rfl fun opening st₁ hopening => ?_
  have hroom₁ := room_eq_of_forward (forward_attempt (forward_tokenAs _)) hopening
  refine deeper_congr fun hlimit => enclosed_congr ?_
  have hroom := room_deepened hlimit
  rw [hroom₁] at hroom
  rw [hroom, Nat.mul_succ] at h
  refine bind_congr_ok rfl fun kind? st₂ hkind => interior_congr (h .expr st₂ ?_)
  rw [upcomingKind_eq] at hkind
  cases hkind
  exact Nat.lt_succ_self (callsPerLevel * st₁.deepened.room + callsPerLevel)

/-- An operand begins with a sign or a parenthesis, which cost a level, or is a literal and calls
for nothing. -/
theorem operand_congr (h : AgreeBelow (operand.rank st.room) p q) :
    read p .operand st = read q .operand st := by
  simp only [rank] at h
  refine bind_congr_ok rfl fun sign? st₁ hlook => ?_
  rw [lookahead_tokenAs] at hlook
  cases hlook
  split
  · refine h .signed st ?_
    simp only [rank]
    omega
  · refine attempt_congr (bind_congr_ok rfl fun kind? st₁ hkind => ?_)
    have hroom₁ := room_eq_of_forward forward_upcomingKind hkind
    split
    · refine attempt_congr (h .paren st₁ ?_)
      simp only [rank, hroom₁]
      omega
    · rfl

/-- The operand and the chain of all levels have ranks that are lower than that of the expression.
-/
theorem expr_congr (hforward : ∀ phrase, Forward (q phrase))
    (h : AgreeBelow (expr.rank st.room) p q) : read p .expr st = read q .expr st := by
  simp only [rank] at h
  have hsome : 0 < Precedence.binary.length := by decide
  have hlevels := Precedence.any.levelsFrom_le
  have hread : ∀ st₁, st₁.room = st.room →
      (do p (.chain (← p .operand) .any)) st₁ = (do q (.chain (← q .operand) .any)) st₁ := by
    intro st₁ hroom₁
    refine bind_congr_ok (h .operand st₁ ?_) fun lhs st₂ hlhs => h _ st₂ ?_
    · simp only [rank, callsPerLevel, hroom₁]
      omega
    · have hroom₂ := room_eq_of_forward (hforward .operand) hlhs
      simp only [rank, callsPerLevel, hroom₂, hroom₁]
      omega
  refine bind_congr_ok rfl fun kind? st₁ hkind => ?_
  have hroom₁ := room_eq_of_forward forward_upcomingKind hkind
  split
  · refine bind_congr_ok rfl fun closing st₂ hclosing => ?_
    exact bind_congr_ok rfl fun _ _ hthrow => (throw_ne_ok hthrow).elim
  · exact hread st₁ hroom₁

/-- A turn of a chain leaves as much room as there was. -/
theorem room_of_chainTurn (h : Moving q) {grown more : Expr × Nat} {st' : ParserState}
    (hturn : chainTurn q floor grown st = .ok (some more) st') : st'.room = st.room :=
  room_eq_of_forward (forward_chainTurn h grown) hturn

theorem room_of_rightSideTurn (h : Moving q) {more : Expr} {st' : ParserState}
    (hturn : rightSideTurn q op rhs st = .ok (some more) st') : st'.room = st.room :=
  room_eq_of_forward (forward_rightSideTurn h rhs) hturn

/-- Reading a phrase is settled by the calls of lower rank. -/
theorem read_congr (hmoving : Moving q) {phrase : Phrase}
    (h : AgreeBelow (phrase.rank st.room) p q) : read p phrase st = read q phrase st := by
  cases phrase with
  | expr => exact expr_congr hmoving.forward h
  | operand => exact operand_congr h
  | signed => exact withSign_congr hmoving.forward h
  | paren => exact parenthesized_congr h
  -- the loops keep the room as it is, which is the invariant that both of them are followed by
  | chain lhs floor =>
    refine bind_congr_ok (grow_congr (fun st₁ => st₁.room = st.room) ?_ ?_ rfl)
      fun _ _ _ => rfl
    · rintro ⟨lhs', height⟩ st₁ hroom
      refine chainTurn_congr hmoving.forward ?_
      rw [hroom]
      exact h
    · intro grown st₁ more st' hroom hturn
      exact (room_of_chainTurn hmoving hturn).trans hroom
  | rightSide op rhs =>
    refine grow_congr (fun st₁ => st₁.room = st.room) ?_ ?_ rfl
    · intro rhs' st₁ hroom
      refine rightSideTurn_congr ?_
      rw [hroom]
      exact h
    · intro rhs' st₁ more st' hroom hturn
      exact (room_of_rightSideTurn hmoving hturn).trans hroom

/-! ## Enough layers

By induction on the number of layers, with the rank of the call as what is left to be paid for: a
call on a lower layer has a lower rank, so both go down together. -/

/-- With as many layers as the rank of a call, it makes no difference what is below them, nor how
many more there are. The layer at the bottom is never called. If it were, there would be a call of
rank zero. -/
theorem readFrom_eq_layers (bottom : Phrase → Parser Expr) {depth depth' : Nat} {phrase : Phrase}
    (h : phrase.rank st.room ≤ depth) (h' : phrase.rank st.room ≤ depth') :
    readFrom bottom depth phrase st = layers depth' phrase st := by
  induction depth generalizing depth' phrase st with
  | zero => exact absurd h (Nat.not_le_of_lt (phrase.rank_pos st.room))
  | succ depth ih =>
    cases depth' with
    | zero => exact absurd h' (Nat.not_le_of_lt (phrase.rank_pos st.room))
    | succ depth' =>
      refine read_congr (moving_layers depth') fun inner st₁ hlt => ?_
      exact ih (by omega) (by omega)

/-- From `callDepth` layers on, what is read depends neither on their number nor on what is put
below. -/
theorem readFrom_eq_parse (bottom : Phrase → Parser Expr) {depth : Nat} (h : callDepth ≤ depth) :
    readFrom bottom depth = parse := by
  funext phrase st
  have hrank := phrase.rank_le_callDepth st
  exact readFrom_eq_layers bottom (Nat.le_trans hrank h) hrank

/-- One layer more makes no difference. -/
theorem read_parse : read parse = parse := readFrom_eq_parse _ (Nat.le_succ callDepth)

theorem moving_parse : Moving parse := moving_layers callDepth

/-! ## Chains of calls

Whether a call is made cannot be seen in a value, so it is defined by its effect: reading the phrase
would come to something else if the call did. A call that a phrase only might make, and does not at
this place, is no call of it. -/

/-- In reading a phrase at a place another call is made: what is read hangs on what that call comes
to. -/
def Calls (inner : Phrase → Parser Expr) (call call' : Phrase × ParserState) : Prop :=
  ∃ other : Phrase → Parser Expr,
    (∀ phrase st, (phrase, st) ≠ call' → other phrase st = inner phrase st) ∧
      read other call.1 call.2 ≠ read inner call.1 call.2

/-- If a failing call makes reading the phrase fail, the call is made. Two diagnostics are tried, as
one of them may be what is given anyway. -/
theorem calls_of_error {inner : Phrase → Parser Expr} {phrase phrase' : Phrase} {st' : ParserState}
    (h : ∀ other d s, other phrase' st' = .error d s → ∃ s', read other phrase st = .error d s') :
    Calls inner (phrase, st) (phrase', st') := by
  classical
  let failing (d : Diagnostic) : Phrase → Parser Expr := fun phrase₁ st₁ =>
    if (phrase₁, st₁) = (phrase', st') then .error d st₁ else inner phrase₁ st₁
  have hfails : ∀ d, ∃ s', read (failing d) phrase st = .error d s' := fun d =>
    h (failing d) d st' (if_pos rfl)
  have hcalls : ∀ d, read (failing d) phrase st ≠ read inner phrase st →
      Calls inner (phrase, st) (phrase', st') := fun d hne =>
    ⟨failing d, fun phrase₁ st₁ hother => if_neg hother, hne⟩
  -- of two diagnostics, one at least is not what is given without the change
  obtain ⟨s₁, hone⟩ := hfails (.form (.point 0) .unexpectedEnd)
  obtain ⟨s₂, htwo⟩ := hfails (.form (.point 0) .expectedEnd)
  by_cases hsame : read (failing (.form (.point 0) .unexpectedEnd)) phrase st = read inner phrase st
  · refine hcalls (.form (.point 0) .expectedEnd) ?_
    rw [← hsame, hone, htwo]
    simp [Diagnostic.form]
  · exact hcalls _ hsame

/-- An expression calls for its first operand. -/
theorem calls_operand {inner : Phrase → Parser Expr}
    (h : st.ahead.map (·.kind) ≠ some .closeParen) : Calls inner (.expr, st) (.operand, st) := by
  refine calls_of_error fun other d s herror => ⟨s, ?_⟩
  rw [Phrase.read, bind_of_ok (upcomingKind_eq st), if_neg h]
  exact bind_of_error herror

/-- A number alone takes a call for the operand that it is. -/
example : Calls parse (.expr, start "1") (.operand, start "1") := calls_operand (by decide)

/-- If the rank were no lower, the readers would agree on all calls that matter, and reading the
phrase would come to the same with both. -/
theorem Calls.rank_lt {inner : Phrase → Parser Expr} (hmoving : Moving inner)
    {call call' : Phrase × ParserState} (h : Calls inner call call') :
    call'.1.rank call'.2.room < call.1.rank call.2.room := by
  obtain ⟨other, hother, hne⟩ := h
  apply Nat.lt_of_not_le
  intro hle
  refine hne (read_congr hmoving fun phrase st hlt => hother phrase st ?_)
  rintro rfl
  exact Nat.not_lt_of_le hle hlt

/-- Calls in calls are at most as many as the rank of the first. Ranks go down strictly along a
chain of calls, and none of them is zero. -/
theorem length_le_rank {inner : Phrase → Parser Expr} (hmoving : Moving inner)
    {call : Phrase × ParserState} {calls : List (Phrase × ParserState)}
    (h : (call :: calls).IsChain (Calls inner)) :
    (call :: calls).length ≤ call.1.rank call.2.room := by
  induction calls generalizing call with
  | nil => exact call.1.rank_pos call.2.room
  | cons next calls ih =>
    obtain ⟨hcalls, hmore⟩ := List.isChain_cons_cons.mp h
    have hlt := hcalls.rank_lt hmoving
    have hle := ih hmore
    rw [List.length_cons]
    omega

/-! ## The grammar without bounds

The equations of the grammar, with loops that run until they end by themselves. That there is a
reader with these properties is not assumed: it is `parse`, and there is no other. -/

/-- A reader that follows the grammar with no bound at all, neither on how deep the calls go nor on
how many turns a loop takes. The loops are given by `LoopsTo`, which says what a loop comes to
without saying how long it takes; a loop without end comes to nothing. -/
structure Unbounded (p : Phrase → Parser Expr) : Prop where
  expr : p .expr = read p .expr
  operand : p .operand = read p .operand
  signed : p .signed = read p .signed
  paren : p .paren = read p .paren
  chain : ∀ lhs floor, ∃ loop : Parser (Expr × Nat),
    (∀ st, LoopsTo (chainTurn p floor) (lhs, lhs.height) st (loop st)) ∧
      p (.chain lhs floor) = do return (← loop).1
  rightSide : ∀ op rhs st, LoopsTo (rightSideTurn p op) rhs st (p (.rightSide op rhs) st)

theorem unbounded_parse : Unbounded parse where
  expr := (congrFun read_parse .expr).symm
  operand := (congrFun read_parse .operand).symm
  signed := (congrFun read_parse .signed).symm
  paren := (congrFun read_parse .paren).symm
  chain lhs floor := by
    refine ⟨grow (chainTurn parse floor) (lhs, lhs.height), fun st => ?_, ?_⟩
    · exact (loopsTo_iff (consuming_chainTurn moving_parse floor)).mpr rfl
    · exact (congrFun read_parse (.chain lhs floor)).symm
  rightSide op rhs st := by
    refine (loopsTo_iff (consuming_rightSideTurn moving_parse op)).mpr ?_
    exact congrFun (congrFun read_parse (.rightSide op rhs)) st

/-- The bounds are not felt, call by call: by induction on the rank. For a phrase of rank below `n +
1` the calls made in the course of it have ranks below `n`, where the two agree already. A chain and
a right side are loops, so that here the same is to be said of each of their turns. -/
theorem Unbounded.agreeBelow (h : Unbounded p) (n : Nat) : AgreeBelow n p parse := by
  induction n with
  | zero =>
    intro phrase st hlt
    cases hlt
  | succ n ih =>
    intro phrase st hlt
    -- the calls made for this phrase have a lower rank
    have hbelow : AgreeBelow (phrase.rank st.room) p parse := ih.mono (Nat.le_of_lt_succ hlt)
    have hparse : read parse phrase st = parse phrase st := congrFun (congrFun read_parse phrase) st
    have hread : read p phrase st = parse phrase st := (read_congr moving_parse hbelow).trans hparse
    cases phrase with
    | expr => exact (congrFun h.expr st).trans hread
    | operand => exact (congrFun h.operand st).trans hread
    | signed => exact (congrFun h.signed st).trans hread
    | paren => exact (congrFun h.paren st).trans hread
    | chain lhs floor =>
      obtain ⟨loop, hloop, heq⟩ := h.chain lhs floor
      have hgrow : grow (chainTurn parse floor) (lhs, lhs.height) st = loop st := by
        refine (loopsTo_iff (consuming_chainTurn moving_parse floor)).mp ?_
        -- every turn begins with as much room as the first, so the hypothesis is good for all of
        -- them
        refine (hloop st).congr (fun st₁ => st₁.room = st.room) ?_ ?_ rfl
        · rintro ⟨lhs', height⟩ st₁ hroom
          refine chainTurn_congr moving_parse.forward ?_
          rw [hroom]
          exact hbelow
        · intro grown st₁ more st' hroom hturn
          exact (room_of_chainTurn moving_parse hturn).trans hroom
      rw [heq]
      exact (bind_congr_ok hgrow.symm fun _ _ _ => rfl).trans hparse
    | rightSide op rhs =>
      have hgrow : grow (rightSideTurn parse op) rhs st = p (.rightSide op rhs) st := by
        refine (loopsTo_iff (consuming_rightSideTurn moving_parse op)).mp ?_
        refine (h.rightSide op rhs st).congr (fun st₁ => st₁.room = st.room) ?_ ?_ rfl
        · intro rhs' st₁ hroom
          refine rightSideTurn_congr ?_
          rw [hroom]
          exact hbelow
        · intro rhs' st₁ more st' hroom hturn
          exact (room_of_rightSideTurn moving_parse hturn).trans hroom
      exact hgrow.symm.trans hparse

/-- There is one reader that follows the grammar without bounds, and that is the parser. -/
theorem Unbounded.eq_parse (h : Unbounded p) : p = parse := by
  funext phrase st
  exact h.agreeBelow _ phrase st (Nat.lt_succ_self _)

/-- The parser always ends, at a depth of calls that is bounded. A turn that goes on, be it of a
chain of operators, of a right side, of a program or of the separators in it, has passed a token at
least; so all loops come to an end by themselves. Calls in calls are never more than `callDepth`,
which depends on the limit to nesting and on the number of levels of operators alone. With that many
layers it makes no difference what lies below them, and what they read is what is read without any
bound on the depth of calls or on the turns of loops. -/
theorem parse_at_bounded_depth :
    (∀ floor grown more st st', chainTurn parse floor grown st = .ok (some more) st' →
      ∃ token raw, Passed (token :: raw) st st') ∧
    (∀ op rhs more st st', rightSideTurn parse op rhs st = .ok (some more) st' →
      ∃ token raw, Passed (token :: raw) st st') ∧
    (∀ stmts more st st', programTurn stmts st = .ok (some more) st' →
      ∃ token raw, Passed (token :: raw) st st') ∧
    (∀ st st', separatorTurn () st = .ok (some ()) st' →
      ∃ token raw, Passed (token :: raw) st st') ∧
    (∀ st, LoopsTo programTurn [] st (program st) ∧ LoopsTo separatorTurn () st (separators st)) ∧
    callDepth = (2 * Precedence.binary.length + 2) * (nestingLimit + 1) ∧
    (∀ calls : List (Phrase × ParserState),
      calls.IsChain (Calls parse) → calls.length ≤ callDepth) ∧
    (∀ bottom depth, callDepth ≤ depth → readFrom bottom depth = parse) ∧
    ∀ p, Unbounded p ↔ p = parse := by
  refine ⟨?_, ?_, ?_, ?_, ?_, callDepth_eq, ?_, ?_, ?_⟩
  · intro floor grown more st st'
    exact (consuming_chainTurn moving_parse floor).passed (forward_chainTurn moving_parse)
  · intro op rhs more st st'
    exact (consuming_rightSideTurn moving_parse op).passed (forward_rightSideTurn moving_parse)
  · intro stmts more st st'
    exact consuming_programTurn.passed forward_programTurn
  · intro st st'
    exact consuming_separatorTurn.passed forward_separatorTurn
  · intro st
    exact ⟨(loopsTo_iff consuming_programTurn).mpr rfl,
      (loopsTo_iff consuming_separatorTurn).mpr rfl⟩
  · intro calls hcalls
    cases calls with
    | nil => exact Nat.zero_le callDepth
    -- the rank falls along a chain of calls, so there are no more of them than the first has rank
    | cons call calls =>
      exact Nat.le_trans (length_le_rank moving_parse hcalls) (call.1.rank_le_callDepth call.2)
  · intro bottom depth hdepth
    exact readFrom_eq_parse bottom hdepth
  · intro p
    constructor
    · exact Unbounded.eq_parse
    · rintro rfl
      exact unbounded_parse

end Phrase

end ThreeAddress
