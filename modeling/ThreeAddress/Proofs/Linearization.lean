import ThreeAddress.Proofs.Evaluation

/-!
# Linearization is correct

The code of a program does what the program does: the same writes to variables in the same order,
and where evaluation fails, the same fault at the same place (`run_linearize`).

The proof is an induction over expressions, and what it says of one is `Computes`: the code runs
without being seen, it touches no temporary below the number that it was given, and the operand that
it comes with has the value of the expression. That operand is read later, after code for other
expressions. It still has its value then, for the other code is given higher numbers
(`Numbered`) and the operand reads none of them.
-/

set_option autoImplicit false

namespace ThreeAddress

/-! ## How the code is put together

`Expr.linearize` hands on pairs and adds up lengths as it goes, so a proof by its recursion has to
take apart a pair for each side and for each operand that is put into a place before it can begin.
That is done once. `Linearizes` is the same recursion written as rules, with every part under a name
and the numbers spelled out, and what is proved of the code of expressions is proved by induction on
the rules. -/

namespace Expr

section

variable {op : BinOp} {opSpan span : Span} {operand lhs rhs : Expr} {before : Nat}
  {code left right first second : List Instr} {a a' b b' : Operand}

/-- A minus over a constant is carried out here and leaves no instruction, so the code is the
operand's own. -/
theorem linearize_neg_const {n : Number} (h : operand.linearize before = (code, a))
    (hneg : a.negated? = some n) :
    (unary .neg opSpan operand span).linearize before = (code, .const n) := by
  rw [linearize, h]
  simp only [hneg]

theorem linearize_neg (h : operand.linearize before = (code, a)) (hneg : a.negated? = none) :
    (unary .neg opSpan operand span).linearize before =
      (code ++ [⟨.temp (before + code.length), .unary .neg a, span⟩],
        .place (.temp (before + code.length))) := by
  rw [linearize, h]
  simp only [hneg]

/-- The four numbers at which a part begins are added up from the left, as a proof goes through the
parts in that order and adds one length at a time. -/
theorem linearize_binary (hleft : lhs.linearize before = (left, a))
    (hright : rhs.linearize (before + left.length) = (right, b))
    (hfirst : a.settle (before + left.length + right.length) lhs.span = (first, a'))
    (hsecond : b.settle (before + left.length + right.length + first.length) rhs.span
      = (second, b')) :
    let dest := before + left.length + right.length + first.length + second.length
    (binary op opSpan lhs rhs span).linearize before =
      (left ++ right ++ first ++ second ++ [⟨.temp dest, .binary op a' b', span⟩],
        .place (.temp dest)) := by
  simp only [linearize, hleft, hright, List.length_append, ← Nat.add_assoc, hfirst, hsecond]

end

/-- `e.Linearizes before code a` says that `code` is the code of `e` after `before` instructions and
`a` the operand that has its value, and the rule that it is by says why. A sign has two rules, as a
constant below it is negated at once. The operands of a binary instruction are put into places only
after both sides, and so the numbers of the four parts of its code follow on from each other. -/
inductive Linearizes : Expr → (before : Nat) → List Instr → Operand → Prop
  | literal {value : Literal} {span : Span} {before : Nat} :
      Linearizes (literal value span) before [] value.operand
  | paren {inner : Expr} {span : Span} {before : Nat} {code : List Instr} {a : Operand}
      (h : Linearizes inner before code a) : Linearizes (paren inner span) before code a
  | pos {opSpan span : Span} {operand : Expr} {before : Nat} {code : List Instr} {a : Operand}
      (h : Linearizes operand before code a) :
      Linearizes (unary .pos opSpan operand span) before code a
  | negated {opSpan span : Span} {operand : Expr} {before : Nat} {code : List Instr} {a : Operand}
      {n : Number} (h : Linearizes operand before code a) (hneg : a.negated? = some n) :
      Linearizes (unary .neg opSpan operand span) before code (.const n)
  | neg {opSpan span : Span} {operand : Expr} {before : Nat} {code : List Instr} {a : Operand}
      (h : Linearizes operand before code a) (hneg : a.negated? = none) :
      Linearizes (unary .neg opSpan operand span) before
        (code ++ [⟨.temp (before + code.length), .unary .neg a, span⟩])
        (.place (.temp (before + code.length)))
  | binary {op : BinOp} {opSpan span : Span} {lhs rhs : Expr} {before : Nat}
      {left right first second : List Instr} {a a' b b' : Operand}
      (hleft : Linearizes lhs before left a)
      (hright : Linearizes rhs (before + left.length) right b)
      (hfirst : a.settle (before + left.length + right.length) lhs.span = (first, a'))
      (hsecond : b.settle (before + left.length + right.length + first.length) rhs.span
        = (second, b')) :
      Linearizes (binary op opSpan lhs rhs span) before
        (left ++ right ++ first ++ second ++ [⟨.temp (before + left.length + right.length +
          first.length + second.length), .binary op a' b', span⟩])
        (.place (.temp (before + left.length + right.length + first.length + second.length)))

/-- Every expression is by the rules. This is the one induction over the recursion itself. -/
theorem linearizes (e : Expr) (before : Nat) :
    e.Linearizes before (e.linearize before).1 (e.linearize before).2 := by
  induction e generalizing before with
  | literal value span => exact .literal
  | paren inner span ih => exact .paren (ih before)
  | unary op opSpan operand span ih =>
    cases op with
    | pos => exact .pos (ih before)
    | neg =>
      have hoperand := ih before
      rcases h : operand.linearize before with ⟨code, a⟩
      rw [h] at hoperand
      -- whether the sign is carried out depends on the operand, not on the expression below it
      cases hneg : a.negated? with
      | some n =>
        rw [linearize_neg_const h hneg]
        exact .negated hoperand hneg
      | none =>
        rw [linearize_neg h hneg]
        exact .neg hoperand hneg
  | binary op opSpan lhs rhs span ihl ihr =>
    have hleft := ihl before
    rcases hl : lhs.linearize before with ⟨left, a⟩
    have hright := ihr (before + left.length)
    rcases hr : rhs.linearize (before + left.length) with ⟨right, b⟩
    rcases hf : a.settle (before + left.length + right.length) lhs.span with ⟨first, a'⟩
    rcases hs : b.settle (before + left.length + right.length + first.length) rhs.span
      with ⟨second, b'⟩
    rw [hl] at hleft
    rw [hr] at hright
    rw [linearize_binary hl hr hf hs]
    exact .binary hleft hright hf hs

/-- By the rules there is one code for an expression, and that is the one that is made. -/
theorem Linearizes.eq {e : Expr} {before : Nat} {code : List Instr} {a : Operand}
    (h : e.Linearizes before code a) : e.linearize before = (code, a) := by
  induction h with
  | literal => rfl
  | paren _ ih => exact ih
  | pos _ ih => exact ih
  | negated _ hneg ih => exact linearize_neg_const ih hneg
  | neg _ hneg ih => exact linearize_neg ih hneg
  | binary _ _ hfirst hsecond ihl ihr => exact linearize_binary ihl ihr hfirst hsecond

end Expr

/-! ## Numbers of temporaries

The number of an instruction is the number of the temporary that it may write, so temporaries are
written in the order of their numbers. `Numbered` says that of a piece of code, with two bounds:
`next`, where the piece begins, and `first`, below which it reads nothing. The bounds differ as soon
as pieces are put in a row, for a later piece reads what an earlier one has written. -/

/-- If the operand is a temporary, its number is at least `first` and below `next`. Only temporaries
have numbers, so that a constant or a variable is between any two. -/
def Operand.Between (first next : Nat) : Operand → Prop
  | place (.temp n) => first ≤ n ∧ n < next
  | _ => True

/-- Wider bounds do as well. -/
theorem Operand.Between.mono {first first' next next' : Nat} {a : Operand}
    (h : a.Between first next) (hfirst : first' ≤ first) (hnext : next ≤ next') :
    a.Between first' next' := by
  rcases a with (n | x) | c
  · exact ⟨Nat.le_trans hfirst h.1, Nat.lt_of_lt_of_le h.2 hnext⟩
  · trivial
  · trivial

/-- The code writes the temporaries from `next` on, one after the other, and of the temporaries it
reads only those from `first` on that come before the one it writes. -/
def Numbered (first : Nat) : (next : Nat) → List Instr → Prop
  | _, [] => True
  | next, instr :: code =>
    instr.dest = .temp next ∧ (∀ a ∈ instr.value.operands, a.Between first next) ∧
      Numbered first (next + 1) code

/-- Code is numbered if its parts are, the second from where the first ends. Both have the same
lower bound. -/
theorem Numbered.append {first next : Nat} {code rest : List Instr}
    (h : Numbered first next code) (h' : Numbered first (next + code.length) rest) :
    Numbered first next (code ++ rest) := by
  induction code generalizing next with
  | nil => exact h'
  | cons instr code ih =>
    refine ⟨h.1, h.2.1, ih h.2.2 ?_⟩
    rwa [Nat.add_assoc, Nat.add_comm 1]

theorem Numbered.mono {first first' next : Nat} {code : List Instr} (h : Numbered first next code)
    (hfirst : first' ≤ first) : Numbered first' next code := by
  induction code generalizing next with
  | nil => trivial
  | cons instr code ih =>
    exact ⟨h.1, fun a ha => (h.2.1 a ha).mono hfirst (Nat.le_refl next), ih h.2.2⟩

/-- Putting an operand into a place takes no number or one, and what it ends in is read by numbers
below the next. -/
theorem numbered_settle {first next : Nat} {span : Span} {code : List Instr} {a a' : Operand}
    (h : a.settle next span = (code, a')) (ha : a.Between first next) (hfirst : first ≤ next) :
    Numbered first next code ∧ a'.Between first (next + code.length) := by
  cases a with
  | place p =>
    cases h
    exact ⟨trivial, ha⟩
  | const n =>
    cases h
    refine ⟨⟨rfl, ?_, trivial⟩, hfirst, Nat.lt_succ_self next⟩
    intro b hb
    obtain rfl := List.mem_singleton.mp hb
    trivial

/-- The code of an expression writes the temporaries from its own number on, and reads no other. The
bounds on what is read only ever grow: an operand that is read by a later part was numbered by an
earlier one. So each part is weakened to the bounds of the whole before the parts are put together.
-/
theorem Expr.Linearizes.numbered {e : Expr} {before : Nat} {code : List Instr} {a : Operand}
    (h : e.Linearizes before code a) :
    Numbered before before code ∧ a.Between before (before + code.length) := by
  induction h with
  | @literal value =>
    refine ⟨trivial, ?_⟩
    cases value <;> trivial
  | paren _ ih => exact ih
  | pos _ ih => exact ih
  | negated _ _ ih => exact ⟨ih.1, trivial⟩
  | neg _ _ ih =>
    obtain ⟨hcode, ha⟩ := ih
    refine ⟨hcode.append ⟨rfl, ?_, trivial⟩, Nat.le_add_right _ _, by simp⟩
    intro b hb
    obtain rfl := List.mem_singleton.mp hb
    exact ha
  | @binary op opSpan span lhs rhs before left right first second a a' b b' _ _ hfirst hsecond
      ihl ihr =>
    obtain ⟨hleft, ha⟩ := ihl
    obtain ⟨hright, hb⟩ := ihr
    have hright := hright.mono (Nat.le_add_right before left.length)
    have ha := ha.mono (Nat.le_refl before) (Nat.le_add_right _ right.length)
    obtain ⟨hfirst, ha⟩ := numbered_settle hfirst ha (by omega)
    have hb := hb.mono (Nat.le_add_right before left.length) (Nat.le_add_right _ first.length)
    obtain ⟨hsecond, hb⟩ := numbered_settle hsecond hb (by omega)
    have ha := ha.mono (Nat.le_refl before) (Nat.le_add_right _ second.length)
    have hlast : ∀ c ∈ (Computation.binary op a' b').operands, c.Between before
        (before + left.length + right.length + first.length + second.length) :=
      List.forall_mem_cons.mpr ⟨ha, List.forall_mem_singleton.mpr hb⟩
    simp only [List.append_assoc]
    refine ⟨hleft.append (hright.append (hfirst.append (hsecond.append ⟨rfl, hlast, trivial⟩))),
      by omega, ?_⟩
    simp only [List.length_append, List.length_singleton]
    omega

/-! ## Stores that agree below a number

A frame condition. Code that is given the number `bound` leaves alone what stands below it, so what
was computed earlier is still there. -/

namespace Store

variable {V : Type}

/-- The stores differ in the temporaries from `bound` on only. -/
structure SameBelow (bound : Nat) (s s' : Store V) : Prop where
  vars : s'.vars = s.vars
  temps : ∀ n < bound, s'.temps n = s.temps n

variable {bound : Nat} {s s' s'' : Store V}

theorem SameBelow.refl (bound : Nat) (s : Store V) : SameBelow bound s s := ⟨rfl, fun _ _ => rfl⟩

/-- The later piece of code is given a number that is not lower, so what it leaves alone covers what
the earlier one does. -/
theorem SameBelow.trans {bound' : Nat} (h : SameBelow bound s s') (h' : SameBelow bound' s' s'')
    (hbound : bound ≤ bound') : SameBelow bound s s'' :=
  ⟨h'.vars.trans h.vars,
    fun n hn => (h'.temps n (Nat.lt_of_lt_of_le hn hbound)).trans (h.temps n hn)⟩

theorem sameBelow_write (s : Store V) {n : Nat} (h : bound ≤ n) (v : V) :
    SameBelow bound s (s.write (.temp n) v) :=
  ⟨rfl, fun _ hm => Function.update_of_ne (Nat.ne_of_lt (Nat.lt_of_lt_of_le hm h)) _ _⟩

/-- An operand has the same value in both stores if it reads nothing from the bound on. -/
theorem SameBelow.eval (I : Interpretation V) (h : SameBelow bound s s') {first : Nat}
    {a : Operand} (ha : a.Between first bound) : a.eval I s' = a.eval I s := by
  rcases a with (n | x) | c
  · simp only [Operand.eval, read, h.temps n ha.2]
  · simp only [Operand.eval, read, h.vars]
  · rfl

end Store

/-! ## The code of an expression

The invariant is `Computes`. Of the store after the code it says only what later code may rely on:
that the variables and the temporaries below the given number are the same, and that the operand has
the value. -/

section

variable {V : Type}

/-- The code, run from `s`, comes to what `outcome` says, and is not seen doing it. If that is a
value, the operand `a` has it in the end, and no temporary below `before` has changed. There is no
third outcome: the code of an expression never reads a temporary that was not written. -/
def Computes (I : Interpretation V) (before : Nat) (s : Store V) (code : List Instr)
    (a : Operand) : Except Diagnostic V → Prop
  | .error diagnostic => run I s code = .finish (.error (.fault diagnostic))
  | .ok v => ∃ s', run I s code = .finish (.ok s') ∧ s.SameBelow before s' ∧ a.eval I s' = .ok v

variable {I : Interpretation V} {before : Nat} {s : Store V} {code : List Instr}

/-- Ends the code with an instruction that computes the value into the next temporary. It fails if
the operator does, with the span of the expression; and if not, the temporary that is written is the
operand from then on. -/
theorem Computes.result {s' : Store V} {n : Nat} {c : Computation} {span : Span}
    {outcome : Except EvalFault V} (hcode : run I s code = .finish (.ok s'))
    (hsame : s.SameBelow before s') (hn : before ≤ n)
    (hc : c.eval I s' span = (outcomeAt span outcome).mapError .fault) :
    Computes I before s (code ++ [⟨.temp n, c, span⟩]) (.place (.temp n))
      (outcomeAt span outcome) := by
  cases outcome with
  | error fault => exact (run_append_of_silent _ hcode).trans (run_cons_error hc)
  | ok v =>
    refine ⟨s'.write (.temp n) v, (run_append_of_silent _ hcode).trans (run_singleton hc),
      hsame.trans (Store.sameBelow_write s' hn v) (Nat.le_refl _), ?_⟩
    simp only [Operand.eval, Store.read_write_self]

/-- A sign that was carried out beforehand gives what the operator gives. If it had been a fault,
there would be no such constant. -/
theorem eval_negated {a : Operand} {n : Number} {v : V} (ha : a.eval I s = .ok v)
    (hn : a.negated? = some n) : I.unary .neg v = .ok (I.const n) := by
  cases a with
  | place p => simp [Operand.negated?, Operand.const?] at hn
  | const m =>
    cases ha
    rw [I.unary_const]
    simp only [Operand.negated?, Operand.const?, bind, Option.bind] at hn
    cases hm : Number.unary .neg m with
    | error fault => simp [hm, Except.toOption] at hn
    | ok k =>
      simp only [hm, Except.toOption, Option.some.injEq] at hn
      rw [hn]
      rfl

/-! Here is one lemma for each rule that adds something to the code. Each of them takes what the
parts compute, whatever it is, and leaves the order of the parts to decide which fault stops the
code. -/

section

variable {a a' b b' : Operand} {span : Span} {outcome outcome' : Except Diagnostic V}

/-- Nothing is added for a constant. If the code below the sign stops, there was no constant, but
that need not be known: it stops for the same fault with and without the sign. -/
theorem Computes.negated {n : Number} (h : Computes I before s code a outcome)
    (hneg : a.negated? = some n) (span : Span) :
    Computes I before s code (.const n) (outcome >>= fun v => outcomeAt span (I.unary .neg v)) := by
  cases outcome with
  | error diagnostic => exact h
  | ok v =>
    obtain ⟨s', hrun, hsame, ha⟩ := h
    show Computes I before s code (.const n) (outcomeAt span (I.unary .neg v))
    rw [eval_negated ha hneg]
    exact ⟨s', hrun, hsame, rfl⟩

/-- The instruction for the sign comes last, and so the operand has failed already if it does. -/
theorem Computes.neg (h : Computes I before s code a outcome) (span : Span) :
    Computes I before s (code ++ [⟨.temp (before + code.length), .unary .neg a, span⟩])
      (.place (.temp (before + code.length)))
      (outcome >>= fun v => outcomeAt span (I.unary .neg v)) := by
  cases outcome with
  | error diagnostic => exact run_append_of_error _ h
  | ok v =>
    obtain ⟨s', hrun, hsame, ha⟩ := h
    apply Computes.result hrun hsame (Nat.le_add_right _ _)
    simp only [Computation.eval, ha, bind, Except.bind]

/-- A constant that was put into a temporary is read from there. Copying cannot fail here, since the
operand has a value already. -/
theorem run_settle {v : V} (h : a.settle before span = (code, a')) (ha : a.eval I s = .ok v) :
    ∃ s', run I s code = .finish (.ok s') ∧ s.SameBelow before s' ∧ a'.eval I s' = .ok v := by
  cases a with
  | place p =>
    cases h
    exact ⟨s, rfl, .refl before s, ha⟩
  | const n =>
    cases h
    refine ⟨s.write (.temp before) v, run_singleton ha,
      Store.sameBelow_write s (Nat.le_refl _) v, ?_⟩
    simp only [Operand.eval, Store.read_write_self]

/-- Two operands are put into places one after the other, and both have their values in the end: the
temporary that the one is put into has a higher number than any that the other reads. -/
theorem run_settle_both {least next : Nat} {span' : Span} {first second : List Instr} {v w : V}
    (hfirst : a.settle next span = (first, a'))
    (hsecond : b.settle (next + first.length) span' = (second, b')) (hleast : least ≤ next)
    (hbelow : a.Between least next) (hbelow' : b.Between least next)
    (ha : a.eval I s = .ok v) (hb : b.eval I s = .ok w) :
    ∃ s', run I s (first ++ second) = .finish (.ok s') ∧ s.SameBelow next s' ∧
      a'.eval I s' = .ok v ∧ b'.eval I s' = .ok w := by
  obtain ⟨s₁, hrun₁, hsame₁, ha₁⟩ := run_settle hfirst ha
  have hb₁ : b.eval I s₁ = .ok w := (hsame₁.eval I hbelow').trans hb
  obtain ⟨s₂, hrun₂, hsame₂, hb₂⟩ := run_settle hsecond hb₁
  have ha₂ : a'.eval I s₂ = .ok v :=
    (hsame₂.eval I (numbered_settle hfirst hbelow hleast).2).trans ha₁
  exact ⟨s₂, (run_append_of_silent _ hrun₁).trans hrun₂,
    hsame₁.trans hsame₂ (Nat.le_add_right _ _), ha₂, hb₂⟩

/-- The first side that fails is the one that stops the code. The right side runs in the store that
the left one leaves, of which nothing is known but that the variables are the same; so `hright` is
about all such stores. -/
theorem Computes.binary {left right first second : List Instr}
    (hleft : Computes I before s left a outcome)
    (hright : ∀ s', s'.vars = s.vars → Computes I (before + left.length) s' right b outcome')
    (hbelow : a.Between before (before + left.length))
    (hbelow' : b.Between (before + left.length) (before + left.length + right.length))
    {lspan rspan : Span}
    (hfirst : a.settle (before + left.length + right.length) lspan = (first, a'))
    (hsecond : b.settle (before + left.length + right.length + first.length) rspan = (second, b'))
    (op : BinOp) (span : Span) :
    let dest := before + left.length + right.length + first.length + second.length
    Computes I before s
      (left ++ right ++ first ++ second ++ [⟨.temp dest, .binary op a' b', span⟩])
      (.place (.temp dest))
      (outcome >>= fun v => outcome' >>= fun w => outcomeAt span (I.binary op v w)) := by
  intro dest
  cases outcome with
  | error diagnostic =>
    simp only [List.append_assoc]
    exact run_append_of_error _ hleft
  | ok v =>
    obtain ⟨s₁, hrun₁, hsame₁, ha₁⟩ := hleft
    have hright := hright s₁ hsame₁.vars
    cases outcome' with
    | error diagnostic =>
      simp only [List.append_assoc]
      exact (run_append_of_silent _ hrun₁).trans (run_append_of_error _ hright)
    | ok w =>
      obtain ⟨s₂, hrun₂, hsame₂, hb₂⟩ := hright
      have ha₂ : a.eval I s₂ = .ok v := (hsame₂.eval I hbelow).trans ha₁
      -- settling runs in the store after both sides, and there both operands have their values
      obtain ⟨s₃, hrun₃, hsame₃, ha₃, hb₃⟩ := run_settle_both hfirst hsecond (by omega)
        (hbelow.mono (Nat.le_refl before) (Nat.le_add_right _ right.length))
        (hbelow'.mono (Nat.le_add_right before left.length) (Nat.le_refl _)) ha₂ hb₂
      have hrun : run I s (left ++ right ++ first ++ second) = .finish (.ok s₃) := by
        simp only [List.append_assoc]
        rw [run_append_of_silent _ hrun₁, run_append_of_silent _ hrun₂, hrun₃]
      have hsame : s.SameBelow before s₃ :=
        (hsame₁.trans hsame₂ (by omega)).trans hsame₃ (by omega)
      apply Computes.result hrun hsame (by omega)
      simp only [Computation.eval, ha₃, hb₃, bind, Except.bind]

end

/-- The code of an expression comes to what evaluating the expression does. The lemmas above are the
cases of the induction. Those for a literal, for parentheses and for `+` add nothing to the code. -/
theorem Expr.Linearizes.computes {e : Expr} {a : Operand} (h : e.Linearizes before code a)
    (I : Interpretation V) (s : Store V) : Computes I before s code a (e.eval I s.vars) := by
  induction h generalizing s with
  | @literal value =>
    refine ⟨s, rfl, .refl _ s, ?_⟩
    cases value <;> rfl
  | paren _ ih => exact ih s
  | pos _ ih => exact ih s
  | negated _ hneg ih => exact (ih s).negated hneg _
  | neg _ _ ih => exact (ih s).neg _
  | binary hleft hright hfirst hsecond ihl ihr =>
    refine (ihl s).binary ?_ hleft.numbered.2 hright.numbered.2 hfirst hsecond _ _
    intro s' hvars
    rw [← hvars]
    exact ihr s'

/-! ## The code of statements

Between statements only variables are handed on. What is left in temporaries is of no account, since
the next statement is given a number above all of them; the store is mapped to its variables for
that reason. -/

/-- The code of a statement is seen to do what the statement does, and leaves the same variables. -/
theorem run_stmt (I : Interpretation V) (stmt : Stmt) (before : Nat) (s : Store V) :
    (run I s (stmt.linearize before)).map Store.vars
      = (stmt.exec I s.vars).mapError .fault := by
  cases stmt with
  | unsupported kind span => rfl
  | assign target value span =>
    have hcode := (value.linearizes before).computes I s
    simp only [Stmt.linearize, Stmt.exec]
    cases hv : value.eval I s.vars with
    | error diagnostic =>
      rw [hv] at hcode
      rw [run_append_of_error _ hcode]
      rfl
    | ok v =>
      rw [hv] at hcode
      obtain ⟨s', hrun, hsame, ha⟩ := hcode
      have hcopy : (Computation.copy (value.linearize before).2).eval I s' span = .ok v := ha
      rw [run_append_of_silent _ hrun, run_cons_ok hcopy, ← hsame.vars]
      rfl

/-- By induction on the statements, from any store: the one that a statement leaves has the right
variables and, in its temporaries, whatever the code put there. What the next statement is given is
therefore known well enough. -/
theorem run_linearizeFrom (I : Interpretation V) (stmts : List Stmt) (before : Nat)
    (s : Store V) :
    (run I s (linearizeFrom before stmts)).map Store.vars
      = (evaluate I s.vars stmts).mapError .fault := by
  induction stmts generalizing before s with
  | nil => rfl
  | cons stmt stmts ih =>
    rw [linearizeFrom, run_append, evaluate, Trace.mapError_andThen,
      ← run_stmt I stmt before s]
    refine Trace.map_andThen ?_ _
    intro s'
    exact ih _ s'

/-- The code of a program, run from any variables, does what evaluating the program does. In
particular no run stops at a temporary that was not written, as evaluation has no such end. -/
theorem run_linearize (stmts : List Stmt) (vars : String → Number) :
    (run .exactly (.start vars) (linearize stmts)).map Store.vars
      = (evaluate .exactly vars stmts).mapError .fault :=
  run_linearizeFrom .exactly stmts 0 (.start vars)

/-! The same in parts: the writes, and the two kinds of end. -/

variable {stmts : List Stmt}

/-- The writes are the same even if the run ends early. -/
theorem writes_linearize (I : Interpretation V) (stmts : List Stmt) (s : Store V) :
    (run I s (linearize stmts)).writes = (evaluate I s.vars stmts).writes :=
  congrArg Trace.writes (run_linearizeFrom I stmts 0 s)

theorem ending_linearize (I : Interpretation V) (stmts : List Stmt) (s : Store V) :
    (run I s (linearize stmts)).ending.map Store.vars
      = (evaluate I s.vars stmts).ending.mapError .fault :=
  congrArg Trace.ending (run_linearizeFrom I stmts 0 s)

/-- Code that gets through is the code of a program that does, and the variables are the same in the
end. -/
theorem evaluate_ending_ok {s s' : Store V}
    (h : (run I s (linearize stmts)).ending = .ok s') :
    (evaluate I s.vars stmts).ending = .ok s'.vars := by
  have hends := ending_linearize I stmts s
  rw [h] at hends
  cases heval : (evaluate I s.vars stmts).ending with
  | error diagnostic => rw [heval] at hends; cases hends
  | ok vars => rw [heval] at hends; cases hends; rfl

/-- Code made from statements reads no temporary too early, so if a run of it ends early, that is by
a fault, and evaluation ends by the same. -/
theorem evaluate_ending_error {s : Store V} {halt : Halt}
    (h : (run I s (linearize stmts)).ending = .error halt) :
    ∃ diagnostic, halt = .fault diagnostic ∧
      (evaluate I s.vars stmts).ending = .error diagnostic := by
  have hends := ending_linearize I stmts s
  rw [h] at hends
  cases heval : (evaluate I s.vars stmts).ending with
  | error diagnostic => rw [heval] at hends; cases hends; exact ⟨diagnostic, rfl, rfl⟩
  | ok vars => rw [heval] at hends; cases hends

end

end ThreeAddress
