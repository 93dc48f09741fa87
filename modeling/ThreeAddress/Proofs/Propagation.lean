import Mathlib.Data.List.Forall2
import ThreeAddress.Proofs.Knowledge

/-!
# Folded code does what the code does

Two runs side by side: one of the code, and one of what the sweep leaves of it. They write the same
to the same variables in the same order and end the same way, up to the sign of a zero
(`Facts.Tracks.sweep`).

What carries the proof is `Facts.Tracks`. For every current place, the operand that it is known as
has in the folded run the value that the place has in the run of the code. Where that operand is not
a constant, the value is finite, and this is what makes `a + 0` and `a * 1` give way to `a`.
-/

set_option autoImplicit false

namespace ThreeAddress

open Interpretation (exactly partly)

/-! ## Runs that cannot be told apart

The relation on values is a parameter. With equality up to the sign of a zero the induction goes
through, and with the equality of the language the theorem can be stated; the one is put in place of
the other at the end, where all values are known to be finite. -/

section

variable {V α : Type}

/-- The writes are to the same variables, in the same order, and of values that `R` relates. -/
def SameWrites (R : V → V → Prop) (w w' : List (String × V)) : Prop :=
  List.Forall₂ (fun a b => a.1 = b.1 ∧ R a.2 b.2) w w'

/-- Both come to the same fault, or both to an end, and `S` relates the ends. In particular no
temporary is read that was not written. -/
inductive SameEnd (S : α → α → Prop) : Except Halt α → Except Halt α → Prop
  | fault (diagnostic : Diagnostic) :
      SameEnd S (.error (.fault diagnostic)) (.error (.fault diagnostic))
  | finished {a b : α} (h : S a b) : SameEnd S (.ok a) (.ok b)

/-- The runs are related in what is seen of them and, if they finish, in where they end. -/
structure SameRun (R : V → V → Prop) (S : α → α → Prop) (t t' : Trace Halt V α) : Prop where
  writes : SameWrites R t.writes t'.writes
  ending : SameEnd S t.ending t'.ending

/-- Nobody can tell the runs apart who takes for the same what `R` relates: they write the same to
the same variables in the same order, and either both finish or both stop at the same fault. The
values of temporaries are not compared, since nobody sees them. -/
def SameSeen (R : V → V → Prop) (t t' : Trace Halt V α) : Prop := SameRun R (fun _ _ => True) t t'

variable {R : V → V → Prop} {S S' : α → α → Prop} {t t' : Trace Halt V α}

theorem SameEnd.mono {x y : Except Halt α} (h : SameEnd S x y) (hS : ∀ a b, S a b → S' a b) :
    SameEnd S' x y := by
  cases h with
  | fault diagnostic => exact .fault diagnostic
  | finished hab => exact .finished (hS _ _ hab)

theorem SameRun.seen (h : SameRun R S t t') : SameSeen R t t' :=
  ⟨h.writes, h.ending.mono fun _ _ _ => trivial⟩

/-- Related runs are gone on from by related runs. Where both stopped at a fault there is nothing to
go on from. -/
theorem SameRun.andThen {next next' : α → Trace Halt V α} (h : SameRun R S t t')
    (hnext : ∀ a b, S a b → SameRun R S' (next a) (next' b)) :
    SameRun R S' (t.andThen next) (t'.andThen next') := by
  obtain ⟨writes, ending⟩ := t
  obtain ⟨writes', ending'⟩ := t'
  obtain ⟨hwrites, hending⟩ := h
  cases hending with
  | fault diagnostic => exact ⟨hwrites, .fault diagnostic⟩
  | finished hab =>
    have h := hnext _ _ hab
    exact ⟨List.rel_append hwrites h.writes, h.ending⟩

end

theorem mapError_eq_ok {ε ε' α : Type} {f : ε → ε'} {x : Except ε α} {a : α} :
    x.mapError f = .ok a ↔ x = .ok a := by
  cases x <;> simp [Except.mapError]

/-- Outcomes of an operator that are the same come to the same in a run. -/
theorem SameOutcome.sameEnd (span : Span) {x y : Except EvalFault Number}
    (h : SameOutcome Number.Alike x y) :
    SameEnd Number.Alike ((outcomeAt span x).mapError .fault)
      ((outcomeAt span y).mapError .fault) := by
  cases h with
  | error fault => exact .fault _
  | ok halike => exact .finished halike

theorem SameEnd.trans {x y z : Except Halt Number} (h : SameEnd Number.Alike x y)
    (h' : SameEnd Number.Alike y z) : SameEnd Number.Alike x z := by
  cases h with
  | fault diagnostic => exact h'
  | finished hab =>
    cases h' with
    | finished hbc => exact .finished (hab.trans hbc)

/-! ## Computations on constants, and simplified ones

First the computation by itself, in one store. The sweep carries out a computation on constants as a
run does, and drops a zero or a one where a run would not tell the difference, provided that the
other side is finite. -/

namespace Computation

variable {c : Computation} {span : Span} {τ : Store Number}

/-- What the sweep carries out comes to what a run comes to, in any store: there are only constants
in it, and a store is not looked at for these. -/
theorem eval_of_eval? {outcome : Except EvalFault Number} (h : c.eval? = some outcome) :
    c.eval exactly τ span = (outcomeAt span outcome).mapError .fault := by
  cases c with
  | copy a =>
    cases a with
    | place p => cases h
    | const n => cases h; rfl
  | unary op a =>
    cases a with
    | place p => cases h
    | const n => cases h; rfl
  | binary op a b =>
    cases a with
    | place p => cases h
    | const m =>
      cases b with
      | place p => cases h
      | const n => cases h; rfl

/-- What the sweep cannot carry out has an operand that is no constant. There need not be more than
one, and which of them it is does not matter: the value of the whole is finite for this one's sake,
or because an operator checks it. -/
theorem exists_operand_of_eval? (h : c.eval? = none) : ∃ a ∈ c.operands, a.const? = none := by
  cases c with
  | copy a | unary op a =>
    refine ⟨a, List.mem_singleton_self a, ?_⟩
    cases a with
    | place p => rfl
    | const n => cases h
  | binary op a b =>
    cases a with
    | place p => exact ⟨_, List.mem_cons_self, rfl⟩
    | const m =>
      cases b with
      | place p => exact ⟨_, List.mem_cons_of_mem _ (List.mem_singleton_self _), rfl⟩
      | const n => cases h

theorem eval_binary {op : BinOp} {a b : Operand} {v w : Number} (ha : a.eval exactly τ = .ok v)
    (hb : b.eval exactly τ = .ok w) :
    (binary op a b).eval exactly τ span
      = (outcomeAt span (Number.binary op v w)).mapError .fault := by
  simp only [eval, ha, hb, bind, Except.bind]
  rfl

theorem eval_unary {op : UnOp} {a : Operand} {v : Number} (ha : a.eval exactly τ = .ok v) :
    (unary op a).eval exactly τ span = (outcomeAt span (Number.unary op v)).mapError .fault := by
  simp only [eval, ha, bind, Except.bind]
  rfl

/-- If one side is a constant, and that does not make the outcome known, the other side is none. -/
theorem const?_left {op : BinOp} {a : Operand} {n : Number}
    (h : (binary op a (.const n)).eval? = none) : a.const? = none := by
  cases a with
  | place p => rfl
  | const m => cases h

/-- What was simplified comes to the same up to the sign of zero, if what is no constant is finite.
Only the side that is not the constant needs to be. Adding zero turns a negative zero into a
positive one, and so values are not the same in general; an infinity would be a fault if the
operator were applied and none if it is dropped. -/
theorem simplify_alike (h : c.eval? = none)
    (hfinite : ∀ a ∈ c.operands, a.const? = none →
      ∃ w, a.eval exactly τ = .ok w ∧ w.isFinite)
    {x : Except Halt Number} (hx : SameEnd Number.Alike x (c.eval exactly τ span)) :
    SameEnd Number.Alike x (c.simplify.eval exactly τ span) := by
  -- nothing was dropped, or an addition of zero, or a multiplication by one
  rcases c.simplify_cases with hsame | ⟨a, rfl, hcopy⟩ | ⟨a, rfl, hcopy⟩
  · rwa [hsame]
  · obtain ⟨w, hw, hwfinite⟩ := hfinite a List.mem_cons_self (const?_left h)
    obtain ⟨v, hv, halike⟩ := Number.binary_add_zero hwfinite
    have hzero : (Operand.const (.int 0)).eval exactly τ = .ok (.int 0) := rfl
    rw [eval_binary hw hzero, hv] at hx
    rw [hcopy, eval, hw]
    exact hx.trans (.finished halike)
  · obtain ⟨w, hw, hwfinite⟩ := hfinite a List.mem_cons_self (const?_left h)
    have hone : (Operand.const (.int 1)).eval exactly τ = .ok (.int 1) := rfl
    rw [eval_binary hw hone, Number.binary_mul_one hwfinite] at hx
    rw [hcopy, eval, hw]
    exact hx

/-- Copying is no fault. -/
theorem copy_ne_fault (a : Operand) {diagnostic : Diagnostic} :
    (copy a).eval exactly τ span ≠ .error (.fault diagnostic) := by
  cases a with
  | const n => rintro ⟨⟩
  | place p =>
    simp only [eval, Operand.eval]
    cases τ.read p <;> rintro ⟨⟩

end Computation

/-! ## Two runs side by side

Places cannot be compared one by one, for a temporary that was left out is never written in the
folded run. What is compared is the value of a place with the value of the operand that it is known
as. -/

/-- In the run of the code `a` has the value `v`. In the folded run, what `a` is known as has the
value `w`, which is the same up to the sign of zero, and finite if that is no constant. A constant
may be infinite, if the program has it written out so, but then it is in both runs. -/
structure Facts.Follows (facts : Facts) (σ τ : Store Number) (a : Operand) (v w : Number) :
    Prop where
  eval : a.eval exactly σ = .ok v
  eval_resolve : (facts.resolve a).eval exactly τ = .ok w
  alike : v.Alike w
  isFinite : (facts.resolve a).const? = none → v.isFinite

/-- The folded run, with `τ`, keeps pace with the run of the code, with `σ`. Nothing is said of
places that are not current, and so a copy that is stale may be known as anything. -/
structure Facts.Tracks (facts : Facts) (current : Set Place) (σ τ : Store Number) : Prop where
  tidy : facts.Tidy current
  read : ∀ p ∈ current, ∃ v w, facts.Follows σ τ (.place p) v w

namespace Facts

variable {facts facts' : Facts} {current : Set Place} {σ τ : Store Number} {c : Computation}
  {instr : Instr} {left : Option Instr} {code : List Instr}

/-- What holds of current places holds of all operands of an instruction that reads current places
only. A constant has its own value in both runs. -/
theorem Tracks.operands (h : facts.Tracks current σ τ)
    (hreads : ∀ p, .place p ∈ c.operands → p ∈ current) (a : Operand) (ha : a ∈ c.operands) :
    ∃ v w, facts.Follows σ τ a v w := by
  cases a with
  | const n => exact ⟨n, n, rfl, rfl, .refl n, by rintro ⟨⟩⟩
  | place p => exact h.read p (hreads p ha)

/-! ### Computations -/

section

variable (hfollows : ∀ a ∈ c.operands, ∃ v w, facts.Follows σ τ a v w)
include hfollows

/-- A computation comes to the same in both runs, if it is done on what is known in the folded
one. -/
theorem eval_alike (span : Span) :
    SameEnd Number.Alike (c.eval exactly σ span)
      ((c.mapOperands facts.resolve).eval exactly τ span) := by
  cases c with
  | copy a =>
    obtain ⟨v, w, ha⟩ := hfollows a (List.mem_singleton_self a)
    simp only [Computation.mapOperands, Computation.eval, ha.eval, ha.eval_resolve]
    exact .finished ha.alike
  | unary op a =>
    obtain ⟨v, w, ha⟩ := hfollows a (List.mem_singleton_self a)
    rw [Computation.mapOperands, Computation.eval_unary ha.eval,
      Computation.eval_unary ha.eval_resolve]
    exact (ha.alike.unary op).sameEnd span
  | binary op a b =>
    obtain ⟨v, w, ha⟩ := hfollows a List.mem_cons_self
    obtain ⟨v', w', hb⟩ := hfollows b (List.mem_cons_of_mem _ (List.mem_singleton_self b))
    rw [Computation.mapOperands, Computation.eval_binary ha.eval hb.eval,
      Computation.eval_binary ha.eval_resolve hb.eval_resolve]
    exact (ha.alike.binary op hb.alike).sameEnd span

/-- What is not known beforehand is finite: it is made of something finite, or by an operator. This
is where the invariant renews itself, for the finiteness of what is written is asked of the place
from now on. -/
theorem isFinite_eval {span : Span} {v : Number}
    (hvalue : (c.mapOperands facts.resolve).eval? = none) (hv : c.eval exactly σ span = .ok v) :
    v.isFinite := by
  obtain ⟨a', ha', hconst⟩ := Computation.exists_operand_of_eval? hvalue
  -- a copy and a sign keep what is finite, and a binary operator gives nothing else
  cases c with
  | copy a =>
    obtain ⟨u, w, ha⟩ := hfollows a (List.mem_singleton_self a)
    rw [List.mem_singleton.mp ha'] at hconst
    cases ha.eval.symm.trans hv
    exact ha.isFinite hconst
  | unary op a =>
    obtain ⟨u, w, ha⟩ := hfollows a (List.mem_singleton_self a)
    rw [List.mem_singleton.mp ha'] at hconst
    rw [Computation.eval_unary ha.eval, mapError_eq_ok, outcomeAt_eq_ok] at hv
    exact Number.isFinite_of_unary hv (ha.isFinite hconst)
  | binary op a b =>
    obtain ⟨u, w, ha⟩ := hfollows a List.mem_cons_self
    obtain ⟨u', w', hb⟩ := hfollows b (List.mem_cons_of_mem _ (List.mem_singleton_self b))
    rw [Computation.eval_binary ha.eval hb.eval, mapError_eq_ok, outcomeAt_eq_ok] at hv
    exact Number.isFinite_of_binary hv

/-- What the sweep leaves of a computation that is not known comes to what the computation does. -/
theorem eval_simplify_alike (span : Span)
    (hvalue : (c.mapOperands facts.resolve).eval? = none) :
    SameEnd Number.Alike (c.eval exactly σ span)
      ((c.mapOperands facts.resolve).simplify.eval exactly τ span) := by
  refine Computation.simplify_alike hvalue ?_ (eval_alike hfollows span)
  intro a ha hconst
  rw [Computation.operands_mapOperands] at ha
  obtain ⟨b, hb, rfl⟩ := List.mem_map.mp ha
  obtain ⟨v, w, hb⟩ := hfollows b hb
  refine ⟨w, hb.eval_resolve, ?_⟩
  rw [← hb.alike.isFinite_eq]
  exact hb.isFinite hconst

end

/-! ### One instruction -/

/-- After a write to a place in the run of the code, the runs keep pace if the folded run, too,
changed at most this place, and what the place is now known as is right. The three kinds of visit
differ in what the folded run does: it writes the same place, or it writes nothing. So this is about
any store that differs at that place alone. -/
theorem Tracks.write {τ' : Store Number} {v w : Number} (h : facts.Tracks current σ τ)
    (hvisit : facts.Visit instr left facts')
    (hothers : ∀ q, q ≠ instr.dest → τ'.read q = τ.read q)
    (hknown : (facts'.resolve (.place instr.dest)).eval exactly τ' = .ok w) (halike : v.Alike w)
    (hfinite : (facts'.resolve (.place instr.dest)).const? = none → v.isFinite) :
    facts'.Tracks (facts.currentAfter current instr.dest) (σ.write instr.dest v) τ' := by
  refine ⟨hvisit.tidy h.tidy, ?_⟩
  intro p hp
  -- the place that was written is as `hknown` says, and the others are as they were
  by_cases hpd : p = instr.dest
  · refine ⟨v, w, ?_, by rw [hpd]; exact hknown, halike, by rw [hpd]; exact hfinite⟩
    simp only [Operand.eval, hpd, Store.read_write_self]
  · obtain ⟨hp, hsource⟩ := hp.resolve_left hpd
    obtain ⟨u, u', hfollows⟩ := h.read p hp
    have hresolve := hvisit.resolve_of_ne hpd hsource
    refine ⟨u, u', ?_, ?_, hfollows.alike, by rw [hresolve]; exact hfollows.isFinite⟩
    · rw [← hfollows.eval]
      simp only [Operand.eval, Store.read_write_of_ne _ hpd]
    · -- the place is known as a constant, or as a place that was not written
      rw [← hfollows.eval_resolve, hresolve]
      cases hplace : facts.resolve (.place p) with
      | const n => rfl
      | place q =>
        have hq : q ≠ instr.dest := by
          rcases eq_or_source_of_resolve hplace with heq | ⟨p', heq, hp'⟩
          · cases heq
            exact hpd
          · cases heq
            rintro rfl
            exact hsource hp'
        simp only [Operand.eval, hothers q hq]

theorem seen_of_isTemp {d : Place} (h : d.isTemp = true) (v : Number) : d.seen v = [] := by
  cases d with
  | temp index => rfl
  | var x => cases h

theorem seen_alike (d : Place) {v w : Number} (halike : v.Alike w) :
    SameWrites Number.Alike (d.seen v) (d.seen w) := by
  cases d with
  | temp index => exact .nil
  | var x => exact .cons ⟨rfl, halike⟩ .nil

/-- What a visit leaves of an instruction does what the instruction does, and the runs keep pace.
The step lemma, with a case for each constructor of `Visit`. -/
theorem Visit.tracks (hvisit : facts.Visit instr left facts') (h : facts.Tracks current σ τ)
    (hreads : ∀ p, .place p ∈ instr.value.operands → p ∈ current) :
    SameRun Number.Alike (facts'.Tracks (facts.currentAfter current instr.dest))
      (instr.step exactly σ) (run exactly τ left.toList) := by
  have hfollows := h.operands hreads
  -- folded: the value is known beforehand; linked: a copy that is left out; kept: all others
  cases hvisit with
  | @folded n hvalue =>
    have hresolve := resolve_assign_self facts instr.dest n
    have heval := eval_alike hfollows instr.span
    rw [Computation.eval_of_eval? hvalue] at heval
    generalize hv : instr.value.eval exactly σ instr.span = x at heval
    cases heval with
    | @finished v _ halike =>
      have hwrite (τ' : Store Number) (hothers : ∀ q, q ≠ instr.dest → τ'.read q = τ.read q) :=
        h.write (.folded hvalue) hothers (by rw [hresolve]; rfl) halike
          (by rw [hresolve]; rintro ⟨⟩)
      rw [step_ok hv]
      cases htemp : instr.dest.isTemp with
      | true =>
        -- nothing is left, so the folded run stays where it is and only the facts change
        rw [seen_of_isTemp htemp]
        exact ⟨.nil, .finished (hwrite τ fun _ _ => rfl)⟩
      | false =>
        show SameRun _ _ _ (run exactly τ [{ instr with value := .copy (.const n) }])
        rw [run_singleton rfl]
        exact ⟨seen_alike _ halike, .finished (hwrite _ fun q hq => Store.read_write_of_ne _ hq _)⟩
  | @linked index source hvalue hdest hcopy =>
    obtain ⟨a, -, ha⟩ := exists_operand_of_simplify hcopy
    have hresolve := resolve_link_self index (value?_of_resolve ha)
    have heval := eval_simplify_alike hfollows instr.span hvalue
    rw [hcopy] at heval
    generalize hv : instr.value.eval exactly σ instr.span = x at heval
    generalize hw : (Computation.copy (.place source)).eval exactly τ instr.span = y at heval
    cases heval with
    -- a copy cannot fail, so the instruction it was made of does not either
    | fault diagnostic => exact absurd hw (Computation.copy_ne_fault _)
    | @finished v w halike =>
      rw [step_ok hv, hdest]
      refine ⟨.nil, .finished ?_⟩
      rw [← hdest]
      -- the store of the folded run does not change, and the temporary is read where it is
      -- copied from
      refine h.write (.linked hvalue hdest hcopy) (fun _ _ => rfl) ?_ halike ?_
      · rw [hdest, hresolve]
        exact hw
      · intro _
        exact isFinite_eval hfollows hvalue hv
  | kept hvalue =>
    have hresolve := resolve_forget_self facts instr.dest
    have heval := eval_simplify_alike hfollows instr.span hvalue
    generalize hv : instr.value.eval exactly σ instr.span = x at heval
    generalize hw : (instr.value.mapOperands facts.resolve).simplify.eval exactly τ instr.span = y
      at heval
    cases heval with
    | fault diagnostic =>
      rw [step_error hv, Option.toList_some, run_cons_error hw]
      exact ⟨.nil, .fault diagnostic⟩
    | @finished v w halike =>
      rw [step_ok hv, Option.toList_some, run_singleton hw]
      refine ⟨seen_alike _ halike, .finished ?_⟩
      refine h.write (.kept hvalue) (fun q hq => Store.read_write_of_ne _ hq _) ?_ halike ?_
      · simp only [hresolve, Operand.eval, Store.read_write_self]
      · intro _
        exact isFinite_eval hfollows hvalue hv

/-! ### The whole code -/

/-- What the sweep leaves of code that reads current places does what the code does, and the runs
keep pace to the end. The run lemma: by induction on the code, with facts, current places and both
stores as they are when it is reached. -/
theorem Tracks.sweep {left : List Instr} (h : facts.Tracks current σ τ)
    (hreads : ReadsCurrent facts current code) (hsweep : facts.sweep code = .ok (left, facts')) :
    SameRun Number.Alike (fun σ' τ' => ∃ current', facts'.Tracks current' σ' τ')
      (run exactly σ code) (run exactly τ left) := by
  induction code generalizing facts current σ τ left with
  | nil =>
    cases hsweep
    exact ⟨.nil, .finished ⟨current, h⟩⟩
  | cons instr code ih =>
    obtain ⟨first, next, rest, hvisit, hrest, rfl⟩ := sweep_cons_ok hsweep
    -- what is left of the first instruction is none or one, and is run before what is left of
    -- the rest
    rw [run_append]
    refine ((visit_of_ok hvisit).tracks h hreads.1).andThen ?_
    intro σ' τ' htracks
    exact ih htracks (hreads.2 _ _ hvisit) hrest

/-- From finite variables, nothing is known and both runs begin with the same. -/
theorem tracks_empty {vars : String → Number} (hvars : ∀ x, (vars x).isFinite) :
    Facts.empty.Tracks (Set.range Place.var) (.start vars) (.start vars) := by
  refine ⟨tidy_empty, ?_⟩
  rintro _ ⟨x, rfl⟩
  exact ⟨vars x, vars x, rfl, rfl, .refl _, fun _ => hvars x⟩

end Facts

/-! ## The meaning of a program

Three outcomes of folding, and one theorem on each. Only the first needs two runs; what is known of
the answer, and that folding fails, come from the partial evaluator, which the sweep agrees with. -/

/-- Up to the sign of zero, finite writes are equal. The relation is sharper than the equality of
the language only for what is not finite, where the latter is not even reflexive. -/
theorem SameWrites.beq {w w' : List (String × Number)} (h : SameWrites Number.Alike w w')
    (hfinite : ∀ write ∈ w, write.2.isFinite) :
    SameWrites (fun a b => (a == b) = true) w w' := by
  induction h with
  | nil => exact .nil
  | cons hab _ ih =>
    refine .cons ⟨hab.1, hab.2.beq (hfinite _ List.mem_cons_self)⟩ (ih ?_)
    intro write hwrite
    exact hfinite write (List.mem_cons_of_mem _ hwrite)

/-- Folding preserves the meaning of a program whose float literals are finite. If the answer is not
found, the folded code does what the code of the program does, from any finite variables. If it is
found, every run that finishes ends with it, and if folding fails, no run finishes. The stores of
the last two parts are arbitrary: folding knows nothing of where a run begins, so that what it finds
holds of all runs. -/
theorem ofCode_preserves_meaning (answer : String) (stmts : List Stmt)
    (hliterals : ∀ stmt ∈ stmts, stmt.finiteLiterals = true) :
    (∀ left, Folded.ofCode answer (linearize stmts) = .ok ⟨left, none⟩ →
      ∀ vars : String → Number, (∀ x, (vars x).isFinite) →
        SameSeen (fun a b => (a == b) = true) (run exactly (.start vars) (linearize stmts))
          (run exactly (.start vars) left)) ∧
    (∀ code value, Folded.ofCode answer (linearize stmts) = .ok ⟨code, some value⟩ →
      ∀ s s', (run exactly s (linearize stmts)).ending = .ok s' → s'.vars answer = value) ∧
    ∀ diagnostic, Folded.ofCode answer (linearize stmts) = .error diagnostic →
      ∀ s s', (run exactly s (linearize stmts)).ending ≠ .ok s' := by
  have hnothing (vars : String → Number) : ∀ x, Knows (unknown x) (vars x) := by rintro x n ⟨⟩
  refine ⟨?_, ?_, ?_⟩
  · intro left h vars hvars
    obtain ⟨facts, hsweep⟩ := sweep_of_ofCode_none h
    have hsame := ((Facts.tracks_empty hvars).sweep (readsCurrent_linearize stmts) hsweep).seen
    refine ⟨hsame.writes.beq ?_, hsame.ending⟩
    rw [writes_linearize]
    exact isFinite_writes stmts hliterals hvars
  · intro code value h s s' hs
    obtain ⟨left, facts, hsweep, hvalue⟩ := sweep_of_ofCode_some h
    obtain ⟨known, hknown, hfacts⟩ := partly_of_sweep_ok hsweep
    -- a partial run of which nothing is known at first agrees with any run that finishes
    obtain ⟨known', hknown', hright⟩ :=
      finishes_partly stmts (hnothing s.vars) (evaluate_ending_ok hs)
    cases hknown.symm.trans hknown'
    exact (hright answer value (by rw [hfacts, hvalue])).symm
  · intro diagnostic h s s' hs
    have hpartly := partly_of_sweep_error (sweep_of_ofCode_error h)
    obtain ⟨known, hknown, -⟩ := finishes_partly stmts (hnothing s.vars) (evaluate_ending_ok hs)
    cases hpartly.symm.trans hknown

/-- One program of each kind. `y = x + 0` from a negative zero: the code of the program writes a
positive one and the folded code a negative one, which are equal. `r = 2 * 3` is known to be six.
And `r = 2 / 0` cannot finish. -/
theorem ofCode_preserves_meaning_cases :
    SameSeen (fun a b => (a == b) = true)
      (run exactly (.start fun _ => .float (-0.0)) (linearize [.assign ⟨"y", ⟨0, 1⟩⟩
        (.binary .add ⟨6, 7⟩ (.literal (.name "x") ⟨4, 5⟩) (.literal (.int 0) ⟨8, 9⟩) ⟨4, 9⟩)
        ⟨0, 9⟩]))
      (run exactly (.start fun _ => .float (-0.0))
        [⟨.var "y", .copy (.place (.var "x")), ⟨0, 9⟩⟩]) ∧
    (∀ s s', (run exactly s (linearize [.assign ⟨"r", ⟨0, 1⟩⟩
        (.binary .mul ⟨6, 7⟩ (.literal (.int 2) ⟨4, 5⟩) (.literal (.int 3) ⟨8, 9⟩) ⟨4, 9⟩)
        ⟨0, 9⟩])).ending = .ok s' → s'.vars "r" = .int 6) ∧
    ∀ s s', (run exactly s (linearize [.assign ⟨"r", ⟨0, 1⟩⟩
        (.binary .div ⟨6, 7⟩ (.literal (.int 2) ⟨4, 5⟩) (.literal (.int 0) ⟨8, 9⟩) ⟨4, 9⟩)
        ⟨0, 9⟩])).ending ≠ .ok s' :=
  ⟨(ofCode_preserves_meaning "r" _ (by decide)).1 _ rfl _ fun _ => rfl,
    (ofCode_preserves_meaning "r" _ (by decide)).2.1 _ _ rfl,
    (ofCode_preserves_meaning "r" _ (by decide)).2.2 _ rfl⟩

end ThreeAddress
