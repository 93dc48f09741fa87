import ThreeAddress.Proofs.Propagation

/-!
# Code with temporaries that are written once

What the facts say of a copy is meant for temporaries that are written once. That is not enough. It
is the variable copied from that must not be written again before the copy is read (`FreshCopies`);
if it is, what is read is the variable as it is by then (`stale_copy`).

So for code that writes every temporary once, and reads none before that, folding is right as long
as copies are fresh, and the first copy that is not may be read just if it still has what the
variable has (`copies_hold`).
-/

set_option autoImplicit false

namespace ThreeAddress

open Interpretation (exactly)

/-- With the temporaries in `written` written before, the code writes every temporary once, and
reads none that was not written. -/
def SingleAssignment : (written : Set Nat) → List Instr → Prop
  | _, [] => True
  | written, instr :: code =>
    (∀ n, .place (.temp n) ∈ instr.value.operands → n ∈ written) ∧
      (∀ n, instr.dest = .temp n → n ∉ written) ∧
      SingleAssignment {n | n ∈ written ∨ instr.dest = .temp n} code

/-- The temporaries that are stale after a write to a place, if those in `stale` are so before: a
write to a variable makes its known copies stale, and a write to a temporary makes it fresh. -/
def Facts.staleAfter (facts : Facts) (stale : Set Nat) : Place → Set Nat
  | .var x => {n | n ∈ stale ∨ facts.source? (.temp n) = some (.var x)}
  | .temp m => {n | n ∈ stale ∧ n ≠ m}

/-- In the sweep of the code that begins with these facts, no temporary is read that is known as a
copy of a variable that was written since. It is about what the sweep knows, not about the code
alone: the same code has other copies if more is known where it begins. -/
def FreshCopies : Facts → (stale : Set Nat) → List Instr → Prop
  | _, _, [] => True
  | facts, stale, instr :: code =>
    (∀ n, .place (.temp n) ∈ instr.value.operands → n ∉ stale) ∧
      ∀ left facts', facts.visit instr = .ok (left, facts') →
        FreshCopies facts' (facts.staleAfter stale instr.dest) code

/-! Sweeping is right about code that only reads current places (`ReadsCurrent`). Here these are all
variables, and of the temporaries those that were written and are not stale. That the sets stay what
they should be is one step each for a write to a variable and for a write to a temporary. -/

/-- A temporary that was written and is not stale is current. Here single assignment counts: no copy
is of a temporary that is still to be written. -/
theorem readsCurrent_of_freshCopies {code : List Instr} {facts : Facts} {current : Set Place}
    {written stale : Set Nat} (hsingle : SingleAssignment written code)
    (hfresh : FreshCopies facts stale code) (hcopies : facts.CopiesOf written)
    (hvars : ∀ x, .var x ∈ current)
    (htemps : ∀ n, n ∈ written → n ∉ stale → .temp n ∈ current) :
    ReadsCurrent facts current code := by
  induction code generalizing facts current written stale with
  | nil => trivial
  | cons instr code ih =>
    obtain ⟨hreads, hnew, hcode⟩ := hsingle
    constructor
    · intro p hp
      cases p with
      | var x => exact hvars x
      | temp n => exact htemps n (hreads n hp) (hfresh.1 n hp)
    · intro left facts' hvisit
      have hcopies' := (Facts.visit_of_ok hvisit).copiesOf hcopies hreads
      apply ih hcode (hfresh.2 _ _ hvisit) (hcopies'.mono fun n hn => .inl hn)
      · intro x
        exact .inr ⟨hvars x, fun hsource => Bool.noConfusion (hcopies _ _ hsource).1⟩
      · intro n hn hstale
        -- the temporary written just now is current; for all others it depends on what was
        -- written
        by_cases hdest : instr.dest = .temp n
        · exact .inl hdest.symm
        have hwritten : n ∈ written := hn.resolve_right hdest
        cases hd : instr.dest with
        | var x =>
          rw [hd] at hstale
          exact .inr ⟨htemps n hwritten fun h => hstale (.inl h), fun h => hstale (.inr h)⟩
        | temp m =>
          rw [hd] at hstale hdest
          have hne : n ≠ m := fun h => hdest (by rw [h])
          refine .inr ⟨htemps n hwritten fun h => hstale ⟨h, hne⟩, ?_⟩
          -- what is copied was written before, and the temporary written here was not
          intro h
          exact hnew m hd ((hcopies _ _ h).2 m rfl)

/-! ## Reading a copy

What folding does with one more instruction at the end, `readBack`, which puts a temporary into a
variable. The sweep of code with something behind it begins with the sweep of the code, so its facts
are the ones that the copy is resolved with. -/

section

variable {facts facts' : Facts} {code rest left : List Instr}

/-- A sweep over code in two parts is a sweep over each, the second with the facts that the first
leaves. -/
theorem Facts.sweep_append_ok (h : facts.sweep (code ++ rest) = .ok (left, facts')) :
    ∃ swept next swept', facts.sweep code = .ok (swept, next) ∧
      next.sweep rest = .ok (swept', facts') ∧ left = swept ++ swept' := by
  induction code generalizing facts left with
  | nil => exact ⟨[], facts, left, rfl, h, rfl⟩
  | cons instr code ih =>
    obtain ⟨first, next, tail, hvisit, hsweep, rfl⟩ := sweep_cons_ok h
    obtain ⟨swept, last, swept', hcode, hrest, rfl⟩ := ih hsweep
    refine ⟨first.toList ++ swept, last, swept', ?_, hrest, by rw [List.append_assoc]⟩
    simp only [sweep, hvisit, hcode, bind, Except.bind]
    rfl

/-- A copy into a variable is left as a copy of what the operand is known as. A variable is always
written, so there is an instruction left in either case, and it is a copy. -/
theorem Facts.sweep_copy (facts : Facts) (y : String) (a : Operand) (span : Span) :
    ∃ facts', facts.sweep [⟨.var y, .copy a, span⟩]
      = .ok ([⟨.var y, .copy (facts.resolve a), span⟩], facts') := by
  cases h : facts.resolve a with
  | const n =>
    refine ⟨facts.assign (.var y) n, ?_⟩
    simp [sweep, visit, Computation.mapOperands, h, Computation.eval?, Operand.const?,
      Place.isTemp, bind, Except.bind, pure, Except.pure]
  | place q =>
    refine ⟨facts.forget (.var y), ?_⟩
    simp [sweep, visit, Computation.mapOperands, h, Computation.eval?, Operand.const?,
      Computation.simplify, bind, Except.bind, pure, Except.pure]

/-- What a copy of a variable is known as is what the variable is known as. -/
theorem Facts.resolve_copy {facts : Facts} {n : Nat} {x : String}
    (hx : facts.source? (.var x) = none) (h : facts.source? (.temp n) = some (.var x)) :
    facts.resolve (.place (.temp n)) = facts.resolve (.place (.var x)) := by
  simp only [resolve, h, hx, Option.getD_some, Option.getD_none]

/-- Runs that are the same but for a write at the end are the same just if the write is. -/
theorem sameSeen_write_iff {writes writes' : List (String × Number)} {y : String} {v w : Number}
    {s τ : Store Number} (h : SameWrites Number.Alike writes writes') :
    SameSeen Number.Alike (⟨writes ++ [(y, v)], .ok s⟩ : Trace Halt Number (Store Number))
      ⟨writes' ++ [(y, w)], .ok τ⟩ ↔ v.Alike w := by
  constructor
  · intro hsame
    have hwrites := List.forall₂_reverse_iff.mpr hsame.writes
    simp only [List.reverse_append, List.reverse_cons, List.reverse_nil, List.nil_append,
      List.singleton_append] at hwrites
    cases hwrites with
    | cons hlast _ => exact hlast.2
  · intro halike
    exact ⟨List.rel_append h (.cons ⟨rfl, halike⟩ .nil), .finished trivial⟩

end

/-- The instruction that puts what a temporary has into a variable. -/
def readBack (n : Nat) (y : String) (span : Span) : Instr :=
  ⟨.var y, .copy (.place (.temp n)), span⟩

/-- Folding is right about code in which temporaries are written once and copies are fresh when
they are read, from finite variables. A further read of a temporary that is known as a copy, fresh
or not, is folded rightly just if the temporary still has what the variable has that it was copied
from. -/
theorem copies_hold {code : List Instr} {vars : String → Number}
    (hsingle : SingleAssignment ∅ code) (hfresh : FreshCopies .empty ∅ code)
    (hvars : ∀ x, (vars x).isFinite) (answer : String) :
    (∀ left, Folded.ofCode answer code = .ok ⟨left, none⟩ →
      SameSeen Number.Alike (run exactly (.start vars) code) (run exactly (.start vars) left)) ∧
    ∀ swept facts n x y span left s,
      Facts.empty.sweep code = .ok (swept, facts) →
      facts.source? (.temp n) = some (.var x) →
      (run exactly (.start vars) code).ending = .ok s →
      Folded.ofCode answer (code ++ [readBack n y span]) = .ok ⟨left, none⟩ →
      (SameSeen Number.Alike (run exactly (.start vars) (code ++ [readBack n y span]))
          (run exactly (.start vars) left) ↔
        ∃ v, s.temps n = some v ∧ v.Alike (s.vars x)) := by
  -- code with fresh copies reads current places only, from the beginning on
  have hreads : ReadsCurrent .empty (Set.range Place.var) code := by
    apply readsCurrent_of_freshCopies hsingle hfresh (Facts.copiesOf_empty ∅)
    · intro x
      exact ⟨x, rfl⟩
    · intro n hn
      exact absurd hn (Set.notMem_empty n)
  have htracks := Facts.tracks_empty hvars
  constructor
  · intro left h
    obtain ⟨facts, hsweep⟩ := sweep_of_ofCode_none h
    exact (htracks.sweep hreads hsweep).seen
  · intro swept facts n x y span left s hswept hsource hs h
    obtain ⟨facts', hsweep⟩ := sweep_of_ofCode_none h
    obtain ⟨swept', next, last, hcode, hlast, rfl⟩ := Facts.sweep_append_ok hsweep
    cases hswept.symm.trans hcode
    obtain ⟨facts'', hcopy⟩ := Facts.sweep_copy facts y (.place (.temp n)) span
    cases hlast.symm.trans hcopy
    rw [run_append, run_append]
    -- the fresh part is folded rightly, so all hangs on the two runs of the last instruction
    obtain ⟨hwrites, hending⟩ := htracks.sweep hreads hswept
    generalize run exactly (.start vars) code = t at *
    generalize run exactly (.start vars) swept = t' at *
    obtain ⟨writes, ending⟩ := t
    obtain ⟨writes', ending'⟩ := t'
    obtain rfl : ending = .ok s := hs
    simp only at hwrites hending
    cases hending with
    | @finished _ τ hend =>
      obtain ⟨current, hend⟩ := hend
      -- in the folded run the copy is read as the variable is known
      obtain ⟨v, w, hx⟩ := hend.read (.var x) (hend.tidy.var_mem x)
      have hv : s.vars x = v := Except.ok.inj hx.eval
      have hfolded : run exactly τ [⟨.var y, .copy (facts.resolve (.place (.temp n))), span⟩]
          = ⟨[(y, w)], .ok (τ.write (.var y) w)⟩ := by
        apply run_singleton
        rw [Facts.resolve_copy (hend.tidy.source?_var x) hsource]
        exact hx.eval_resolve
      simp only [Trace.andThen]
      rw [hfolded, hv]
      -- a temporary that was never written stops the run, though the folded code goes on
      cases hn : s.temps n with
      | none =>
        have hread : (readBack n y span).value.eval exactly s span
            = .error (.unwritten (.temp n)) := by
          simp only [readBack, Computation.eval, Operand.eval, Store.read, hn]
        rw [run_cons_error hread]
        constructor
        · rintro ⟨-, ⟨⟩⟩
        · rintro ⟨u, ⟨⟩, -⟩
      | some u =>
        have hread : (readBack n y span).value.eval exactly s span = .ok u := by
          simp only [readBack, Computation.eval, Operand.eval, Store.read, hn]
        rw [run_singleton hread]
        refine (sameSeen_write_iff hwrites).trans ?_
        constructor
        · intro huw
          exact ⟨u, rfl, huw.trans hx.alike.symm⟩
        · rintro ⟨_, ⟨⟩, huv⟩
          exact huv.trans hx.alike

/-- A copy of `x` is made, and `x` is written again. The copy is of a temporary that is written
once, and so it is what the facts are meant for. -/
def overwritten : List Instr :=
  [⟨.temp 0, .copy (.place (.var "x")), ⟨0, 5⟩⟩, ⟨.var "x", .copy (.const (.int 1)), ⟨6, 11⟩⟩]

/-- As long as the copy is not read, all is well. If it is read, it must have one for a value, and
it has zero. -/
theorem copies_hold_overwritten :
    SameSeen Number.Alike (run exactly (.start fun _ => .int 0) overwritten)
      (run exactly (.start fun _ => .int 0) [⟨.var "x", .copy (.const (.int 1)), ⟨6, 11⟩⟩]) ∧
    ¬ SameSeen Number.Alike
      (run exactly (.start fun _ => .int 0) (overwritten ++ [readBack 0 "z" ⟨12, 17⟩]))
      (run exactly (.start fun _ => .int 0)
        [⟨.var "x", .copy (.const (.int 1)), ⟨6, 11⟩⟩,
          ⟨.var "z", .copy (.const (.int 1)), ⟨12, 17⟩⟩]) := by
  have hsingle : SingleAssignment ∅ overwritten := by
    simp [SingleAssignment, overwritten, Computation.operands]
  have hfresh : FreshCopies .empty ∅ overwritten := by
    refine ⟨by simp [Computation.operands], ?_⟩
    intro left facts' h
    cases h
    refine ⟨by simp [Computation.operands], ?_⟩
    intro left facts' h
    cases h
    trivial
  have hvars : ∀ x : String, ((fun _ => .int 0 : String → Number) x).isFinite := fun _ => rfl
  have h := copies_hold hsingle hfresh hvars "r"
  refine ⟨h.1 _ rfl, ?_⟩
  intro hsame
  obtain ⟨v, hv, halike⟩ := (h.2 _ _ 0 "x" "z" ⟨12, 17⟩ _ _ rfl rfl rfl rfl).mp hsame
  cases hv
  cases halike

/-- The temporary is written once and read after that, and still the folded code writes something
else: it puts into `z` what `x` is by then. -/
theorem stale_copy :
    SingleAssignment ∅ (overwritten ++ [readBack 0 "z" ⟨12, 17⟩]) ∧
    ∃ left, Folded.ofCode "r" (overwritten ++ [readBack 0 "z" ⟨12, 17⟩]) = .ok ⟨left, none⟩ ∧
      (run exactly (.start fun _ => .int 0) (overwritten ++ [readBack 0 "z" ⟨12, 17⟩])).writes
        = [("x", .int 1), ("z", .int 0)] ∧
      (run exactly (.start fun _ => .int 0) left).writes = [("x", .int 1), ("z", .int 1)] := by
  refine ⟨?_, _, rfl, rfl, rfl⟩
  simp [SingleAssignment, overwritten, readBack, Computation.operands]

end ThreeAddress
